import SimpleFlow.ResponseSending
import SimpleFlow.RequestReads

/-!
# A connection of the HTTP server

The event loop calls `on_readable` and `on_writeable` of a connection one after
the other, each time it is armed for one of them. So the connection answers one
request after the other, each with its own response, until an exception ends the
process. The last part of a response is not waited for: what `send` does not take
of it is lost, and on a connection that is kept alive the next response follows.
-/

namespace SimpleFlow

open LabelledSystem

/-! ## The errors of a request -/

namespace Request

variable {p : HttpParser} {req u : Request} {calls : List ParserCallback}

theorem settings_err (p : HttpParser) (req : Request) (call : ParserCallback) :
    ((req.settings p call).1 = some 0 → (req.settings p call).2.parseErr = req.parseErr) ∧
      (∀ ret ≠ 0, call = .messageComplete → (req.settings p call).1 = some ret →
        (req.settings p call).2.parseErr = parseMultipartErr) := by
  cases call with
  | messageComplete =>
      refine ⟨fun hzero ↦ ?_, fun ret hne _ hret ↦ ?_⟩
      · exact (ssOnMessageComplete_answered hzero).2.trans (if_pos rfl)
      · exact (ssOnMessageComplete_answered hret).2.trans (if_neg hne)
  | headersComplete =>
      refine ⟨fun hzero ↦ ?_, by simp⟩
      simp only [settings, ssOnHeadersComplete] at hzero ⊢
      split at hzero
      · cases hzero
      · split at hzero
        · cases hzero
        · rename_i hlength hpost
          rw [if_neg hlength, if_neg hpost]
          exact (foldl_addHeader_frame _ _).1
  | headerField bytes =>
      have hline : (if req.parsePart = .reqLine then req.lineOver p else req).parseErr =
          req.parseErr := by
        split <;> rfl
      refine ⟨fun _ ↦ ?_, by simp⟩
      simp only [settings, ssOnHeaderField]
      generalize (if req.parsePart = .reqLine then req.lineOver p else req) = v at hline ⊢
      split <;> exact hline
  | headerValue bytes =>
      refine ⟨fun _ ↦ ?_, by simp⟩
      simp only [settings, ssOnHeaderValue]
      split <;> rfl
  | url bytes | body bytes => exact ⟨fun _ ↦ rfl, by simp⟩

theorem execute_err {stop : Option Stop} (h : execute p calls req = (stop, u)) :
    (stop = none → u.parseErr = req.parseErr) ∧
      (stop = some (.failed .messageComplete) → u.parseErr = parseMultipartErr) := by
  induction calls generalizing req with
  | nil =>
      obtain ⟨rfl, rfl⟩ : none = stop ∧ req = u := by simpa [execute] using h
      exact ⟨fun _ ↦ rfl, by simp⟩
  | cons call calls ih =>
      obtain ⟨hzero, hne⟩ := settings_err p req call
      simp only [execute] at h
      split at h
      · rename_i hanswer
        obtain ⟨rfl, rfl⟩ : some (.of call (req.settings p call).1) = stop ∧
            (req.settings p call).2 = u := by simpa using h
        refine ⟨by simp, fun hstop ↦ ?_⟩
        cases hcalled : (req.settings p call).1 with
        | none => simp [hcalled, Stop.of] at hstop
        | some ret =>
            have hcall : call = .messageComplete := by simpa [hcalled, Stop.of] using hstop
            have hret : ret ≠ 0 := fun heq ↦ hanswer (by rw [hcalled, heq])
            exact hne ret hret hcall hcalled
      · rename_i hok
        have hrest := ih h
        rwa [hzero (not_not.mp hok)] at hrest

/-- A request without an error is answered with -1, `PARSE_MULTIPART_ERR`,
`NEED_MORE_STATUS` or 0, if it is answered, and never with `PARSE_LEN_REQUIRED`. -/
theorem parseRequest_answer (herr : req.parseErr = 0) (x : Parsing) :
    (req.parseRequest x).1 = none ∨ (∃ ret < 0, (req.parseRequest x).1 = some ret) ∨
      (req.parseRequest x).2.parseErr = 0 ∧
        ((req.parseRequest x).1 = some needMoreStatus ∨ (req.parseRequest x).1 = some 0) := by
  rcases hrun : execute x.parser x.callbacks (req.resize (req.totalReqSize + x.size)) with
    ⟨stop, u⟩
  obtain ⟨hok, hmulti⟩ := execute_err hrun
  have hneg : (-1 : Int) < 0 := by decide
  simp only [parseRequest_eq, hrun]
  split
  · exact .inr (.inl ⟨-1, hneg, rfl⟩)
  split
  · exact .inl rfl
  rename_i hthrown
  split
  · exact .inr (.inl ⟨-1, hneg, rfl⟩)
  · rename_i htook
    have hcases : stop = none ∨ stop = some (.failed .messageComplete) := by
      cases stop with
      | none => exact .inl rfl
      | some stop =>
          cases stop with
          | thrown => exact absurd rfl hthrown
          | failed call =>
              cases call with
              | messageComplete => exact .inr rfl
              | _ => exact absurd rfl htook
    rcases hcases with hnone | hcomplete
    · have hu : u.parseErr = 0 := (hok hnone).trans herr
      right; right
      simp only [hu, ne_eq, not_true_eq_false, if_false]
      split
      · exact ⟨hu, .inl rfl⟩
      · exact ⟨hu, .inr rfl⟩
    · have hu := hmulti hcomplete
      have hne : parseMultipartErr ≠ 0 := by decide
      have hmultiNeg : parseMultipartErr < 0 := by decide
      right; left
      refine ⟨parseMultipartErr, hmultiNeg, ?_⟩
      simp only [hu, if_pos hne]

end Request

/-! ## The system -/

/-- A request that was answered on a connection that is kept alive, with the
response and the part of it that was sent. -/
structure Exchange where
  request : Request
  response : Bytes
  sent : Bytes

/-- A connection: its context, what it is armed for (nothing when it is closed or
the process has ended), and all bytes that `send` has taken. For the proofs also
the exchanges that are over and what was sent of the response under way. -/
structure HttpConnection where
  context : HttpContext
  armed : Option Interest
  wire : Bytes
  exchanges : List Exchange
  sent : Bytes

/-- The event loop or a pool thread calls `on_readable`, where `ω` is what the
handler's answer depends on; the event loop calls `on_writeable`, where `reject`
says whether `stop_epoll` was called; the connection is closed for another reason. -/
inductive HttpAct (Ω : Type) where
  | readable (ω : Ω) (recv : HttpRecv)
  | writeable (send : Send) (reject : Bool)
  | evict

namespace HttpConnection

def start : HttpConnection := ⟨.new, some .input, [], [], []⟩

/-- `handle_readable_event` after `on_readable`. It catches no exception. -/
def settled (s : HttpConnection) (ret : Answer) (context : HttpContext) : HttpConnection :=
  { s with
    context := context
    armed :=
      if ret = none then none
      else if ret = some readClose then none
      else if ret = some readContinue then some .input
      else if ret = some readOver then some .output
      else none }

/-- `handle_writeable_event` after `on_writeable` -/
def wrote (s : HttpConnection) (ret : WriteRet) (context : HttpContext) (bytes : Bytes)
    (reject : Bool) : HttpConnection :=
  let s' := { s with context := context, wire := s.wire ++ bytes }
  match ret with
  | .close => { s' with armed := none, sent := s.sent ++ bytes }
  | .again => { s' with armed := some .output, sent := s.sent ++ bytes }
  | .alive =>
      { s' with
        armed := if reject then none else some .input
        exchanges := s.exchanges ++ [⟨s.context.req, s.context.bytes, s.sent ++ bytes⟩]
        sent := [] }

end HttpConnection

namespace HttpEpollWatcher

variable {Ω : Type} (w : HttpEpollWatcher Ω)

def step (s : HttpConnection) : HttpAct Ω → Option HttpConnection
  | .readable ω recv =>
      if s.armed = some .input then
        some (s.settled (w.onReadable ω s.context recv).1 (w.onReadable ω s.context recv).2)
      else none
  | .writeable send reject =>
      if s.armed = some .output then
        (onWriteable s.context send).map fun r ↦ s.wrote r.1 r.2.1 r.2.2 reject
      else none
  | .evict => some { s with armed := none }

/-- A connection under any peer, any handlers and any outcome of the calls. -/
def system : LabelledSystem HttpConnection (HttpAct Ω) := ⟨w.step⟩

/-- The response to a request. -/
def response (ω : Ω) (req : Request) : Bytes :=
  Response.genBytes (w.handleRequest ω req .new) req.line.httpVersion
    (HttpContext.isKeepalive ⟨req, .new⟩)

/-- The context when the request was handled. -/
def handled (ω : Ω) (req : Request) : HttpContext :=
  ⟨req, ⟨w.handleRequest ω req .new, false, .new⟩⟩

end HttpEpollWatcher

namespace HttpConnection

variable {Ω : Type} {w : HttpEpollWatcher Ω} {s t : HttpConnection} {a : HttpAct Ω}

/-- The response has less than 2³¹ bytes. -/
def Short (s : HttpConnection) (_ : HttpAct Ω) : Prop := s.context.bytes.length < 2147483648

/-- What holds of a connection at any time. -/
structure Sound (w : HttpEpollWatcher Ω) (s : HttpConnection) : Prop where
  /-- The wire is what was sent of one response after the other. -/
  wire_eq : s.wire = s.exchanges.flatMap Exchange.sent ++ s.sent
  /-- Each of them was the response to its own request, and not all of it need
  have been sent. -/
  finished : ∀ e ∈ s.exchanges, (∃ ω, e.response = w.response ω e.request) ∧
    e.sent <+: e.response ∧ e.sent ≠ []
  front : s.sent <+: s.context.bytes
  /-- Nothing is sent before the request is there. -/
  input : s.armed = some .input → s.context.res = .new ∧ s.sent = [] ∧
    s.context.req.parseErr = 0
  output : s.armed = some .output → s.context.Readable ∧
    s.sent = s.context.bytes.take s.context.pos ∧
    ∃ ω, s.context.bytes = w.response ω s.context.req

/-- Each response was sent as a whole before the next request was read. -/
def Whole (s : HttpConnection) : Prop := ∀ e ∈ s.exchanges, e.sent = e.response

/-- The last part of a response on a connection that is kept alive is taken as a
whole, or nothing of it. -/
def Uncut (s : HttpConnection) : HttpAct Ω → Prop
  | .writeable (.took k) _ =>
      s.context.isKeepalive = true → s.context.rest.length < ssWriteBufferSize →
        s.context.rest ≠ [] → 0 < k → k = s.context.rest.length
  | _ => True

/-! ## One step -/

/-- What a step does. -/
inductive Step (w : HttpEpollWatcher Ω) (s : HttpConnection) : HttpAct Ω → HttpConnection → Prop
  | again {ω : Ω} {recv : HttpRecv} {req : Request} (harmed : s.armed = some .input)
      (herr : req.parseErr = 0) :
      Step w s (.readable ω recv) { s with context := ⟨req, .new⟩ }
  | failed {ω : Ω} {recv : HttpRecv} {req : Request} (harmed : s.armed = some .input) :
      Step w s (.readable ω recv) { s with context := ⟨req, .new⟩, armed := none }
  | ready {ω : Ω} {recv : HttpRecv} {req : Request} (harmed : s.armed = some .input) :
      Step w s (.readable ω recv) { s with context := w.handled ω req, armed := some .output }
  | wrote {send : Send} {reject : Bool} {ret : WriteRet} {u : HttpContext} {bytes : Bytes}
      (harmed : s.armed = some .output)
      (h : HttpEpollWatcher.Wrote s.context send ret u bytes) :
      Step w s (.writeable send reject) (s.wrote ret u bytes reject)
  | evict : Step w s .evict { s with armed := none }

theorem step_readable {ω : Ω} {recv : HttpRecv} (harmed : s.armed = some .input)
    (hres : s.context.res = .new) (herr : s.context.req.parseErr = 0) :
    Step w s (.readable ω recv)
      (s.settled (w.onReadable ω s.context recv).1 (w.onReadable ω s.context recv).2) := by
  obtain ⟨⟨req, res⟩, armed, wire, exchanges, sent⟩ := s
  change res = .new at hres
  change armed = some .input at harmed
  subst hres harmed
  cases recv with
  | closed => exact .failed rfl
  | failed eintr =>
      cases eintr with
      | false => exact .failed rfl
      | true => exact .again rfl herr
  | got x =>
      rcases Request.parseRequest_answer herr x with
        hthrown | ⟨ret, hneg, hret⟩ | ⟨herr', hmore | hzero⟩
      · simp only [HttpEpollWatcher.onReadable, hthrown]
        exact .failed rfl
      · simp only [HttpEpollWatcher.onReadable, hret, if_pos hneg]
        exact .failed rfl
      · simp only [HttpEpollWatcher.onReadable, hmore]
        exact .again rfl herr'
      · simp only [HttpEpollWatcher.onReadable, hzero]
        exact .ready rfl

theorem step_of_sound (h : s.Sound w) (hshort : s.Short a) (hstep : w.system.step s a = some t) :
    Step w s a t := by
  change w.step s a = some t at hstep
  cases a with
  | evict =>
      obtain rfl := Option.some.inj hstep
      exact .evict
  | writeable send reject =>
      simp only [HttpEpollWatcher.step] at hstep
      split at hstep
      · rename_i harmed
        obtain ⟨⟨ret, u, bytes⟩, hwrite, rfl⟩ := Option.map_eq_some_iff.mp hstep
        exact .wrote harmed
          (HttpEpollWatcher.wrote_of_onWriteable (h.output harmed).1 hshort hwrite)
      · cases hstep
  | readable ω recv =>
      simp only [HttpEpollWatcher.step] at hstep
      split at hstep
      · rename_i harmed
        obtain rfl := Option.some.inj hstep
        obtain ⟨hres, -, herr⟩ := h.input harmed
        exact step_readable harmed hres herr
      · cases hstep

theorem Sound.start (w : HttpEpollWatcher Ω) : start.Sound w where
  wire_eq := rfl
  finished := fun e he ↦ by cases he
  front := List.nil_prefix
  input := fun _ ↦ ⟨rfl, rfl, rfl⟩
  output := fun harmed ↦ by cases harmed

theorem Sound.step (h : s.Sound w) (hstep : Step w s a t) : t.Sound w := by
  obtain ⟨hwire, hover, hfront, hinput, houtput⟩ := h
  cases hstep with
  | evict => exact ⟨hwire, hover, hfront, by simp, by simp⟩
  | again harmed herr =>
      obtain ⟨-, hsent, -⟩ := hinput harmed
      refine ⟨hwire, hover, ?_, fun _ ↦ ⟨rfl, hsent, herr⟩, by simp [harmed]⟩
      rw [hsent]
      exact List.nil_prefix
  | failed harmed =>
      obtain ⟨-, hsent, -⟩ := hinput harmed
      refine ⟨hwire, hover, ?_, by simp, by simp⟩
      rw [hsent]
      exact List.nil_prefix
  | ready harmed =>
      obtain ⟨-, hsent, -⟩ := hinput harmed
      refine ⟨hwire, hover, ?_, by simp, fun _ ↦ ⟨.of_new rfl rfl, ?_, _, rfl⟩⟩
      · rw [hsent]
        exact List.nil_prefix
      · rw [hsent]
        rfl
  | @wrote send reject ret u bytes harmed hwrote =>
      obtain ⟨hread, hsent, ω, hbytes⟩ := houtput harmed
      have hmore : ∀ k, s.sent ++ s.context.rest.take k =
          s.context.bytes.take (s.context.pos + k) := by
        intro k
        rw [hsent, HttpContext.rest, List.take_add]
      have hwire' : ∀ bytes, s.wire ++ bytes =
          s.exchanges.flatMap Exchange.sent ++ (s.sent ++ bytes) := by
        intro bytes
        rw [hwire, List.append_assoc]
      cases hwrote with
      | nothing hu h =>
          refine ⟨hwire' [], hover, ?_, by simp [wrote], by simp [wrote]⟩
          simpa [wrote, hu] using hfront
      | @dropped k u hu hlast hk hdrop =>
          refine ⟨hwire' _, hover, ?_, by simp [wrote], by simp [wrote]⟩
          simp only [wrote, hu, hmore]
          exact List.take_prefix _ _
      | @part k hroom hk =>
          have hle : k ≤ s.context.rest.length := Nat.le_trans hk hroom
          have hbytes' : (s.context.sent k).bytes = s.context.bytes := HttpContext.sent_bytes k
          have hpos' : (s.context.sent k).pos = s.context.pos + k := HttpContext.sent_pos k
          refine ⟨hwire' _, hover, ?_, by simp [wrote], fun _ ↦ ⟨?_, ?_, ω, ?_⟩⟩
          · simp only [wrote, hmore, hbytes']
            exact List.take_prefix _ _
          · exact .sent hle hread.pos_le
          · simp only [wrote, hmore, hbytes', hpos']
          · exact hbytes'.trans hbytes
      | @kept k hlast hk hkeep hpos =>
          have hne : s.sent ++ s.context.rest.take k ≠ [] := by
            apply List.append_ne_nil_of_right_ne_nil
            apply List.ne_nil_of_length_pos
            rw [List.length_take]
            omega
          refine ⟨?_, ?_, List.nil_prefix, fun _ ↦ ⟨rfl, rfl, rfl⟩, ?_⟩
          · simp only [wrote, hwire', List.flatMap_append, List.flatMap_singleton,
              List.append_nil]
          · intro e he
            rcases List.mem_append.mp he with hold | hnew
            · exact hover e hold
            · obtain rfl := List.mem_singleton.mp hnew
              refine ⟨⟨ω, hbytes⟩, ?_, hne⟩
              rw [hmore]
              exact List.take_prefix _ _
          · cases reject <;> simp [wrote]

/-- A step keeps the responses whole exactly if it cuts none. -/
theorem whole_step (h : s.Sound w) (hwhole : s.Whole) (hstep : Step w s a t) :
    t.Whole ↔ s.Uncut a := by
  cases hstep with
  | evict | again harmed herr | failed harmed | ready harmed =>
      exact ⟨fun _ ↦ trivial, fun _ ↦ hwhole⟩
  | @wrote send reject ret u bytes harmed hwrote =>
      obtain ⟨hread, hsent, -⟩ := h.output harmed
      cases hwrote with
      | nothing hu hnothing =>
          refine ⟨fun _ ↦ ?_, fun _ ↦ hwhole⟩
          rcases hnothing with rfl | hnil
          · trivial
          · cases send with
            | failed => trivial
            | took k => exact fun _ _ hne ↦ absurd hnil hne
      | dropped hu hlast hk hdrop =>
          exact ⟨fun _ hkeep _ _ hpos ↦ absurd ⟨hkeep, hpos⟩ hdrop, fun _ ↦ hwhole⟩
      | part hroom hk =>
          exact ⟨fun _ _ hlast ↦ absurd hlast (Nat.not_lt.mpr hroom), fun _ ↦ hwhole⟩
      | @kept k hlast hk hkeep hpos =>
          have hlength : s.context.rest.length = s.context.bytes.length - s.context.pos :=
            List.length_drop
          have hnew : s.sent ++ s.context.rest.take k = s.context.bytes ↔
              k = s.context.rest.length := by
            rw [hsent, HttpContext.rest, ← List.take_add, ← HttpContext.rest, List.take_eq_self_iff]
            have hle := hread.pos_le
            omega
          constructor
          · intro ht _ _ _ _
            exact hnew.mp (ht _ (List.mem_append_right _ (List.mem_singleton_self _)))
          · intro huncut e he
            have hne : s.context.rest ≠ [] := List.ne_nil_of_length_pos (by omega)
            rcases List.mem_append.mp he with hold | hlast'
            · exact hwhole e hold
            · obtain rfl := List.mem_singleton.mp hlast'
              exact hnew.mpr (huncut hkeep hlast hne hpos)

end HttpConnection

open HttpConnection

variable {Ω : Type}

/-- With responses of less than 2³¹ bytes, in every run: the wire is what was
sent of one response after the other, each the response to its own request and
sent from its start; nothing is sent before a request is there; and the branch of
`on_readable` that answers 411 is never taken. -/
theorem HttpConnection.answers_in_order (w : HttpEpollWatcher Ω) {acts : List (HttpAct Ω)}
    (hshort : w.system.EachStep Short start acts) :
    w.system.Always
      (fun s ↦ s.Sound w ∧ (s.armed = some .input → ∀ x,
        (s.context.req.parseRequest x).1 ≠ some parseLenRequired)) start acts := by
  have hsound : w.system.Always (Sound w) start acts :=
    always_of_eachStep (fun s a t h hs hstep ↦ h.step (step_of_sound h hs hstep))
      (Sound.start w) hshort
  refine hsound.mono fun s h ↦ ⟨h, fun harmed x ↦ ?_⟩
  rcases Request.parseRequest_answer (h.input harmed).2.2 x with
    hthrown | ⟨ret, hneg, hret⟩ | ⟨-, hmore | hzero⟩
  · simp [hthrown]
  · have hlen : ¬parseLenRequired < 0 := by decide
    rw [hret]
    rintro ⟨⟩
    exact hlen hneg
  · rw [hmore]
    decide
  · rw [hzero]
    decide

set_option maxRecDepth 10000 in
/-- A `POST` without `Content-Length` is not answered. -/
theorem HttpConnection.answers_in_order_unsized :
    let w : HttpEpollWatcher Unit := ⟨fun _ ↦ none⟩
    let x : Parsing :=
      ⟨⟨ascii "POST", 1, 1⟩, 28, [.url (ascii "/"), .headerField (ascii "Host"),
        .headerValue (ascii "h"), .headersComplete, .messageComplete], true, true⟩
    let acts : List (HttpAct Unit) := [.readable () (.got x)]
    w.system.Always (Sound w) start acts ∧
      ∃ t, w.system.exec start acts = some t ∧ t.armed = none ∧ t.wire = [] := by
  intro w x acts
  have hshort : w.system.EachStep Short start acts :=
    fun s hs ↦ ⟨by unfold Short; decide, trivial⟩
  refine ⟨(answers_in_order w hshort).mono fun s h ↦ h.1, ?_⟩
  exact ⟨_, rfl, by decide, rfl⟩

/-- With responses of less than 2³¹ bytes: along every run each response was sent
as a whole before the next request was read exactly as long as, on a connection
that is kept alive, `send` takes all that is left when less than one buffer is. -/
theorem HttpConnection.whole_iff (w : HttpEpollWatcher Ω) {acts : List (HttpAct Ω)}
    (hshort : w.system.EachStep Short start acts) :
    w.system.Always Whole start acts ↔ w.system.EachStep Uncut start acts := by
  refine always_iff_eachStep_of (I := fun s ↦ s.Sound w ∧ s.Whole) (fun s h ↦ h.2)
    (fun s a t h hs hstep ↦ ?_) ⟨Sound.start w, fun e he ↦ by cases he⟩ hshort
  have hkind := step_of_sound h.1 hs hstep
  have hiff := whole_step h.1 h.2 hkind
  exact ⟨hiff, fun huncut ↦ ⟨h.1.step hkind, hiff.mpr huncut⟩⟩

set_option maxRecDepth 10000 in
/-- Nothing is mapped, and of the answer `send` takes 20 bytes. -/
theorem HttpConnection.whole_iff_cut :
    let w : HttpEpollWatcher Unit := ⟨fun _ ↦ none⟩
    let x : Parsing :=
      ⟨⟨ascii "GET", 1, 1⟩, 42, [.url (ascii "/"), .headerField (ascii "Connection"),
        .headerValue (ascii "keep-alive"), .headersComplete, .messageComplete], true, true⟩
    let acts := [.readable () (.got x), .writeable (.took 20) false]
    ¬w.system.Always Whole start acts := by
  intro w x acts hwhole
  have hshort : w.system.EachStep Short start acts := by
    intro s hs
    refine ⟨by unfold Short; decide, ?_⟩
    obtain rfl := Option.some.inj hs
    intro t ht
    exact ⟨by unfold Short; decide, trivial⟩
  have huncut := (whole_iff w hshort).mp hwhole
  let s := start.settled (w.onReadable () start.context (.got x)).1
    (w.onReadable () start.context (.got x)).2
  have hs : w.system.step start (.readable () (.got x)) = some s := rfl
  have hsome : (w.system.step s (.writeable (.took 20) false)).isSome = true := by decide
  obtain ⟨t, ht⟩ := Option.isSome_iff_exists.mp hsome
  have hlast := ((huncut s hs).2 t ht).1 (by decide) (by decide) (by decide) (by decide)
  have hne : 20 ≠ s.context.rest.length := by decide
  exact hne hlast

end SimpleFlow
