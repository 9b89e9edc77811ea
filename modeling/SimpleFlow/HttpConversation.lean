import SimpleFlow.HttpConnection
import SimpleFlow.RequestFields

/-!
# A conversation over one connection

A client sends one request after the other, each once it has read the response to
the one before, in whatever reads they come and in whatever parts `send` takes
the responses. The wire is then the concatenation of the responses.
-/

namespace SimpleFlow

open LabelledSystem HttpConnection

/-! ## One request -/

namespace HttpConnection

variable {Ω : Type} (w : HttpEpollWatcher Ω) {s : HttpConnection}

/-- The pool thread calls `on_readable` for each of the reads. -/
def readActs (ω : Ω) (reads : List Parsing) : List (HttpAct Ω) :=
  reads.map fun x ↦ .readable ω (.got x)

theorem step_more {ω : Ω} {x : Parsing} {u : Request} (harmed : s.armed = some .input)
    (hx : s.context.req.parseRequest x = (some needMoreStatus, u)) :
    w.system.step s (.readable ω (.got x)) = some { s with context := ⟨u, s.context.res⟩ } := by
  have hread : w.onReadable ω s.context (.got x) = (some readContinue, ⟨u, s.context.res⟩) := by
    simp only [HttpEpollWatcher.onReadable, hx]
    rfl
  show w.step s (.readable ω (.got x)) = _
  rw [HttpEpollWatcher.step, if_pos harmed, hread, settled, ← harmed]
  rfl

theorem step_ready {ω : Ω} {x : Parsing} {u : Request} (harmed : s.armed = some .input)
    (hres : s.context.res = .new) (hx : s.context.req.parseRequest x = (some 0, u)) :
    w.system.step s (.readable ω (.got x)) =
      some { s with context := w.handled ω u, armed := some .output } := by
  have hread : w.onReadable ω s.context (.got x) = (some readOver, w.handled ω u) := by
    simp only [HttpEpollWatcher.onReadable, hx, hres]
    rfl
  show w.step s (.readable ω (.got x)) = _
  rw [HttpEpollWatcher.step, if_pos harmed, hread, settled]
  rfl

theorem exec_reads {ω : Ω} {reads : List Parsing} {u : Request}
    (harmed : s.armed = some .input) (hres : s.context.res = .new)
    (hreads : s.context.req.parseReads reads = (some 0, u))
    (hmore : ∀ done rest, reads = done ++ rest → rest ≠ [] →
      (s.context.req.parseReads done).1 = some needMoreStatus) :
    w.system.exec s (readActs ω reads) =
      some { s with context := w.handled ω u, armed := some .output } := by
  induction reads generalizing s with
  | nil => cases hreads
  | cons x reads ih =>
      rcases hx : s.context.req.parseRequest x with ⟨answer, v⟩
      have htail : ∀ done rest, reads = done ++ rest → rest ≠ [] →
          (s.context.req.parseReads (x :: done)).1 = some needMoreStatus :=
        fun done rest heq hne ↦ hmore (x :: done) rest (by rw [heq, List.cons_append]) hne
      simp only [Request.parseReads, hx] at hreads htail
      rw [readActs, List.map_cons, exec_cons]
      by_cases hanswer : answer = some needMoreStatus
      · simp only [if_pos hanswer] at hreads htail
        rw [step_more w harmed (by rw [hx, hanswer]), Option.bind_some]
        exact ih (s := { s with context := ⟨v, s.context.res⟩ }) harmed hres hreads htail
      · simp only [if_neg hanswer] at hreads htail
        have hnil : reads = [] := by
          by_contra hne
          exact hanswer (htail [] reads rfl hne)
        rw [step_ready w harmed hres (hx.trans hreads), Option.bind_some, hnil]
        rfl

/-- `send` takes `ks` of a response of which `length` bytes are left: of each
whole buffer any part, and all of the last one. -/
def Takes : (length : ℕ) → List ℕ → Prop
  | _, [] => False
  | length, [k] => k = length ∧ 0 < k ∧ k < ssWriteBufferSize
  | length, k :: ks => ssWriteBufferSize ≤ length ∧ k ≤ ssWriteBufferSize ∧ Takes (length - k) ks

/-- The event loop calls `on_writeable`, and `send` takes `ks`. -/
def writeActs (ks : List ℕ) : List (HttpAct Ω) := ks.map fun k ↦ .writeable (.took k) false

theorem step_part {k : ℕ} (harmed : s.armed = some .output) (hread : s.context.Readable)
    (hstr : s.context.bytes.length < 2147483648)
    (hmore : ssWriteBufferSize ≤ s.context.rest.length) (hk : k ≤ ssWriteBufferSize) :
    w.system.step s (.writeable (.took k) false) =
      some
        { s with
          context := s.context.sent k
          wire := s.wire ++ s.context.rest.take k
          sent := s.sent ++ s.context.rest.take k } := by
  show w.step s (.writeable (.took k) false) = _
  rw [HttpEpollWatcher.step, if_pos harmed,
    HttpEpollWatcher.onWriteable_part hread hstr hmore hk, Option.map_some, wrote, ← harmed]

theorem step_last (harmed : s.armed = some .output) (hread : s.context.Readable)
    (hkeep : s.context.isKeepalive = true) (hpos : 0 < s.context.rest.length)
    (hlast : s.context.rest.length < ssWriteBufferSize) :
    w.system.step s (.writeable (.took s.context.rest.length) false) =
      some
        { context := .new
          armed := some .input
          wire := s.wire ++ s.context.rest
          exchanges := s.exchanges ++ [⟨s.context.req, s.context.bytes, s.sent ++ s.context.rest⟩]
          sent := [] } := by
  have hne := List.ne_nil_of_length_pos hpos
  obtain ⟨u, -, hwrite⟩ :=
    HttpEpollWatcher.onWriteable_last hread hne hlast (Nat.le_refl s.context.rest.length)
  show w.step s (.writeable (.took s.context.rest.length) false) = _
  rw [HttpEpollWatcher.step, if_pos harmed, hwrite, if_pos ⟨hkeep, hpos⟩, Option.map_some, wrote,
    List.take_length]
  rfl

theorem exec_writes {ks : List ℕ} (harmed : s.armed = some .output)
    (hread : s.context.Readable) (hstr : s.context.bytes.length < 2147483648)
    (hkeep : s.context.isKeepalive = true) (hks : Takes s.context.rest.length ks) :
    w.system.exec s (writeActs ks) =
      some
        { context := .new
          armed := some .input
          wire := s.wire ++ s.context.rest
          exchanges := s.exchanges ++ [⟨s.context.req, s.context.bytes, s.sent ++ s.context.rest⟩]
          sent := [] } := by
  induction ks generalizing s with
  | nil => exact hks.elim
  | cons k ks ih =>
      rw [writeActs, List.map_cons, exec_cons]
      cases ks with
      | nil =>
          obtain ⟨rfl, hpos, hlast⟩ := hks
          rw [step_last w harmed hread hkeep hpos hlast]
          rfl
      | cons k' ks =>
          obtain ⟨hmore, hk, hrest⟩ := hks
          let t : HttpConnection :=
            { s with
              context := s.context.sent k
              wire := s.wire ++ s.context.rest.take k
              sent := s.sent ++ s.context.rest.take k }
          have hread' : t.context.Readable := .sent (Nat.le_trans hk hmore) hread.pos_le
          have hbytes : t.context.bytes = s.context.bytes := HttpContext.sent_bytes k
          have hrest' : t.context.rest = s.context.rest.drop k := HttpContext.sent_rest k
          have hks' : Takes t.context.rest.length (k' :: ks) := by
            rwa [hrest', List.length_drop]
          have hexec := ih (s := t) harmed hread' (by rwa [hbytes]) hkeep hks'
          rw [step_part w harmed hread hstr hmore hk, Option.bind_some]
          apply hexec.trans
          rw [hrest', hbytes]
          simp only [t, List.append_assoc, List.take_append_drop]
          rfl

end HttpConnection

/-! ## The whole conversation -/

/-- A request of the client: the message, the reads in which it comes, what the
handler's answer depends on, and what `send` takes of the response. -/
structure Visit (Ω : Type) where
  message : HttpMessage
  reads : ReadsOf message
  ω : Ω
  ks : List ℕ

namespace Visit

variable {Ω : Type} (w : HttpEpollWatcher Ω) (v : Visit Ω)

/-- The request that the handler gets. -/
def request : Request := v.message.outcome.2.resize (Request.totalSize v.reads.reads)

def response : Bytes := w.response v.ω v.request

def acts : List (HttpAct Ω) := readActs v.ω v.reads.reads ++ writeActs v.ks

/-- The message is complete and asks to be kept alive, and the response has less
than 2³¹ bytes. -/
structure Asked : Prop where
  ok : v.message.outcome.1 = none
  keepalive : HttpContext.strcasecmpEq (v.message.header (ascii "Connection"))
    (ascii "keep-alive") = true
  short : (response w v).length < 2147483648

/-- And `send` takes all of the response. -/
structure Served : Prop extends Asked w v where
  takes : Takes (response w v).length v.ks

variable {w v}

theorem Asked.isKeepalive (h : v.Asked w) (res : Response) :
    HttpContext.isKeepalive ⟨v.request, res⟩ = true := by
  have hheader : v.request.getHeader (ascii "Connection") =
      v.message.header (ascii "Connection") :=
    (v.message.describes_of_ok h.ok).header _
  rw [HttpContext.isKeepalive, hheader]
  exact h.keepalive

/-- The request is there, and nothing of the response is sent. -/
def answering (w : HttpEpollWatcher Ω) (v : Visit Ω) (s : HttpConnection) : HttpConnection :=
  { s with context := w.handled v.ω v.request, armed := some .output }

theorem Asked.exec (h : v.Asked w) {s : HttpConnection} (harmed : s.armed = some .input)
    (hcontext : s.context = .new) :
    w.system.exec s (readActs v.ω v.reads.reads) = some (v.answering w s) := by
  obtain ⟨hreads, hmore⟩ := v.reads.parseReads_of_ok h.ok
  apply exec_reads w harmed
  · rw [hcontext]
    rfl
  · rw [hcontext]
    exact hreads
  · rw [hcontext]
    exact hmore

theorem answering_readable (s : HttpConnection) : (v.answering w s).context.Readable :=
  .of_new rfl rfl

theorem Served.exec (h : v.Served w) {s : HttpConnection} (harmed : s.armed = some .input)
    (hcontext : s.context = .new) :
    ∃ t, w.system.exec s v.acts = some t ∧ t.armed = some .input ∧ t.context = .new ∧
      t.wire = s.wire ++ response w v := by
  have hwrite := exec_writes w (s := v.answering w s) rfl (answering_readable s) h.short
    (h.isKeepalive _) h.takes
  refine ⟨_, Eq.trans ?_ hwrite, rfl, rfl, rfl⟩
  rw [acts, exec_append, h.toAsked.exec harmed hcontext, Option.bind_some]

end Visit

theorem exec_visits {Ω : Type} (w : HttpEpollWatcher Ω) {visits : List (Visit Ω)}
    (hserved : ∀ v ∈ visits, v.Served w) {s : HttpConnection} (harmed : s.armed = some .input)
    (hcontext : s.context = .new) :
    ∃ t, w.system.exec s (visits.flatMap Visit.acts) = some t ∧ t.armed = some .input ∧
      t.wire = s.wire ++ visits.flatMap (Visit.response w) := by
  induction visits generalizing s with
  | nil => exact ⟨s, rfl, harmed, by simp⟩
  | cons v visits ih =>
      obtain ⟨u, hu, huarmed, hucontext, huwire⟩ :=
        (hserved v List.mem_cons_self).exec harmed hcontext
      obtain ⟨t, ht, htarmed, htwire⟩ :=
        ih (fun x hx ↦ hserved x (List.mem_cons_of_mem v hx)) huarmed hucontext
      refine ⟨t, ?_, htarmed, ?_⟩
      · rw [List.flatMap_cons, exec_append, hu, Option.bind_some, ht]
      · rw [htwire, huwire, List.flatMap_cons, List.append_assoc]

/-! ## A response of whole buffers -/

namespace HttpConnection

variable {Ω : Type} (w : HttpEpollWatcher Ω) {s : HttpConnection}

theorem step_nothing_left (k : ℕ) (harmed : s.armed = some .output) (hread : s.context.Readable)
    (hnil : s.context.rest = []) :
    ∃ t, w.system.step s (.writeable (.took k) false) = some t ∧ t.armed = none ∧
      t.wire = s.wire := by
  obtain ⟨u, -, hwrite⟩ := HttpEpollWatcher.onWriteable_nil (.took k) hread hnil
  refine ⟨s.wrote .close u [] false, ?_, rfl, List.append_nil _⟩
  show w.step s (.writeable (.took k) false) = _
  rw [HttpEpollWatcher.step, if_pos harmed, hwrite, Option.map_some]

/-- `send` takes all it is given. -/
theorem exec_full {q r : ℕ} (harmed : s.armed = some .output) (hread : s.context.Readable)
    (hstr : s.context.bytes.length < 2147483648) (hkeep : s.context.isKeepalive = true)
    (hlength : s.context.rest.length = ssWriteBufferSize * q + r) (hr : r < ssWriteBufferSize) :
    ∃ t, w.system.exec s (writeActs (List.replicate q ssWriteBufferSize ++ [r])) = some t ∧
      t.wire = s.wire ++ s.context.rest ∧ t.armed = if r = 0 then none else some .input := by
  induction q generalizing s with
  | zero =>
      rw [Nat.mul_zero, Nat.zero_add] at hlength
      by_cases hzero : r = 0
      · have hnil : s.context.rest = [] := List.eq_nil_of_length_eq_zero (hlength.trans hzero)
        obtain ⟨t, ht, htarmed, htwire⟩ := step_nothing_left w r harmed hread hnil
        refine ⟨t, ?_, ?_, by simp [htarmed, hzero]⟩
        · rw [List.replicate_zero, List.nil_append, writeActs, List.map_singleton, exec_cons, ht]
          rfl
        · rw [htwire, hnil, List.append_nil]
      · have hlast := step_last w harmed hread hkeep (by omega) (hlength ▸ hr)
        rw [hlength] at hlast
        refine ⟨_, Eq.trans ?_ hlast, rfl, by simp [hzero]⟩
        rw [List.replicate_zero, List.nil_append, writeActs, List.map_singleton, exec_cons, hlast]
        rfl
  | succ q ih =>
      have hmore : ssWriteBufferSize ≤ s.context.rest.length := by
        rw [hlength, Nat.mul_succ]
        omega
      let t : HttpConnection :=
        { s with
          context := s.context.sent ssWriteBufferSize
          wire := s.wire ++ s.context.rest.take ssWriteBufferSize
          sent := s.sent ++ s.context.rest.take ssWriteBufferSize }
      have hread' : t.context.Readable := .sent hmore hread.pos_le
      have hbytes : t.context.bytes = s.context.bytes := HttpContext.sent_bytes _
      have hrest : t.context.rest = s.context.rest.drop ssWriteBufferSize :=
        HttpContext.sent_rest _
      have hlength' : t.context.rest.length = ssWriteBufferSize * q + r := by
        rw [hrest, List.length_drop, hlength, Nat.mul_succ]
        omega
      obtain ⟨u, hu, huwire, huarmed⟩ :=
        ih (s := t) harmed hread' (by rwa [hbytes]) hkeep hlength'
      refine ⟨u, ?_, ?_, huarmed⟩
      · rw [List.replicate_succ, List.cons_append, writeActs, List.map_cons, exec_cons,
          step_part w harmed hread hstr hmore (Nat.le_refl _)]
        exact hu
      · rw [huwire, hrest]
        simp only [t, List.append_assoc, List.take_append_drop]

end HttpConnection

end SimpleFlow
