import SimpleFlow.RequestPieces
import Mathlib.Algebra.GroupWithZero.Nat

/-!
# A request that comes in several reads

`parse_request` answers `NEED_MORE_STATUS` until the message is complete. The
reads then leave the request that the message leaves in one piece, and only
`_total_req_size` tells them apart.
-/

namespace SimpleFlow

theorem MultipartSettings.deliver_map {σ : Type} {settings : MultipartSettings σ} {f : σ → σ}
    (hf : ∀ s call, settings.on (f s) call =
      ((settings.on s call).1, f (settings.on s call).2)) (calls : List MultipartCall) (s : σ) :
    settings.deliver calls (f s) =
      ((settings.deliver calls s).1, f (settings.deliver calls s).2) := by
  induction calls generalizing s with
  | nil => rfl
  | cons call calls ih =>
      simp only [deliver, hf]
      split
      · exact ih _
      · rfl

theorem MultipartSettings.executeFrom_map {σ : Type} {settings : MultipartSettings σ} {f : σ → σ}
    (hf : ∀ s call, settings.on (f s) call = ((settings.on s call).1, f (settings.on s call).2))
    (boundary buf cs : Bytes) (i : ℕ) (p : MultipartParser) (s : σ) :
    settings.executeFrom boundary buf i cs p (f s) =
      ((settings.executeFrom boundary buf i cs p s).1,
        f (settings.executeFrom boundary buf i cs p s).2) := by
  induction cs generalizing i p s with
  | nil => rfl
  | cons c cs ih =>
      simp only [executeFrom, deliver_map hf]
      split
      · cases (p.turn boundary buf i c).2 with
        | none => rfl
        | some q => exact ih (i + 1) q _
      · rfl

theorem MultipartSettings.executeFrom_frame {σ α : Type} {settings : MultipartSettings σ}
    {f : σ → α} (hf : ∀ s call, f (settings.on s call).2 = f s)
    (boundary buf cs : Bytes) (i : ℕ) (p : MultipartParser) (s : σ) :
    f (settings.executeFrom boundary buf i cs p s).2 = f s := by
  have hdeliver : ∀ (calls : List MultipartCall) (s : σ), f (settings.deliver calls s).2 = f s := by
    intro calls
    induction calls with
    | nil => exact fun s ↦ rfl
    | cons call calls ih =>
        intro s
        simp only [deliver]
        split
        · exact (ih _).trans (hf s call)
        · exact hf s call
  induction cs generalizing i p s with
  | nil => rfl
  | cons c cs ih =>
      simp only [executeFrom]
      split
      · cases (p.turn boundary buf i c).2 with
        | none => exact hdeliver _ s
        | some q => exact (ih (i + 1) q _).trans (hdeliver _ s)
      · exact hdeliver _ s

/-- A callback before the end of the message fails. -/
def Stop.Early (stop : Stop) : Prop := ∃ call ≠ .messageComplete, stop = .failed call

namespace Request

variable {p : HttpParser} {req u : Request} {calls calls' : List ParserCallback} {n : ℕ}

/-- The request with another `_total_req_size`. -/
def resize (n : ℕ) (req : Request) : Request := { req with totalReqSize := n }

theorem onLastItem_resize (whenEmpty : Int) (f : FileItem → Answer × FileItem) :
    (req.resize n).onLastItem whenEmpty f =
      ((req.onLastItem whenEmpty f).1, (req.onLastItem whenEmpty f).2.resize n) := by
  simp only [onLastItem, resize]
  cases req.body.fileItems.getLast? <;> rfl

theorem mpSettings_resize (req : Request) (call : MultipartCall) :
    mpSettings.on (req.resize n) call =
      ((mpSettings.on req call).1, (mpSettings.on req call).2.resize n) := by
  cases call with
  | headerField bytes =>
      simp only [mpSettings, ssOnMultipartName, onLastItem_resize]
      split
      · rfl
      · split <;> rfl
  | headerValue bytes => exact onLastItem_resize _ _
  | partData bytes =>
      simp only [mpSettings, ssOnMultipartData, onLastItem_resize]
      split <;> rfl
  | partDataEnd => exact onLastItem_resize _ _
  | partDataBegin | headersComplete | bodyEnd => rfl

theorem ssParseMultipartData_resize (req : Request) :
    (req.resize n).ssParseMultipartData =
      (req.ssParseMultipartData.1, req.ssParseMultipartData.2.resize n) := by
  have hrun : ∀ boundary, mpSettings.execute boundary req.body.rawString (req.resize n) =
      ((mpSettings.execute boundary req.body.rawString req).1,
        (mpSettings.execute boundary req.body.rawString req).2.resize n) := fun boundary ↦
    MultipartSettings.executeFrom_map mpSettings_resize _ _ _ _ _ _
  have hraw : (req.resize n).body.rawString = req.body.rawString := rfl
  have hheader : ∀ name, (req.resize n).getHeader name = req.getHeader name := fun _ ↦ rfl
  simp only [ssParseMultipartData, hraw, hheader, hrun]
  split
  · rfl
  · split
    · split <;> rfl
    · rfl

theorem foldl_addHeader_resize (headers : List (Bytes × Bytes)) (req : Request) :
    headers.foldl (fun r h ↦ r.addHeader h.1 h.2) (req.resize n) =
      (headers.foldl (fun r h ↦ r.addHeader h.1 h.2) req).resize n := by
  induction headers generalizing req with
  | nil => rfl
  | cons h headers ih => exact ih (req.addHeader h.1 h.2)

theorem settings_resize (req : Request) (call : ParserCallback) :
    (req.resize n).settings p call =
      ((req.settings p call).1, (req.settings p call).2.resize n) := by
  cases call with
  | url bytes | body bytes => rfl
  | headerField bytes =>
      simp only [settings, ssOnHeaderField, resize]
      by_cases hpart : req.parsePart = .reqLine
      · by_cases hlast : req.lastWasValue = true <;> simp [hpart, lineOver, hlast]
      · by_cases hlast : req.lastWasValue = true <;> simp [hpart, hlast]
  | headerValue bytes =>
      simp only [settings, ssOnHeaderValue, resize]
      by_cases hlast : req.lastWasValue = false <;> simp [hlast]
  | headersComplete =>
      have hfields : (req.resize n).headerFields = req.headerFields := rfl
      have hvalues : (req.resize n).headerValues = req.headerValues := rfl
      simp only [settings, ssOnHeadersComplete, hfields, hvalues, foldl_addHeader_resize]
      by_cases hlength : req.headerFields.length ≠ req.headerValues.length
      · simp only [if_pos hlength]
      · simp only [if_neg hlength, resize, getHeader]
        generalize (req.headerFields.zip req.headerValues).foldl
          (fun r h ↦ r.addHeader h.1 h.2) req = v
        by_cases hpost : v.line.method = ascii "POST" ∧
            v.headers (ssStrTolower (ascii "Content-Length")) = []
        · simp [hpost]
        · simp [hpost]
  | messageComplete =>
      have hform : (req.resize n).formParams = req.formParams.resize n := by
        simp only [formParams, resize, getHeader]
        by_cases hurl : req.headers (ssStrTolower (ascii "Content-Type")) =
            ascii "application/x-www-form-urlencoded" ∧ req.body.rawString ≠ []
        · simp [hurl]
        · simp [hurl]
      have hheader : (req.resize n).getHeader (ascii "Content-Type") =
          req.getHeader (ascii "Content-Type") := rfl
      simp only [settings, ssOnMessageComplete, hform, hheader, ssParseMultipartData_resize]
      split
      · cases req.formParams.ssParseMultipartData.1 <;> rfl
      · rfl

theorem execute_resize (calls : List ParserCallback) (req : Request) :
    execute p calls (req.resize n) =
      ((execute p calls req).1, (execute p calls req).2.resize n) := by
  induction calls generalizing req with
  | nil => rfl
  | cons call calls ih =>
      simp only [execute, settings_resize]
      split
      · rfl
      · exact ih _

/-! ## Before the message is complete -/

theorem foldl_addHeader_frame (headers : List (Bytes × Bytes)) (req : Request) :
    (headers.foldl (fun r h ↦ r.addHeader h.1 h.2) req).parseErr = req.parseErr ∧
      (headers.foldl (fun r h ↦ r.addHeader h.1 h.2) req).line = req.line ∧
      (headers.foldl (fun r h ↦ r.addHeader h.1 h.2) req).body = req.body := by
  induction headers generalizing req with
  | nil => exact ⟨rfl, rfl, rfl⟩
  | cons h headers ih => exact ih (req.addHeader h.1 h.2)

/-- A callback that answers 0 and is not the last one leaves the request
unfinished and without an error. -/
theorem settings_unfinished {call : ParserCallback} (h : req.settings p call = (some 0, u))
    (hcall : call ≠ .messageComplete) (hpart : req.parsePart ≠ .reqOver) :
    u.parsePart ≠ .reqOver ∧ u.parseErr = req.parseErr := by
  cases call with
  | url bytes =>
      simp only [settings, ssOnUrl, Prod.mk.injEq, true_and] at h
      subst h
      exact ⟨hpart, rfl⟩
  | body bytes =>
      simp only [settings, ssOnBody, Prod.mk.injEq, true_and] at h
      subst h
      exact ⟨by simp, rfl⟩
  | headerField bytes =>
      have hline : (if req.parsePart = .reqLine then req.lineOver p else req).parsePart ≠
          .reqOver ∧ (if req.parsePart = .reqLine then req.lineOver p else req).parseErr =
          req.parseErr := by
        split
        · exact ⟨by simp [lineOver], rfl⟩
        · exact ⟨hpart, rfl⟩
      simp only [settings, ssOnHeaderField] at h
      generalize (if req.parsePart = .reqLine then req.lineOver p else req) = v at h hline
      by_cases hlast : v.lastWasValue = true <;> simp [hlast] at h <;> subst h <;> exact hline
  | headerValue bytes =>
      simp only [settings, ssOnHeaderValue] at h
      by_cases hlast : req.lastWasValue = false <;> simp [hlast] at h <;> subst h <;>
        exact ⟨hpart, rfl⟩
  | headersComplete =>
      simp only [settings, ssOnHeadersComplete] at h
      split at h
      · simp at h
      · split at h
        · simp at h
        · simp only [Prod.mk.injEq, true_and] at h
          subst h
          exact ⟨by simp, (foldl_addHeader_frame _ _).1⟩
  | messageComplete => exact absurd rfl hcall

theorem execute_unfinished (h : execute p calls req = (none, u))
    (hcalls : .messageComplete ∉ calls) (hpart : req.parsePart ≠ .reqOver) :
    u.parsePart ≠ .reqOver ∧ u.parseErr = req.parseErr := by
  induction calls generalizing req with
  | nil =>
      obtain rfl : req = u := congrArg Prod.snd h
      exact ⟨hpart, rfl⟩
  | cons call calls ih =>
      simp only [execute] at h
      split at h
      · simp at h
      · rename_i hzero
        have hcall : req.settings p call = (some 0, (req.settings p call).2) := by
          rw [← not_not.mp hzero]
        obtain ⟨hpart', herr⟩ :=
          settings_unfinished hcall (fun heq ↦ hcalls (heq ▸ List.mem_cons_self)) hpart
        obtain ⟨hend, herr'⟩ := ih h (fun hmem ↦ hcalls (List.mem_cons_of_mem _ hmem)) hpart'
        exact ⟨hend, herr'.trans herr⟩

theorem execute_left_of_none (h : (execute p (calls ++ calls') req).1 = none) :
    (execute p calls req).1 = none := by
  cases hfailed : (execute p calls req).1 with
  | none => rfl
  | some stop => rw [execute_append_of_failed hfailed, hfailed] at h; exact h

/-! ## The reads -/

/-- One read after another, until one is answered otherwise than with
`NEED_MORE_STATUS`: that answer and the request. -/
def parseReads : Request → List Parsing → Answer × Request
  | req, [] => (some needMoreStatus, req)
  | req, x :: xs =>
      if (req.parseRequest x).1 = some needMoreStatus then parseReads (req.parseRequest x).2 xs
      else req.parseRequest x

/-- The bytes of some reads. -/
def totalSize (reads : List Parsing) : ℕ := (reads.map Parsing.size).sum

theorem parseReads_append {reads reads' : List Parsing}
    (h : req.parseReads reads = (some needMoreStatus, u)) :
    req.parseReads (reads ++ reads') = u.parseReads reads' := by
  induction reads generalizing req with
  | nil =>
      obtain rfl : req = u := congrArg Prod.snd h
      rfl
  | cons x reads ih =>
      simp only [List.cons_append, parseReads] at h ⊢
      split at h
      · rename_i hmore
        rw [if_pos hmore]
        exact ih h
      · rename_i hmore
        exact absurd (congrArg Prod.fst h) hmore

theorem parseReads_left {reads : List Parsing} (reads' : List Parsing)
    (h : (req.parseReads (reads ++ reads')).1 = some needMoreStatus) :
    (req.parseReads reads).1 = some needMoreStatus := by
  induction reads generalizing req with
  | nil => rfl
  | cons x reads ih =>
      simp only [List.cons_append, parseReads] at h ⊢
      split
      · rename_i hmore
        rw [if_pos hmore] at h
        exact ih h
      · rename_i hmore
        rwa [if_neg hmore] at h

theorem parseReads_append_of_ne {reads : List Parsing} (reads' : List Parsing)
    (h : (req.parseReads reads).1 ≠ some needMoreStatus) :
    req.parseReads (reads ++ reads') = req.parseReads reads := by
  induction reads generalizing req with
  | nil => exact absurd rfl h
  | cons x reads ih =>
      simp only [List.cons_append, parseReads] at h ⊢
      split
      · rename_i hmore
        rw [if_pos hmore] at h
        exact ih h
      · rfl

theorem parseReads_singleton (x : Parsing) : req.parseReads [x] = req.parseRequest x := by
  simp only [parseReads]
  split
  · rename_i hmore
    exact Prod.ext hmore.symm rfl
  · rfl

theorem parseRequest_eq (req : Request) (x : Parsing) :
    req.parseRequest x =
      let result := execute x.parser x.callbacks (req.resize (req.totalReqSize + x.size))
      if maxReqSize < req.totalReqSize + x.size then
        (some (-1), req.resize (req.totalReqSize + x.size))
      else if result.1 = some .thrown then (none, result.2)
      else if x.tookAll result.1 = false then (some (-1), result.2)
      else if result.2.parseErr ≠ 0 then (some result.2.parseErr, result.2)
      else if result.2.parsePart ≠ .reqOver then (some needMoreStatus, result.2)
      else (some 0, result.2) :=
  rfl

theorem execute_resize_of_eq {failed : Option Stop} (n : ℕ)
    (hrun : execute p calls req = (failed, u)) :
    execute p calls (req.resize n) = (failed, u.resize n) := by
  rw [execute_resize, hrun]

theorem parseRequest_unfinished {x : Parsing} (hcomplete : x.complete = true)
    (hsize : req.totalReqSize + x.size ≤ maxReqSize)
    (hrun : execute x.parser x.callbacks req = (none, u)) (hcalls : .messageComplete ∉ x.callbacks)
    (hpart : req.parsePart ≠ .reqOver) (herr : req.parseErr = 0) :
    req.parseRequest x = (some needMoreStatus, u.resize (req.totalReqSize + x.size)) := by
  obtain ⟨hpart', herr'⟩ := execute_unfinished hrun hcalls hpart
  rw [parseRequest_eq, if_neg (Nat.not_lt.mpr hsize), execute_resize_of_eq _ hrun]
  simp [Parsing.tookAll, resize, hcomplete, herr', herr, hpart']

/-- Only the end of the message can be left by an exception. -/
theorem settings_ne_none {call : ParserCallback} (hcall : call ≠ .messageComplete) :
    (req.settings p call).1 ≠ none := by
  cases call with
  | messageComplete => exact absurd rfl hcall
  | url bytes | body bytes => simp [settings, ssOnUrl, ssOnBody]
  | headerField bytes =>
      simp only [settings, ssOnHeaderField]
      split <;> split <;> simp
  | headerValue bytes =>
      simp only [settings, ssOnHeaderValue]
      split <;> simp
  | headersComplete =>
      simp only [settings, ssOnHeadersComplete]
      split
      · simp
      · split <;> simp

theorem early_of_execute {stop : Stop} (h : (execute p calls req).1 = some stop)
    (hcalls : .messageComplete ∉ calls) : stop.Early := by
  induction calls generalizing req with
  | nil => cases h
  | cons call calls ih =>
      simp only [execute] at h
      split at h
      · have hcall : call ≠ .messageComplete := fun heq ↦ hcalls (heq ▸ List.mem_cons_self)
        have hanswers : (req.settings p call).1 ≠ none := settings_ne_none hcall
        obtain ⟨ret, hret⟩ := Option.ne_none_iff_exists'.mp hanswers
        rw [hret] at h
        exact ⟨call, hcall, (Option.some.inj h).symm⟩
      · exact ih h fun hmem ↦ hcalls (List.mem_cons_of_mem call hmem)

/-- A callback before the end of the message fails: whatever it has noted in
`_parse_err`, the parser has not taken all bytes. -/
theorem parseRequest_failed {x : Parsing} {stop : Stop}
    (hrun : execute x.parser x.callbacks req = (some stop, u)) (hearly : stop.Early) :
    (req.parseRequest x).1 = some (-1) := by
  obtain ⟨call, hcall, rfl⟩ := hearly
  have htook : x.tookAll (some (.failed call)) = false := by
    cases call with
    | messageComplete => exact absurd rfl hcall
    | url _ | headerField _ | headerValue _ | headersComplete | body _ => rfl
  rw [parseRequest_eq, execute_resize_of_eq _ hrun]
  simp only [htook, Option.some.injEq, reduceCtorEq, if_true, if_false]
  split <;> rfl

/-- Reads that do not end the message. -/
theorem parseReads_unfinished {reads : List Parsing}
    (hreads : ∀ x ∈ reads, x.parser = p ∧ x.complete = true)
    (hsize : req.totalReqSize + totalSize reads ≤ maxReqSize)
    (hrun : execute p (reads.flatMap Parsing.callbacks) req = (none, u))
    (hcalls : .messageComplete ∉ reads.flatMap Parsing.callbacks)
    (hpart : req.parsePart ≠ .reqOver) (herr : req.parseErr = 0) :
    req.parseReads reads =
      (some needMoreStatus, u.resize (req.totalReqSize + totalSize reads)) := by
  induction reads generalizing req u with
  | nil =>
      obtain rfl : req = u := congrArg Prod.snd hrun
      rfl
  | cons x reads ih =>
      obtain ⟨hparser, hcomplete⟩ := hreads x List.mem_cons_self
      simp only [totalSize, List.map_cons, List.sum_cons] at hsize
      rw [List.flatMap_cons] at hrun hcalls
      have hnot : .messageComplete ∉ x.callbacks := fun hmem ↦ hcalls (List.mem_append_left _ hmem)
      have hnone := execute_left_of_none (by rw [hrun])
      have hfirst : execute x.parser x.callbacks req = (none, (execute p x.callbacks req).2) := by
        rw [hparser, ← hnone]
      have hparse := parseRequest_unfinished hcomplete (by omega) hfirst hnot hpart herr
      obtain ⟨hpart', herr'⟩ := execute_unfinished hfirst hnot hpart
      rw [execute_append hnone] at hrun
      have hrest := ih (fun y hy ↦ hreads y (List.mem_cons_of_mem x hy))
        (by simp only [resize, totalSize]; omega)
        (execute_resize_of_eq (req.totalReqSize + x.size) hrun)
        (fun hmem ↦ hcalls (List.mem_append_right _ hmem)) hpart' (herr'.trans herr)
      rw [parseReads, hparse, if_pos rfl, hrest]
      simp [resize, totalSize, Nat.add_assoc]

/-- Reads in which a callback before the end of the message fails. -/
theorem parseReads_failed {reads : List Parsing} {stop : Stop}
    (hreads : ∀ x ∈ reads, x.parser = p ∧ x.complete = true)
    (hsize : req.totalReqSize + totalSize reads ≤ maxReqSize)
    (hrun : execute p (reads.flatMap Parsing.callbacks) req = (some stop, u))
    (hcalls : .messageComplete ∉ reads.flatMap Parsing.callbacks)
    (hpart : req.parsePart ≠ .reqOver) (herr : req.parseErr = 0) :
    (req.parseReads reads).1 = some (-1) := by
  induction reads generalizing req u with
  | nil => cases hrun
  | cons x reads ih =>
      obtain ⟨hparser, hcomplete⟩ := hreads x List.mem_cons_self
      simp only [totalSize, List.map_cons, List.sum_cons] at hsize
      rw [List.flatMap_cons] at hrun hcalls
      have hnot : .messageComplete ∉ x.callbacks := fun hmem ↦ hcalls (List.mem_append_left _ hmem)
      cases hfailed : (execute p x.callbacks req).1 with
      | some stop' =>
          have hfirst : execute x.parser x.callbacks req =
              (some stop', (execute p x.callbacks req).2) := by
            rw [hparser, ← hfailed]
          have hanswer := parseRequest_failed hfirst (early_of_execute hfailed hnot)
          rw [parseReads, hanswer, if_neg (by decide), hanswer]
      | none =>
          have hfirst : execute x.parser x.callbacks req =
              (none, (execute p x.callbacks req).2) := by
            rw [hparser, ← hfailed]
          have hparse := parseRequest_unfinished hcomplete (by omega) hfirst hnot hpart herr
          obtain ⟨hpart', herr'⟩ := execute_unfinished hfirst hnot hpart
          rw [execute_append hfailed] at hrun
          rw [parseReads, hparse, if_pos rfl]
          exact ih (fun y hy ↦ hreads y (List.mem_cons_of_mem x hy))
            (by simp only [resize, totalSize]; omega)
            (execute_resize_of_eq (req.totalReqSize + x.size) hrun)
            (fun hmem ↦ hcalls (List.mem_append_right _ hmem)) hpart' (herr'.trans herr)

/-! ## The end of the message -/

/-- What the callbacks of the multipart parser leave alone. -/
def kept (req : Request) : RequestLine × (Bytes → Bytes) × Bytes × Int :=
  (req.line, req.headers, req.body.rawString, req.parseErr)

theorem onLastItem_kept (whenEmpty : Int) (f : FileItem → Answer × FileItem) :
    (req.onLastItem whenEmpty f).2.kept = req.kept := by
  simp only [onLastItem]
  split <;> rfl

theorem mpSettings_kept (req : Request) (call : MultipartCall) :
    (mpSettings.on req call).2.kept = req.kept := by
  cases call with
  | headerField bytes =>
      simp only [mpSettings, ssOnMultipartName]
      split
      · rfl
      · split
        · exact onLastItem_kept _ _
        · rfl
  | headerValue bytes => exact onLastItem_kept _ _
  | partData bytes =>
      simp only [mpSettings, ssOnMultipartData]
      split
      · rfl
      · exact onLastItem_kept _ _
  | partDataEnd => exact onLastItem_kept _ _
  | partDataBegin | headersComplete | bodyEnd => rfl

theorem ssParseMultipartData_kept (req : Request) :
    req.ssParseMultipartData.2.kept = req.kept := by
  simp only [ssParseMultipartData]
  split
  · rfl
  · split
    · split
      · exact MultipartSettings.executeFrom_frame mpSettings_kept _ _ _ _ _ _
      · rfl
    · rfl

theorem formParams_kept (req : Request) : req.formParams.kept = req.kept := by
  simp only [formParams]
  split <;> rfl

theorem formParams_parseMultipart_kept (req : Request) :
    req.formParams.ssParseMultipartData.2.kept = req.kept :=
  (ssParseMultipartData_kept _).trans (formParams_kept req)

/-- What the end of the message leaves when no exception does. -/
theorem ssOnMessageComplete_answered {ret : Int} (h : req.ssOnMessageComplete.1 = some ret) :
    req.ssOnMessageComplete.2.parsePart = .reqOver ∧
      req.ssOnMessageComplete.2.parseErr = if ret = 0 then req.parseErr else parseMultipartErr := by
  have hparsed : req.formParams.ssParseMultipartData.2.parseErr = req.parseErr :=
    congrArg (fun k ↦ k.2.2.2) (formParams_parseMultipart_kept req)
  have hform : req.formParams.parseErr = req.parseErr :=
    congrArg (fun k ↦ k.2.2.2) (formParams_kept req)
  simp only [ssOnMessageComplete] at h ⊢
  split at h
  · rename_i hmulti
    rw [if_pos hmulti]
    cases hanswer : req.formParams.ssParseMultipartData.1 with
    | none => simp [hanswer] at h
    | some parseRet =>
        obtain rfl : parseRet = ret := by simpa [hanswer] using h
        exact ⟨rfl, by simp [hparsed]⟩
  · rename_i hmulti
    obtain rfl : 0 = ret := Option.some.inj h
    rw [if_neg hmulti]
    exact ⟨rfl, by simp [hform]⟩

/-- The read that ends the message. -/
theorem parseRequest_last {x : Parsing} (hcomplete : x.complete = true)
    (hsize : req.totalReqSize + x.size ≤ maxReqSize)
    (hrun : execute x.parser calls req = (none, u)) (hcalls : .messageComplete ∉ calls)
    (hx : x.callbacks = calls ++ [.messageComplete])
    (hpart : req.parsePart ≠ .reqOver) (herr : req.parseErr = 0) :
    (u.ssOnMessageComplete.1 = some 0 → req.parseRequest x =
      (some 0, u.ssOnMessageComplete.2.resize (req.totalReqSize + x.size))) ∧
    (∀ ret ≠ 0, u.ssOnMessageComplete.1 = some ret →
      ∃ answer < 0, (req.parseRequest x).1 = some answer) ∧
    (u.ssOnMessageComplete.1 = none → (req.parseRequest x).1 = none) := by
  have herr' := (execute_unfinished hrun hcalls hpart).2.trans herr
  have hend : execute x.parser x.callbacks req =
      if u.ssOnMessageComplete.1 ≠ some 0 then
        (some (.of .messageComplete u.ssOnMessageComplete.1), u.ssOnMessageComplete.2)
      else (none, u.ssOnMessageComplete.2) := by
    rw [hx, execute_append (by rw [hrun]), hrun]
    rfl
  refine ⟨fun hzero ↦ ?_, fun ret hne hret ↦ ?_, fun hnone ↦ ?_⟩
  · obtain ⟨hover, hmulti⟩ := ssOnMessageComplete_answered hzero
    rw [if_neg (not_not.mpr hzero)] at hend
    rw [if_pos rfl, herr'] at hmulti
    rw [parseRequest_eq, if_neg (Nat.not_lt.mpr hsize), execute_resize_of_eq _ hend]
    simp [Parsing.tookAll, resize, hcomplete, hmulti, hover]
  · obtain ⟨-, hmulti⟩ := ssOnMessageComplete_answered hret
    rw [if_pos (by simp [hret, hne]), hret] at hend
    rw [if_neg hne] at hmulti
    rw [parseRequest_eq, if_neg (Nat.not_lt.mpr hsize), execute_resize_of_eq _ hend]
    cases htook : x.endsBuffer with
    | false => exact ⟨-1, by decide, by simp [Parsing.tookAll, Stop.of, htook]⟩
    | true =>
        refine ⟨parseMultipartErr, by decide, ?_⟩
        simp [Parsing.tookAll, Stop.of, htook, resize, hmulti, parseMultipartErr]
  · rw [if_pos (by simp [hnone]), hnone] at hend
    rw [parseRequest_eq, if_neg (Nat.not_lt.mpr hsize), execute_resize_of_eq _ hend]
    simp [Stop.of]

end Request

/-! ## A message in reads -/

open Request

theorem Cut.messageComplete_notMem_before {m : HttpMessage} (cut : Cut m) :
    .messageComplete ∉ cut.before := by
  simp [before, headerCallbacks]

/-- The reads of a message, each of which `http_parser_execute` takes in as a
whole. No read comes behind the end of the message. -/
structure ReadsOf (m : HttpMessage) where
  cut : Cut m
  reads : List Parsing
  parses : ∀ x ∈ reads, x.parser = m.parser ∧ x.complete = true
  callbacks_eq : reads.flatMap Parsing.callbacks = cut.callbacks
  last_ne : ∀ x ∈ reads.getLast?, x.callbacks ≠ []
  size_le : totalSize reads ≤ maxReqSize

namespace ReadsOf

variable {m : HttpMessage} (r : ReadsOf m)

/-- The reads before the last one, the last one, and what it brings before the
end of the message. -/
theorem exists_last : ∃ (done : List Parsing) (last : Parsing) (calls : List ParserCallback),
    r.reads = done ++ [last] ∧ last.callbacks = calls ++ [.messageComplete] ∧
      done.flatMap Parsing.callbacks ++ calls = r.cut.before := by
  have hne : r.reads ≠ [] := by
    intro hnil
    have heq := r.callbacks_eq
    simp [hnil, Cut.callbacks] at heq
  obtain ⟨done, last, hreads⟩ := (List.eq_nil_or_concat' r.reads).resolve_left hne
  have hlast : last.callbacks ≠ [] := r.last_ne last (by simp [hreads])
  obtain ⟨calls, call, hcalls⟩ := (List.eq_nil_or_concat' _).resolve_left hlast
  have heq := r.callbacks_eq
  rw [hreads, List.flatMap_append, List.flatMap_singleton, hcalls, Cut.callbacks,
    ← List.append_assoc] at heq
  obtain ⟨hbefore, hcall⟩ := List.append_inj' heq rfl
  obtain rfl : call = .messageComplete := by simpa using hcall
  exact ⟨done, last, calls, hreads, hcalls, hbefore⟩

/-- The reads are through exactly when the message has one more answer than
`NEED_MORE_STATUS`, and then they leave the request that it leaves in one piece. -/
theorem parseReads_cases :
    m.outcome.1 = none ∧
        Request.new.parseReads r.reads = (some 0, m.outcome.2.resize (totalSize r.reads)) ∧
        (∀ done rest, r.reads = done ++ rest → rest ≠ [] →
          (Request.new.parseReads done).1 = some needMoreStatus) ∨
      (∃ call, m.outcome.1 = some (.failed call)) ∧
        (∃ answer < 0, (Request.new.parseReads r.reads).1 = some answer) ∨
      m.outcome.1 = some .thrown ∧ (Request.new.parseReads r.reads).1 = none := by
  obtain ⟨done, last, calls, hreads, hlast, hbefore⟩ := r.exists_last
  have hparses := r.parses
  have hsize := r.size_le
  have hnot := r.cut.messageComplete_notMem_before
  rw [hreads] at hparses hsize
  rw [← hbefore] at hnot
  have hdoneParses := fun x hx ↦ hparses x (List.mem_append_left [last] hx)
  obtain ⟨hparser, hcomplete⟩ := hparses last (by simp)
  have hnotDone := fun hmem ↦ hnot (List.mem_append_left calls hmem)
  have hnotCalls := fun hmem ↦ hnot (List.mem_append_right _ hmem)
  have htotal : totalSize (done ++ [last]) = totalSize done + last.size := by simp [totalSize]
  rw [htotal] at hsize
  have hdoneSize : Request.new.totalReqSize + totalSize done ≤ maxReqSize := by
    simp only [Request.new]
    omega
  have houtcome : m.outcome = execute m.parser
      (done.flatMap Parsing.callbacks ++ (calls ++ [.messageComplete])) Request.new := by
    rw [← r.cut.execute_callbacks, Cut.callbacks, ← hbefore, List.append_assoc]
  have hrefused : (-1 : Int) < 0 := by decide
  rcases hdone : execute m.parser (done.flatMap Parsing.callbacks) Request.new with ⟨_ | stop, u⟩
  · have hreadsDone := parseReads_unfinished hdoneParses hdoneSize hdone hnotDone (by decide) rfl
    obtain ⟨hpart, herr⟩ := execute_unfinished hdone hnotDone (by decide)
    have hread : Request.new.parseReads r.reads =
        (u.resize (totalSize done)).parseRequest last := by
      rw [hreads, parseReads_append hreadsDone, parseReads_singleton]
      simp [Request.new]
    rw [execute_append (by rw [hdone]), hdone] at houtcome
    rcases hcalls : execute m.parser calls u with ⟨_ | stop, v⟩
    · -- only the end of the message is left
      have hlastCalls := execute_resize_of_eq (totalSize done) hcalls
      rw [← hparser] at hlastCalls
      obtain ⟨hok, hbad, hthrown⟩ := parseRequest_last (x := last) hcomplete
        (by simpa [resize] using hsize) hlastCalls hnotCalls hlast hpart (herr.trans rfl)
      rw [show (v.resize (totalSize done)).ssOnMessageComplete =
        (v.ssOnMessageComplete.1, v.ssOnMessageComplete.2.resize (totalSize done)) from
          settings_resize (p := m.parser) v .messageComplete] at hok hbad hthrown
      rw [execute_append (by rw [hcalls]), hcalls] at houtcome
      have hend : m.outcome = if v.ssOnMessageComplete.1 ≠ some 0 then
          (some (.of .messageComplete v.ssOnMessageComplete.1), v.ssOnMessageComplete.2)
          else (none, v.ssOnMessageComplete.2) := houtcome
      cases hanswer : v.ssOnMessageComplete.1 with
      | none =>
          right; right
          rw [if_pos (by simp [hanswer]), hanswer] at hend
          rw [hend, hread]
          exact ⟨rfl, hthrown hanswer⟩
      | some ret =>
          by_cases hzero : ret = 0
          · left
            subst hzero
            rw [if_neg (not_not.mpr hanswer)] at hend
            rw [hend]
            refine ⟨rfl, ?_, fun front rest hsplit hrest ↦ ?_⟩
            · rw [hread, hok hanswer, hreads, htotal]
              simp [resize]
            · obtain ⟨rest', x, rfl⟩ := (List.eq_nil_or_concat' rest).resolve_left hrest
              rw [hreads, ← List.append_assoc] at hsplit
              obtain ⟨hfront, -⟩ := List.append_inj' hsplit rfl
              exact parseReads_left rest' (by rw [← hfront, hreadsDone])
          · right; left
            rw [if_pos (by simp [hanswer, hzero]), hanswer] at hend
            rw [hend, hread]
            exact ⟨⟨_, rfl⟩, hbad ret hzero hanswer⟩
    · right; left
      have hlastCalls := execute_resize_of_eq (totalSize done) hcalls
      rw [← hparser] at hlastCalls
      have hearly : stop.Early := early_of_execute (by rw [hcalls]) hnotCalls
      have hwhole : execute last.parser last.callbacks (u.resize (totalSize done)) =
          (some stop, v.resize (totalSize done)) := by
        rw [hlast, execute_append_of_failed (by rw [hlastCalls]), hlastCalls]
      rw [execute_append_of_failed (by rw [hcalls]), hcalls] at houtcome
      rw [houtcome, hread, parseRequest_failed hwhole hearly]
      obtain ⟨call, -, rfl⟩ := hearly
      exact ⟨⟨call, rfl⟩, -1, hrefused, rfl⟩
  · right; left
    have hfailed := parseReads_failed hdoneParses hdoneSize hdone hnotDone (by decide) rfl
    obtain ⟨call, -, rfl⟩ := early_of_execute (by rw [hdone]) hnotDone
    rw [houtcome, execute_append_of_failed (by rw [hdone]), hdone, hreads,
      parseReads_append_of_ne [last] (by rw [hfailed]; decide), hfailed]
    exact ⟨⟨call, rfl⟩, -1, hrefused, rfl⟩

theorem parseReads_of_ok (hok : m.outcome.1 = none) :
    Request.new.parseReads r.reads = (some 0, m.outcome.2.resize (totalSize r.reads)) ∧
      ∀ done rest, r.reads = done ++ rest → rest ≠ [] →
        (Request.new.parseReads done).1 = some needMoreStatus := by
  rcases r.parseReads_cases with ⟨-, hreads, hmore⟩ | ⟨⟨call, hfailed⟩, -⟩ | ⟨hthrown, -⟩
  · exact ⟨hreads, hmore⟩
  · rw [hok] at hfailed
    cases hfailed
  · rw [hok] at hthrown
    cases hthrown

theorem parseReads_of_failed {call : ParserCallback} (hfailed : m.outcome.1 = some (.failed call)) :
    ∃ answer < 0, (Request.new.parseReads r.reads).1 = some answer := by
  rcases r.parseReads_cases with ⟨hok, -, -⟩ | ⟨-, hanswer⟩ | ⟨hthrown, -⟩
  · rw [hok] at hfailed
    cases hfailed
  · exact hanswer
  · rw [hthrown] at hfailed
    cases hfailed

theorem parseReads_of_thrown (hthrown : m.outcome.1 = some .thrown) :
    (Request.new.parseReads r.reads).1 = none := by
  rcases r.parseReads_cases with ⟨hok, -, -⟩ | ⟨⟨call, hfailed⟩, -⟩ | ⟨-, hnone⟩
  · rw [hok] at hthrown
    cases hthrown
  · rw [hthrown] at hfailed
    cases hfailed
  · exact hnone

end ReadsOf

/-- The message in one read of `size` bytes. -/
def HttpMessage.atOnce (m : HttpMessage) (size : ℕ) (hsize : size ≤ maxReqSize) : ReadsOf m where
  cut := m.whole
  reads := [⟨m.parser, size, m.whole.callbacks, true, true⟩]
  parses := by simp
  callbacks_eq := by simp
  last_ne := by simp [Cut.callbacks]
  size_le := by simpa [totalSize] using hsize

end SimpleFlow
