import SimpleFlow.AgentLoop
import SimpleFlow.Library.Interleaving

/-!
# What an accepting handler is presented with

With a handler that refuses nothing, the calls made so far and the chunk in the
buffer form one growing list of spans of files. `Effect` says what one step
does to that list and to the reader, and no more: it is all that the results
about rotation need to know of the loop.
-/

namespace SimpleFlow

open Interleaving

/-- A handler whose every answer is at least 0. -/
structure AcceptingHandler (σ : Type) extends FlowHandler σ where
  accepts : ∀ {h : σ} {buffer : Bytes} {size n : Int} {h' : σ},
    doHandle h buffer size = .ok (n, h') → 0 ≤ n

abbrev AcceptingHandler.agent {σ : Type} (H : AcceptingHandler σ) (limit : Int) : FileAgent σ :=
  ⟨H.toFlowHandler, limit⟩

def AcceptingHandler.base : AcceptingHandler Unit where
  toFlowHandler := FlowHandler.base
  accepts := by
    intro h buffer size n h' hdo
    obtain ⟨rfl, -⟩ : 0 = n ∧ h = h' := by simpa [FlowHandler.base] using hdo
    exact Int.le_refl 0

/-- Some bytes of a file and where in the file they stand. -/
structure Span where
  file : ℕ
  pos : ℕ
  bytes : Bytes
  deriving DecidableEq, Repr

def Call.span (c : Call) : Span := ⟨c.file, c.pos, c.bytes⟩

/-- The positions in its file that a span covers, in order. -/
def Span.positions (p : Span) : List ℕ := List.range' p.pos p.bytes.length

def feedOf (spans : List Span) : List (ℕ × Bytes) := spans.map fun p ↦ (p.file, p.bytes)

def positionsOf (g : ℕ) (spans : List Span) : List ℕ :=
  own g (spans.map fun p ↦ (p.file, p.positions))

def bytesOf (g : ℕ) (spans : List Span) : Bytes := own g (feedOf spans)

theorem feedOf_concat (spans : List Span) (p : Span) :
    feedOf (spans ++ [p]) = feedOf spans ++ [(p.file, p.bytes)] := by
  simp [feedOf]

theorem positionsOf_concat (g : ℕ) (spans : List Span) (p : Span) :
    positionsOf g (spans ++ [p]) =
      positionsOf g spans ++ if p.file = g then p.positions else [] := by
  simp [positionsOf, own_concat]

theorem bytesOf_concat (g : ℕ) (spans : List Span) (p : Span) :
    bytesOf g (spans ++ [p]) = bytesOf g spans ++ if p.file = g then p.bytes else [] := by
  rw [bytesOf, feedOf_concat, own_concat, bytesOf]

theorem positionsOf_mono {spans spans' : List Span} (h : spans <+: spans') (g : ℕ) :
    positionsOf g spans <+: positionsOf g spans' :=
  own_mono (h.map _) g

theorem bytesOf_mono {spans spans' : List Span} (h : spans <+: spans') (g : ℕ) :
    bytesOf g spans <+: bytesOf g spans' :=
  own_mono (h.map _) g

namespace Watch

variable {σ : Type}

def passed (s : Watch σ) : List Span := s.calls.map Call.span

def current (s : Watch σ) : Span := ⟨s.source.1, s.source.2, s.chunk⟩

/-- What has been passed and, behind it, the chunk that is about to be. -/
def presented (s : Watch σ) : List Span :=
  s.passed ++ if s.pending then [s.current] else []

theorem passed_prefix_presented (s : Watch σ) : s.passed <+: s.presented := List.prefix_append _ _

theorem presented_of_not_pending {s : Watch σ} (h : s.pending = false) :
    s.presented = s.passed := by
  simp [presented, h]

theorem presented_of_pending {s : Watch σ} (h : s.pending = true) :
    s.presented = s.passed ++ [s.current] := by
  simp [presented, h]

/-- What a step does to the spans and to the reader. -/
inductive Effect (s : Watch σ) : Obs → Watch σ → Prop
  | opened (file : Option ℕ) (u : Watch σ) (hfrom : s.pc.file = none)
      (hpres : u.presented = s.presented) (hreader : u.reader = s.reader)
      (hfile : u.pc.file = file) : Effect s (.opened file) u
  | noData (file : ℕ) (content : Bytes) (u : Watch σ) (hfrom : s.pc.file = some file)
      (hnil : extract content s.reader.offset reqSize = [])
      (hpres : u.presented = s.presented) (hreader : u.reader = s.reader)
      (hfile : u.pc.file = none) : Effect s (.data content) u
  | took (file : ℕ) (content : Bytes) (u : Watch σ) (hfrom : s.pc.file = some file)
      (hne : extract content s.reader.offset reqSize ≠ [])
      (hpres : u.presented = s.presented ++
        [⟨file, s.reader.offset.toNat, extract content s.reader.offset reqSize⟩])
      (hreader : u.reader =
        ⟨s.reader.offset + (extract content s.reader.offset reqSize).length, s.reader.fileIno⟩)
      (hfile : u.pc.file = none) : Effect s (.data content) u
  | stat (ino : Option ℕ) (u : Watch σ) (hfrom : s.pc = .check)
      (hpres : u.presented = s.presented) (hreader : u.reader = (s.reader.checkAndReset ino).2)
      (hfile : u.pc.file = none) : Effect s (.stat ino) u
  | called (u : Watch σ) (hfrom : s.pc.file = none) (hpres : u.presented = s.presented)
      (hreader : u.reader = s.reader) (hfile : u.pc.file = none) : Effect s .call u

/-- The locals under an accepting handler: nothing is ever retried. -/
structure Smooth (s : Watch σ) : Prop where
  sound : s.Sound
  retry_false : s.retryStatus = false

theorem Smooth.start (reader : FileReader) (runTime : Int) (handler : σ) :
    (Watch.start reader runTime handler).Smooth :=
  ⟨.start _ _ _, rfl⟩

theorem Smooth.not_pending {s : Watch σ} (hs : s.Smooth) (h : s.pc.reading = true) :
    s.pending = false :=
  (pending_of_reading h).trans hs.retry_false

section Step

variable {H : AcceptingHandler σ} {limit : Int} {s t : Watch σ} {o : Obs}

theorem callHandler_accepting (H : AcceptingHandler σ) (limit : Int) (s : Watch σ) :
    (∃ f, (H.agent limit).callHandler s = { s with pc := .faulted f }) ∨
    (∃ n h runTime pc, (pc = .head ∨ pc = .done ∨ pc = .overflowed) ∧
      H.doHandle s.handler s.reqBuffer s.readSize = .ok (n, h) ∧
      (H.agent limit).callHandler s =
        { s with
          handler := h, calls := s.calls ++ [s.callWith n], retryStatus := false,
          runTime := runTime, pc := pc }) := by
  rcases (H.agent limit).callHandler_cases s with ⟨f, -, heq⟩ |
      ⟨n, h, hdo, hn, -⟩ | ⟨n, h, runTime, pc, hdo, -, hpc, heq⟩
  · exact .inl ⟨f, heq⟩
  · exact absurd (H.accepts hdo) (by omega)
  · exact .inr ⟨n, h, runTime, pc, hpc, hdo, heq⟩

theorem Smooth.step (hs : s.Smooth) (h : (H.agent limit).step s o = some t) :
    t.Smooth := by
  refine ⟨hs.sound.step h, ?_⟩
  cases FileAgent.taken_of_step h with
  | call _ =>
      rcases callHandler_accepting H limit s with ⟨f, heq⟩ |
          ⟨n, h, runTime, pc, -, -, heq⟩
      · rw [heq]
        exact hs.retry_false
      · rw [heq]
  | _ => exact hs.retry_false

theorem Smooth.effect (hs : s.Smooth)
    (h : (H.agent limit).step s o = some t) : Effect s o t := by
  have hretry := hs.retry_false
  cases FileAgent.taken_of_step h with
  | opened file buffer pc hfrom hbuffer hpc hfile =>
      have hpend : s.pending = false := by
        rcases hfrom with ⟨hhead, -⟩ | hsecond
        · simp [pending, hhead, hretry]
        · exact hs.not_pending (by rw [hsecond]; rfl)
      have hfromFile : s.pc.file = none := by
        rcases hfrom with ⟨hhead, -⟩ | hsecond
        · rw [hhead]; rfl
        · rw [hsecond]; rfl
      refine .opened file _ hfromFile ?_ rfl hfile
      rw [presented_of_not_pending hpend, presented_of_not_pending]
      · rfl
      · exact (pending_of_reading hpc).trans hretry
  | noData file content pc hfrom hnil hpc =>
      have hpend := hs.not_pending (Pc.reading_of_file hfrom)
      refine .noData file content _ hfrom hnil ?_ rfl ?_
      · rw [presented_of_not_pending hpend, presented_of_not_pending]
        · rfl
        · rcases hpc with rfl | rfl <;> simp [pending, hretry]
      · rcases hpc with rfl | rfl <;> rfl
  | filled file content hfrom hne =>
      have hpend := hs.not_pending (Pc.reading_of_file hfrom)
      refine .took file content _ hfrom hne ?_ rfl rfl
      rw [presented_of_not_pending hpend]
      simp [presented, pending, filled, passed, current, chunk]
  | stat ino hfrom =>
      have hpend := hs.not_pending (by rw [hfrom]; rfl)
      refine .stat ino _ hfrom ?_ rfl rfl
      rw [presented_of_not_pending hpend, presented_of_not_pending]
      · rfl
      · simp [pending, hretry]
  | call hready =>
      have hpend := pending_of_ready hready
      have hfrom : s.pc.file = none := by
        rcases hready with hpc | ⟨hpc, -⟩ <;> simp [hpc, Pc.file]
      rcases callHandler_accepting H limit s with ⟨f, heq⟩ |
          ⟨n, h, runTime, pc, hpc, -, heq⟩
      · rw [heq]
        refine .called _ hfrom ?_ rfl rfl
        rw [presented_of_pending hpend, presented_of_pending rfl]
        rfl
      · rw [heq]
        refine .called _ hfrom ?_ rfl ?_
        · rw [presented_of_pending hpend, presented_of_not_pending]
          · simp [passed, current, chunk, Call.span, Call.bytes, callWith]
          · rcases hpc with rfl | rfl | rfl <;> rfl
        · rcases hpc with rfl | rfl | rfl <;> rfl

end Step

end Watch

end SimpleFlow
