import SimpleFlow.Disk
import Mathlib.Data.List.Chain

/-!
# What a pass of the agent's loop can do

`Taken` lists the steps of the loop by what they do, and the invariant `Sound`
of the locals is proved from it for arbitrary answers from outside: the buffer
never changes its length, a chunk that is waiting for the handler is never
empty, and a refused chunk stays in the buffer until it is accepted.
-/

namespace SimpleFlow

/-- Between the first open of a pass and its `check_and_reset`. -/
def Pc.reading : Pc → Bool
  | .firstOpened _ => true
  | .secondOpen => true
  | .secondOpened _ => true
  | .check => true
  | _ => false

theorem Pc.reading_of_file {pc : Pc} {file : ℕ} (h : pc.file = some file) : pc.reading = true := by
  cases pc <;> simp_all [Pc.file, Pc.reading]

/-- A call after a refused one presents the same bytes of the same file again. -/
def RetriesRefused (c d : Call) : Prop := c.answer < 0 → d = { c with answer := d.answer }

namespace Watch

variable {σ : Type}

/-- A chunk sits in the buffer that the handler has not accepted. -/
def pending (s : Watch σ) : Bool :=
  match s.pc with
  | .handle => true
  | .faulted _ => true
  | _ => s.retryStatus

def ready (s : Watch σ) : Prop := s.pc = .handle ∨ s.pc = .head ∧ s.retryStatus = true

def filled (s : Watch σ) (file : ℕ) (got : Bytes) : Watch σ :=
  { s with
    reader := { s.reader with offset := s.reader.offset + got.length }
    reqBuffer := got ++ s.reqBuffer.drop got.length
    readSize := got.length
    source := (file, s.reader.offset.toNat)
    pc := .handle }

theorem pending_of_ready {s : Watch σ} (h : s.ready) : s.pending = true := by
  rcases h with h | h <;> simp [pending, h]

theorem pending_of_reading {s : Watch σ} (h : s.pc.reading = true) :
    s.pending = s.retryStatus := by
  cases hpc : s.pc <;> simp_all [pending, Pc.reading]

theorem finishRead_none (s : Watch σ) (file : ℕ) (next : Pc) :
    s.finishRead file none next = { s with pc := next } := by
  simp [finishRead, FileReader.read]

theorem finishRead_nil {s : Watch σ} {content : Bytes}
    (h : extract content s.reader.offset reqSize = []) (file : ℕ) (next : Pc) :
    s.finishRead file (some content) next = { s with readSize := 0, pc := next } := by
  simp [finishRead, FileReader.read, h]

theorem finishRead_filled {s : Watch σ} {content : Bytes}
    (h : extract content s.reader.offset reqSize ≠ []) (file : ℕ) (next : Pc) :
    s.finishRead file (some content) next =
      s.filled file (extract content s.reader.offset reqSize) := by
  simp [finishRead, FileReader.read, h, filled]

end Watch

namespace FileAgent

variable {σ : Type} (a : FileAgent σ)

/-- The steps of the loop. A step that opens a stream may have cleared the
buffer; a read that finds nothing goes on to the second open or to the check. -/
inductive Taken (s : Watch σ) : Obs → Watch σ → Prop
  | opened (file : Option ℕ) (buffer : Bytes) (pc : Pc)
      (hfrom : s.pc = .head ∧ s.retryStatus = false ∨ s.pc = .secondOpen)
      (hbuffer : buffer.length = reqSize ∨ buffer = s.reqBuffer)
      (hpc : pc.reading = true) (hfile : pc.file = file) :
      Taken s (.opened file) { s with reqBuffer := buffer, pc := pc }
  | noData (file : ℕ) (content : Bytes) (pc : Pc) (hfrom : s.pc.file = some file)
      (hnil : extract content s.reader.offset reqSize = [])
      (hpc : pc = .secondOpen ∨ pc = .check) :
      Taken s (.data content) { s with readSize := 0, pc := pc }
  | filled (file : ℕ) (content : Bytes) (hfrom : s.pc.file = some file)
      (hne : extract content s.reader.offset reqSize ≠ []) :
      Taken s (.data content) (s.filled file (extract content s.reader.offset reqSize))
  | stat (ino : Option ℕ) (hfrom : s.pc = .check) :
      Taken s (.stat ino) { s with reader := (s.reader.checkAndReset ino).2, pc := .head }
  | call (hready : s.ready) : Taken s .call (a.callHandler s)

variable {a}

theorem taken_finishRead {s : Watch σ} {file : ℕ} (hfrom : s.pc.file = some file)
    (content : Bytes) {next : Pc} (hnext : next = .secondOpen ∨ next = .check) :
    Taken a s (.data content) (s.finishRead file (some content) next) := by
  by_cases h : extract content s.reader.offset reqSize = []
  · rw [Watch.finishRead_nil h]
    exact .noData file content next hfrom h hnext
  · rw [Watch.finishRead_filled h]
    exact .filled file content hfrom h

theorem taken_of_step {s t : Watch σ} {o : Obs} (h : a.step s o = some t) : Taken a s o t := by
  unfold step at h
  split at h
  · rename_i file hpc
    split at h
    · simp at h
    · rename_i hretry
      obtain rfl := Option.some.inj h
      have hfrom : s.pc = .head ∧ s.retryStatus = false := ⟨hpc, by simpa using hretry⟩
      cases file with
      | none =>
          rw [Watch.openStream, Watch.finishRead_none]
          exact .opened none _ _ (.inl hfrom) (.inl List.length_replicate) rfl rfl
      | some file => exact .opened (some file) _ _ (.inl hfrom) (.inl List.length_replicate) rfl rfl
  · rename_i file content hpc
    obtain rfl := Option.some.inj h
    exact taken_finishRead (by rw [hpc]; rfl) content (.inl rfl)
  · rename_i file hpc
    obtain rfl := Option.some.inj h
    cases file with
    | none =>
        rw [Watch.openStream, Watch.finishRead_none]
        exact .opened none _ _ (.inr hpc) (.inr rfl) rfl rfl
    | some file => exact .opened (some file) _ _ (.inr hpc) (.inr rfl) rfl rfl
  · rename_i file content hpc
    obtain rfl := Option.some.inj h
    exact taken_finishRead (by rw [hpc]; rfl) content (.inr rfl)
  · rename_i ino hpc
    obtain rfl := Option.some.inj h
    exact .stat ino hpc
  · rename_i hpc
    obtain rfl := Option.some.inj h
    exact .call (.inl hpc)
  · rename_i hpc
    split at h
    · rename_i hretry
      obtain rfl := Option.some.inj h
      exact .call (.inr ⟨hpc, hretry⟩)
    · simp at h
  · simp at h

theorem callHandler_cases (s : Watch σ) :
    (∃ f, a.flowHandler.doHandle s.handler s.reqBuffer s.readSize = .error f ∧
      a.callHandler s = { s with pc := .faulted f }) ∨
    (∃ n h, a.flowHandler.doHandle s.handler s.reqBuffer s.readSize = .ok (n, h) ∧ n < 0 ∧
      a.callHandler s =
        { s with
          handler := h, calls := s.calls ++ [s.callWith n], retryStatus := true, pc := .head }) ∨
    (∃ n h runTime pc, a.flowHandler.doHandle s.handler s.reqBuffer s.readSize = .ok (n, h) ∧
      0 ≤ n ∧ (pc = .head ∨ pc = .done ∨ pc = .overflowed) ∧
      a.callHandler s =
        { s with
          handler := h, calls := s.calls ++ [s.callWith n], retryStatus := false,
          runTime := runTime, pc := pc }) := by
  unfold callHandler
  cases hd : a.flowHandler.doHandle s.handler s.reqBuffer s.readSize with
  | error f => exact .inl ⟨f, rfl, rfl⟩
  | ok r =>
      obtain ⟨n, h⟩ := r
      by_cases hn : n < 0
      · exact .inr (.inl ⟨n, h, rfl, hn, by simp [hn]⟩)
      · refine .inr (.inr ?_)
        simp only [hn, if_false, Watch.accepted]
        split
        · split
          · exact ⟨n, h, s.runTime, _, rfl, by omega, .inr (.inr rfl), rfl⟩
          · refine ⟨n, h, s.runTime + 1, _, rfl, by omega, ?_, rfl⟩
            split
            · exact .inr (.inl rfl)
            · exact .inl rfl
        · exact ⟨n, h, s.runTime, _, rfl, by omega, .inl rfl, rfl⟩

end FileAgent

/-! ## The invariant of the locals -/

/-- What holds of the locals whatever the outside does. -/
structure Watch.Sound {σ : Type} (s : Watch σ) : Prop where
  buffer_length : s.reqBuffer.length = reqSize
  chunk_size : s.pending = true → 0 < s.readSize ∧ s.readSize ≤ reqSize
  not_reading : s.retryStatus = true → s.pc ≠ .handle ∧ s.pc.reading = false
  last_call : ∀ c ∈ s.calls.getLast?,
    (c.answer < 0 → s.retryStatus = true ∧ c = s.callWith c.answer) ∧
      (0 ≤ c.answer → s.retryStatus = false)
  chain : s.calls.IsChain RetriesRefused

namespace Watch.Sound

variable {σ : Type} {a : FileAgent σ} {s t : Watch σ}

theorem start (reader : FileReader) (runTime : Int) (handler : σ) :
    (Watch.start reader runTime handler).Sound := by
  constructor <;> simp [Watch.start, Watch.pending]

theorem retry_false (hs : s.Sound) (h : s.pc.reading = true) : s.retryStatus = false := by
  cases hr : s.retryStatus with
  | false => rfl
  | true => simp [(hs.not_reading hr).2] at h

theorem retry_false_of_open (hs : s.Sound)
    (h : s.pc = .head ∧ s.retryStatus = false ∨ s.pc = .secondOpen) : s.retryStatus = false := by
  rcases h with ⟨-, hretry⟩ | hpc
  · exact hretry
  · apply hs.retry_false
    rw [hpc]
    rfl

theorem retry_false_of_check (hs : s.Sound) (h : s.pc = .check) : s.retryStatus = false := by
  apply hs.retry_false
  rw [h]
  rfl

theorem chain_concat (hs : s.Sound) (n : Int) :
    (s.calls ++ [s.callWith n]).IsChain RetriesRefused := by
  rw [List.isChain_append]
  refine ⟨hs.chain, .singleton _, ?_⟩
  intro c hc d hd hrefused
  obtain rfl : s.callWith n = d := by simpa using hd
  obtain ⟨-, heq⟩ := (hs.last_call c hc).1 hrefused
  rw [heq]
  rfl

theorem callHandler (hs : s.Sound) (hready : s.ready) : (a.callHandler s).Sound := by
  have hsize := hs.chunk_size (pending_of_ready hready)
  rcases a.callHandler_cases s with ⟨f, -, heq⟩ | ⟨n, h, -, hn, heq⟩ |
      ⟨n, h, runTime, pc, -, hn, hpc, heq⟩
  · rw [heq]
    exact ⟨hs.buffer_length, fun _ ↦ hsize, fun _ ↦ ⟨by simp, rfl⟩, hs.last_call, hs.chain⟩
  · rw [heq]
    refine ⟨hs.buffer_length, fun _ ↦ hsize, fun _ ↦ ⟨by simp, rfl⟩, ?_, hs.chain_concat n⟩
    intro c hc
    obtain rfl : s.callWith n = c := by simpa using hc
    exact ⟨fun _ ↦ ⟨rfl, rfl⟩, fun hn' ↦ absurd hn (by simpa [callWith] using hn')⟩
  · rw [heq]
    refine ⟨hs.buffer_length, fun _ ↦ hsize, fun hr ↦ by simp at hr, ?_, hs.chain_concat n⟩
    intro c hc
    obtain rfl : s.callWith n = c := by simpa using hc
    exact ⟨fun hn' ↦ absurd hn' (by simpa [callWith] using hn), fun _ ↦ rfl⟩

/-- Nothing but a call touches the calls, and a step that is not a call does
not happen while a refused chunk waits. -/
theorem of_reading (hs : s.Sound) (hretry : s.retryStatus = false) {t : Watch σ}
    (hbuffer : t.reqBuffer.length = reqSize)
    (hsize : t.pending = true → 0 < t.readSize ∧ t.readSize ≤ reqSize)
    (htretry : t.retryStatus = false) (hcalls : t.calls = s.calls) : t.Sound := by
  refine ⟨hbuffer, hsize, fun h ↦ by simp [htretry] at h, ?_, hcalls ▸ hs.chain⟩
  intro c hc
  rw [hcalls] at hc
  refine ⟨fun hn ↦ ?_, fun _ ↦ htretry⟩
  have := ((hs.last_call c hc).1 hn).1
  simp [hretry] at this

theorem step (hs : s.Sound) {o : Obs} (h : a.step s o = some t) : t.Sound := by
  cases FileAgent.taken_of_step h with
  | opened file buffer pc hfrom hbuffer hpc hfile =>
      have hretry := hs.retry_false_of_open hfrom
      refine hs.of_reading hretry ?_ ?_ hretry rfl
      · rcases hbuffer with hbuffer | rfl
        · exact hbuffer
        · exact hs.buffer_length
      · intro hp
        rw [pending_of_reading hpc] at hp
        simp [hretry] at hp
  | noData file content pc hfrom hnil hpc =>
      have hretry := hs.retry_false (Pc.reading_of_file hfrom)
      refine hs.of_reading hretry hs.buffer_length ?_ hretry rfl
      intro hp
      rcases hpc with rfl | rfl <;> simp [pending, hretry] at hp
  | filled file content hfrom hne =>
      have hretry := hs.retry_false (Pc.reading_of_file hfrom)
      have hle := extract_length_le content s.reader.offset reqSize
      have hpos := List.length_pos_of_ne_nil hne
      refine hs.of_reading hretry ?_ ?_ hretry rfl
      · have hlen := hs.buffer_length
        simp only [filled, List.length_append, List.length_drop]
        omega
      · intro _
        simp only [filled]
        omega
  | stat ino hfrom =>
      have hretry := hs.retry_false_of_check hfrom
      refine hs.of_reading hretry hs.buffer_length ?_ hretry rfl
      intro hp
      simp [pending, hretry] at hp
  | call hready => exact hs.callHandler hready

end Watch.Sound

/-! ## Steps on a disk -/

namespace FileAgent

variable {σ : Type} {a : FileAgent σ} {w : Writer} {s t : Scene σ} {m : Move}

theorem sceneStep_cases (h : a.sceneStep w s m = some t) :
    (∃ e d, m = .write e ∧ w s.disk e = true ∧ s.disk.apply e = some d ∧
      t = { s with disk := d }) ∨
    (∃ o u, observe s m = some o ∧ a.step s.watch o = some u ∧ t = { s with watch := u }) := by
  unfold sceneStep at h
  split at h
  · rename_i e
    split at h
    · rename_i hw
      obtain ⟨d, hd, rfl⟩ := Option.map_eq_some_iff.mp h
      exact .inl ⟨e, d, rfl, hw, hd, rfl⟩
    · simp at h
  · obtain ⟨o, ho, hstep⟩ := Option.bind_eq_some_iff.mp h
    obtain ⟨u, hu, rfl⟩ := Option.map_eq_some_iff.mp hstep
    exact .inr ⟨o, u, ho, hu, rfl⟩

theorem observe_opened {file : Option ℕ} (h : observe s m = some (.opened file)) :
    ∀ ino ∈ file, s.disk.path = some ino := by
  cases m with
  | opened ok =>
      obtain rfl : (if ok then s.disk.path else none) = file := by simpa [observe] using h
      intro ino hino
      cases ok <;> simp_all
  | data => simp [observe] at h
  | _ => simp [observe] at h

theorem observe_data {file : ℕ} {content : Bytes} (hfrom : s.watch.pc.file = some file)
    (h : observe s m = some (.data content)) : m = .data ∧ content = s.disk.content file := by
  cases m with
  | data =>
      simp only [observe, hfrom, Option.map_some, Option.some.injEq, Obs.data.injEq] at h
      exact ⟨rfl, h.symm⟩
  | _ => simp [observe] at h

theorem observe_stat {ino : Option ℕ} (h : observe s m = some (.stat ino)) :
    ∃ ok, m = .stat ok ∧ ino = if ok then s.disk.path else none := by
  cases m with
  | stat ok => exact ⟨ok, rfl, by simpa [observe] using h.symm⟩
  | data => simp [observe] at h
  | _ => simp [observe] at h

end FileAgent

/-- When `check_and_reset` changes the reader, it is to the beginning of
another generation, the one at the path. -/
theorem Scene.switched {σ : Type} {s : Scene σ} {ok : Bool} {r : FileReader}
    (hr : r = (s.watch.reader.checkAndReset (if ok then s.disk.path else none)).2)
    (hne : r ≠ s.watch.reader) :
    ∃ g, s.disk.path = some g ∧ g ≠ s.watch.reader.fileIno ∧ r = ⟨0, g⟩ := by
  cases hp : (if ok then s.disk.path else none) with
  | none =>
      rw [hp] at hr
      exact absurd hr hne
  | some g =>
      have hpath : s.disk.path = some g := by
        cases ok <;> simp_all
      rw [hp] at hr
      by_cases hg : g = s.watch.reader.fileIno
      · simp only [FileReader.checkAndReset, hg, if_true] at hr
        exact absurd hr hne
      · exact ⟨g, hpath, hg, by simpa [FileReader.checkAndReset, hg] using hr⟩

/-- A reader that believes in the file at the path is left as it is. -/
theorem Scene.not_switched {σ : Type} {s : Scene σ} {ok : Bool} {r : FileReader}
    (hr : r = (s.watch.reader.checkAndReset (if ok then s.disk.path else none)).2)
    (hpath : s.disk.path = some s.watch.reader.fileIno) : r = s.watch.reader := by
  by_contra hne
  obtain ⟨g, hg, hother, -⟩ := Scene.switched hr hne
  exact hother (Option.some.inj (hg.symm.trans hpath))

end SimpleFlow
