import SimpleFlow.LineAgent
import SimpleFlow.SharedLines

/-!
# The handler is driven inside its bounds

`do_handle` looks at the byte before the end of its chunk and, when that byte
is no newline, at the last line of the split. Neither is checked. Both are
fine on a proper chunk, and both callers only pass proper chunks: the server
because it answers a failed or empty `recv` itself, the agent because a pass
that reads nothing never reaches the handler, although a failed open leaves an
old `read_size` in place.
-/

namespace SimpleFlow

open LabelledSystem

/-- Between 1 and 4096 bytes, all of them in the buffer. -/
def ProperChunk (buffer : Bytes) (size : Int) : Prop :=
  1 ≤ size ∧ size ≤ 4096 ∧ size ≤ buffer.length

/-! ## The agent -/

namespace Watch

variable {σ : Type} {a : FileAgent σ} {s t u : Watch σ} {o : Obs}

theorem Sound.properChunk (hs : s.Sound) (hready : s.ready) :
    ProperChunk s.reqBuffer s.readSize := by
  obtain ⟨hpos, hle⟩ := hs.chunk_size (pending_of_ready hready)
  have hlen := hs.buffer_length
  simp only [reqSize] at hle hlen
  refine ⟨hpos, hle, ?_⟩
  omega

/-- The chunk in the buffer is what the last read of the run extracted, and
since that read the handler has only been called with it, `n` times. -/
def LastRead (a : FileAgent σ) (s : Watch σ) (obs : List Obs) (u : Watch σ) : Prop :=
  ∃ before content n v file, obs = before ++ .data content :: List.replicate n .call ∧
    a.loop.exec s before = some v ∧ v.pc.file = some file ∧
    u.chunk = extract content v.reader.offset reqSize

/-- A step that leaves a chunk waiting has just read it, or was a call that
did not accept it. -/
theorem pending_step (hs : s.Sound) (h : a.step s o = some t) (hpend : t.pending = true) :
    (∃ file content, o = .data content ∧ s.pc.file = some file ∧
      t.chunk = extract content s.reader.offset reqSize) ∨
    (o = .call ∧ s.pending = true ∧ t.chunk = s.chunk) := by
  cases FileAgent.taken_of_step h with
  | opened file buffer pc hfrom hbuffer hpc hfile =>
      have hretry := hs.retry_false_of_open hfrom
      rw [pending_of_reading hpc] at hpend
      simp [hretry] at hpend
  | noData file content pc hfrom hnil hpc =>
      have hretry := hs.retry_false (Pc.reading_of_file hfrom)
      rcases hpc with rfl | rfl <;> simp [pending, hretry] at hpend
  | filled file content hfrom hne =>
      exact .inl ⟨file, content, rfl, hfrom, by simp [chunk, filled]⟩
  | stat ino hfrom =>
      have hretry := hs.retry_false_of_check hfrom
      simp [pending, hretry] at hpend
  | call hready =>
      refine .inr ⟨rfl, pending_of_ready hready, ?_⟩
      rcases a.callHandler_cases s with ⟨f, -, heq⟩ | ⟨n, h, -, hn, heq⟩ |
          ⟨n, h, runTime, pc, -, hn, hpc, heq⟩
      · rw [heq]
        rfl
      · rw [heq]
        rfl
      · rw [heq] at hpend
        rcases hpc with rfl | rfl | rfl <;> simp [pending] at hpend

theorem lastRead_of_exec (hs : s.Sound) (hpend : s.pending = false) (obs : List Obs)
    (hrun : a.loop.exec s obs = some u) (hu : u.pending = true) : LastRead a s obs u := by
  induction obs using List.reverseRecOn generalizing u with
  | nil =>
      obtain rfl := Option.some.inj hrun
      simp [hpend] at hu
  | append_singleton obs o ih =>
      rw [exec_concat] at hrun
      obtain ⟨v, hv, hstep⟩ := Option.bind_eq_some_iff.mp hrun
      have hsound := exec_invariant (P := Sound)
        (fun _ _ _ h hstep ↦ Sound.step (a := a) h hstep) hs hv
      rcases pending_step hsound hstep hu with ⟨file, content, rfl, hfile, hchunk⟩ |
          ⟨rfl, hpv, hchunk⟩
      · exact ⟨obs, content, 0, v, file, rfl, hv, hfile, hchunk⟩
      · obtain ⟨before, content, n, w, file, rfl, hw, hfile, hread⟩ := ih hv hpv
        refine ⟨before, content, n + 1, w, file, ?_, hw, hfile, hchunk.trans hread⟩
        simp [List.replicate_succ']

theorem eachCall_properChunk (hs : s.Sound) (obs : List Obs) :
    a.loop.EachStep (fun s o ↦ o = .call → ProperChunk s.reqBuffer s.readSize) s obs := by
  refine eachStep_of_eachStep (P := Sound) (C := fun _ _ ↦ True)
    (fun _ _ _ h _ hstep ↦ h.step hstep) ?_ hs (eachStep_true _ _)
  rintro s _ t hs - hstep rfl
  cases FileAgent.taken_of_step hstep with
  | call hready => exact hs.properChunk hready

theorem line_agent_never_faults {τ : Type} (L : LineHandler τ) (limit : Int) (reader : FileReader)
    (runTime : Int) (h : LineFlowHandler τ) (obs : List Obs) :
    ((LineFlowHandler.accepting L).agent limit).loop.Always (fun s ↦ ∀ f, s.pc ≠ .faulted f)
      (Watch.start reader runTime h) obs := by
  have hstep : ∀ s o t, (s.Sound ∧ ∀ f, s.pc ≠ .faulted f) →
      ((LineFlowHandler.accepting L).agent limit).loop.step s o = some t →
      t.Sound ∧ ∀ f, t.pc ≠ .faulted f := by
    rintro s o t ⟨hs, -⟩ hstep
    refine ⟨hs.step hstep, ?_⟩
    cases FileAgent.taken_of_step hstep with
    | opened file buffer pc hfrom hbuffer hpc hfile =>
        rintro f rfl
        simp [Pc.reading] at hpc
    | noData file content pc hfrom hnil hpc => rcases hpc with rfl | rfl <;> simp
    | filled file content hfrom hne => simp [filled]
    | stat ino hfrom => simp
    | call hready =>
        obtain ⟨runTime, pc, hpc, heq⟩ := callHandler_line (L := L) limit hs hready
        rw [heq]
        rcases hpc with rfl | rfl | rfl <;> simp
  have hall := always_of_invariant hstep ⟨.start reader runTime h, by simp [start]⟩ obs
  exact hall.mono fun s hs ↦ hs.2

end Watch

/-! ## The line handler -/

namespace LineFlowHandler

variable {τ : Type} (L : LineHandler τ)

theorem doHandle_proper (h : LineFlowHandler τ) {buffer : Bytes} {size : Int}
    (hproper : ProperChunk buffer size) : ∃ h', doHandle L h buffer size = .ok (0, h') := by
  obtain ⟨hpos, -, hle⟩ := hproper
  have hcast : ((size.toNat : ℕ) : Int) = size := by omega
  have hdo := doHandle_chunk L h ⟨buffer, size.toNat, by omega, by omega⟩
  simp only [hcast] at hdo
  exact ⟨_, hdo⟩

end LineFlowHandler

/-! ## The server -/

namespace Server

variable {σ : Type}

theorem InBounds.properChunk {s : Server σ} (h : s.InBounds) {w client : ℕ} {buffer : Bytes}
    {size : Int} (hw : s.workers[w]? = some (.calling client buffer size)) :
    ProperChunk buffer size := by
  obtain ⟨hpos, hle, hlen⟩ := h w client buffer size hw
  refine ⟨hpos, hle, ?_⟩
  omega

/-- With a line handler every call of `do_handle` returns, and with
`READ_OVER`. -/
theorem line_server_answers {τ : Type} (L : LineHandler τ) (backlog coreSize : ℕ)
    (h : LineFlowHandler τ) (acts : List Act) :
    (LineFlowHandler.server L backlog coreSize).system.Always
      (fun s ↦ ∀ k ∈ s.calls, k.answer = some readOver)
      (Server.start (LineFlowHandler.server L backlog coreSize) h) acts := by
  have hstep : ∀ s a t, (s.InBounds ∧ ∀ k ∈ s.calls, k.answer = some readOver) →
      (LineFlowHandler.server L backlog coreSize).system.step s a = some t →
      t.InBounds ∧ ∀ k ∈ t.calls, k.answer = some readOver := by
    rintro s a t ⟨hs, hcalls⟩ hstep
    refine ⟨hs.step hstep, ?_⟩
    cases flow_of_step hstep with
    | still _ ha hsame hhand hcalling => rwa [hsame.calls]
    | sent client bytes heq =>
        subst heq
        exact hcalls
    | received w client r hw hmay heq =>
        subst heq
        unfold Server.received
        split <;> exact hcalls
    | passed w client buffer size hw heq =>
        rw [heq, handle_line hs hw]
        intro k hk
        rcases List.mem_append.mp hk with hk | hk
        · exact hcalls k hk
        · obtain rfl := List.mem_singleton.mp hk
          rfl
  have hall := always_of_invariant hstep
    ⟨.start (LineFlowHandler.server L backlog coreSize) h, by simp [start]⟩ acts
  exact hall.mono fun s hs ↦ hs.2

end Server

/-- Every call of `do_handle` that the agent makes, with any handler and any
answers of the file system, and every call that `on_readable` makes, with any
result of `recv`, passes a proper chunk: the bytes that the last read of the
file or the `recv` stored. On every proper chunk, with any `part_line`, the
line handler makes none of its unchecked accesses outside its bounds. -/
theorem driven_inside_bounds :
    (∀ (σ : Type) (a : FileAgent σ) (reader : FileReader) (runTime : Int) (handler : σ)
      (obs : List Obs),
      a.loop.EachStep (fun s o ↦ o = .call → ProperChunk s.reqBuffer s.readSize)
        (Watch.start reader runTime handler) obs ∧
      ∀ s, a.loop.exec (Watch.start reader runTime handler) obs = some s → s.ready →
        Watch.LastRead a (Watch.start reader runTime handler) obs s) ∧
    (∀ (r : Recv) (buffer : Bytes) (size : Int), onReadable r = .call buffer size →
      ProperChunk buffer size ∧ buffer.take size.toNat = r.bytes) ∧
    (∀ (σ : Type) (v : FlowServer σ) (handler : σ) (acts : List Act),
      v.system.Always (fun s ↦ ∀ (w client : ℕ) (buffer : Bytes) (size : Int),
        s.workers[w]? = some (.calling client buffer size) → ProperChunk buffer size)
        (Server.start v handler) acts) ∧
    (∀ (τ : Type) (L : LineHandler τ) (h : LineFlowHandler τ) (buffer : Bytes) (size : Int),
      ProperChunk buffer size → ∃ r, LineFlowHandler.doHandle L h buffer size = .ok r) := by
  refine ⟨fun σ a reader runTime handler obs ↦ ⟨?_, fun s hrun hready ↦ ?_⟩,
    fun r buffer size hr ↦ ⟨?_, onReadable_bytes hr⟩, fun σ v handler acts ↦ ?_,
    fun τ L h buffer size hproper ↦ ?_⟩
  · exact Watch.eachCall_properChunk (.start reader runTime handler) obs
  · exact Watch.lastRead_of_exec (.start reader runTime handler) rfl obs hrun
      (Watch.pending_of_ready hready)
  · obtain ⟨hpos, hle, hlen⟩ := onReadable_call hr
    exact ⟨hpos, hle, by omega⟩
  · have hall := always_of_invariant (M := v.system) (P := Server.InBounds)
      (fun _ _ _ h hstep ↦ h.step hstep) (.start v handler) acts
    refine hall.mono ?_
    intro s hs w client buffer size hw
    exact hs.properChunk hw
  · obtain ⟨h', hdo⟩ := LineFlowHandler.doHandle_proper L h hproper
    exact ⟨_, hdo⟩

end SimpleFlow
