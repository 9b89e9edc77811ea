import SimpleFlow.AgentLoop

/-!
# Delivery from a file that is only appended to

The reader moves its offset when it reads, before the handler has accepted
anything. What makes delivery exact is that nothing is read while a refused
chunk waits: the offset is then ahead of the accepted bytes by exactly the
chunk in the buffer, and otherwise not ahead at all.
-/

namespace SimpleFlow

def acceptedBytes (calls : List Call) : Bytes :=
  (calls.filter fun c ↦ decide (0 ≤ c.answer)).flatMap Call.bytes

/-- Whatever is presented after an accepted chunk lies behind it in the file. -/
def NotRepeated (c d : Call) : Prop := 0 ≤ c.answer → c.pos + c.bytes.length ≤ d.pos

namespace Scene

variable {σ : Type}

/-- At the head of the loop the accepted chunks, followed by the refused one if
there is one, are the bytes of the file from `o` to the offset; a refused chunk
is the next one presented, and is what the buffer holds while it waits; what
was accepted is not presented again. -/
def ExactlyOnce (ino o : ℕ) (s : Scene σ) : Prop :=
  (s.watch.pc = .head → ∃ k : ℕ, s.watch.reader.offset = k ∧
    o ≤ k ∧ k ≤ (s.disk.content ino).length ∧
    acceptedBytes s.watch.calls ++ (if s.watch.retryStatus then s.watch.chunk else []) =
      ((s.disk.content ino).take k).drop o) ∧
  s.watch.calls.IsChain RetriesRefused ∧
  (∀ c ∈ s.watch.calls.getLast?, c.answer < 0 →
    s.watch.retryStatus = true ∧ c = s.watch.callWith c.answer) ∧
  s.watch.calls.Pairwise NotRepeated

/-- The invariant: `k` bytes of the file, from `o` on, have been accepted. -/
structure Delivered (ino o k : ℕ) (s : Scene σ) : Prop where
  sound : s.watch.Sound
  path : s.disk.path = some ino
  fileIno : s.watch.reader.fileIno = ino
  file : ∀ f ∈ s.watch.pc.file, f = ino
  start_le : o ≤ k
  le_length : k ≤ (s.disk.content ino).length
  accepted : acceptedBytes s.watch.calls = ((s.disk.content ino).take k).drop o
  before : ∀ c ∈ s.watch.calls, 0 ≤ c.answer → c.pos + c.bytes.length ≤ k
  notRepeated : s.watch.calls.Pairwise NotRepeated
  offset : s.watch.pending = false → s.watch.reader.offset = k
  chunk : s.watch.pending = true →
    s.watch.reader.offset = (k + s.watch.chunk.length : ℕ) ∧ s.watch.source.2 = k ∧
      s.watch.chunk <+: (s.disk.content ino).drop k

theorem Delivered.exactlyOnce {ino o k : ℕ} {s : Scene σ} (h : s.Delivered ino o k) :
    s.ExactlyOnce ino o := by
  refine ⟨?_, h.sound.chain, fun c hc ↦ (h.sound.last_call c hc).1, h.notRepeated⟩
  intro hpc
  cases hretry : s.watch.retryStatus with
  | false =>
      have hpend : s.watch.pending = false := by simp [Watch.pending, hpc, hretry]
      exact ⟨k, h.offset hpend, h.start_le, h.le_length, by simpa using h.accepted⟩
  | true =>
      have hpend : s.watch.pending = true := by simp [Watch.pending, hpc, hretry]
      obtain ⟨hoff, -, tail, htail⟩ := h.chunk hpend
      have hlen := congrArg List.length htail
      simp only [List.length_append, List.length_drop] at hlen
      have hle := h.le_length
      refine ⟨_, hoff, h.start_le.trans (Nat.le_add_right _ _), by omega, ?_⟩
      rw [if_pos rfl, h.accepted, List.take_add, List.drop_append_of_le_length, ← htail,
        List.take_left]
      simpa [hle] using h.start_le

end Scene

/-! ## Preservation -/

namespace Scene.Delivered

variable {σ : Type} {a : FileAgent σ} {ino o k : ℕ} {s : Scene σ}

theorem append (h : s.Delivered ino o k) {e : DiskEvent} {d : Disk}
    (hw : appendOnly s.disk e = true) (hd : s.disk.apply e = some d) :
    ({ s with disk := d } : Scene σ).Delivered ino o k := by
  cases e with
  | append ino' bytes =>
      obtain ⟨tail, htail⟩ := Disk.prefix_of_apply_append hd ino
      have hpath : d.path = s.disk.path := by rw [(Disk.apply_append hd).2]
      have hlen := congrArg List.length htail
      simp only [List.length_append] at hlen
      have hle := h.le_length
      refine ⟨h.sound, hpath.trans h.path, h.fileIno, h.file, h.start_le, ?_, ?_, h.before,
        h.notRepeated, h.offset, ?_⟩
      · change k ≤ (d.content ino).length
        omega
      · change _ = ((d.content ino).take k).drop o
        rw [← htail, List.take_append_of_le_length hle]
        exact h.accepted
      · intro hpend
        obtain ⟨hoff, hsrc, hchunk⟩ := h.chunk hpend
        refine ⟨hoff, hsrc, ?_⟩
        change _ <+: (d.content ino).drop k
        rw [← htail, List.drop_append_of_le_length hle]
        exact hchunk.trans (List.prefix_append _ _)
  | rename => simp [appendOnly] at hw
  | create ino' => simp [appendOnly] at hw
  | truncate ino' size => simp [appendOnly] at hw

theorem reading (h : s.Delivered ino o k) {u : Watch σ} (hu : u.Sound)
    (hreader : u.reader = s.watch.reader) (hcalls : u.calls = s.watch.calls)
    (hfile : ∀ f ∈ u.pc.file, f = ino) (hoff : s.watch.reader.offset = k)
    (hpend : u.pending = false) : ({ s with watch := u } : Scene σ).Delivered ino o k := by
  refine ⟨hu, h.path, hreader ▸ h.fileIno, hfile, h.start_le, h.le_length, ?_, ?_, ?_, ?_, ?_⟩
  · simpa only [hcalls] using h.accepted
  · simpa only [hcalls] using h.before
  · simpa only [hcalls] using h.notRepeated
  · intro _
    exact hreader ▸ hoff
  · intro hp
    simp only [hpend] at hp
    exact absurd hp (by simp)

theorem offset_of_reading (h : s.Delivered ino o k) (hpc : s.watch.pc.reading = true) :
    s.watch.reader.offset = k := by
  apply h.offset
  rw [Watch.pending_of_reading hpc, h.sound.retry_false hpc]

theorem filled (h : s.Delivered ino o k) {got : Bytes}
    (hsound : (s.watch.filled ino got).Sound) (hoff : s.watch.reader.offset = k)
    (hgot : got = extract (s.disk.content ino) k reqSize) :
    ({ s with watch := s.watch.filled ino got } : Scene σ).Delivered ino o k := by
  have hchunk : (s.watch.filled ino got).chunk = got := by
    simp [Watch.chunk, Watch.filled]
  refine ⟨hsound, h.path, h.fileIno, by simp [Watch.filled, Pc.file], h.start_le, h.le_length,
    h.accepted, h.before, h.notRepeated, ?_, ?_⟩
  · intro hp
    simp [Watch.pending, Watch.filled] at hp
  · intro _
    rw [hchunk]
    refine ⟨by simp [Watch.filled, hoff], by simp [Watch.filled, hoff], ?_⟩
    rw [hgot, extract_natCast]
    exact List.take_prefix _ _

theorem acceptedBytes_concat (calls : List Call) (c : Call) :
    acceptedBytes (calls ++ [c]) =
      acceptedBytes calls ++ if 0 ≤ c.answer then c.bytes else [] := by
  unfold acceptedBytes
  by_cases hc : 0 ≤ c.answer <;> simp [List.filter_append, hc]

/-- The call of the handler: what it accepts is the part of the file that
follows what was accepted before. -/
theorem callHandler (h : s.Delivered ino o k) (hready : s.watch.ready) :
    ∃ k', ({ s with watch := a.callHandler s.watch } : Scene σ).Delivered ino o k' := by
  have hfile : s.watch.pc.file = none := by
    rcases hready with hpc | ⟨hpc, -⟩ <;> simp [hpc, Pc.file]
  have hsound := h.sound.callHandler (a := a) hready
  obtain ⟨hoff, hsrc, hpre⟩ := h.chunk (Watch.pending_of_ready hready)
  have hlen : s.watch.chunk.length ≤ (s.disk.content ino).length - k := by
    simpa using hpre.length_le
  have hbytes : ∀ n, (s.watch.callWith n).bytes = s.watch.chunk := fun _ ↦ rfl
  have hpos : ∀ n, (s.watch.callWith n).pos = k := fun _ ↦ hsrc
  have hnew : ∀ n, (s.watch.calls ++ [s.watch.callWith n]).Pairwise NotRepeated := by
    intro n
    rw [List.pairwise_append]
    refine ⟨h.notRepeated, List.pairwise_singleton _ _, ?_⟩
    intro c hc d hd haccepted
    obtain rfl := List.mem_singleton.mp hd
    exact (h.before c hc haccepted).trans (hpos n).ge
  rcases a.callHandler_cases s.watch with ⟨f, -, heq⟩ | ⟨n, hdl, -, hn, heq⟩ |
      ⟨n, hdl, runTime, pc, -, hn, hpc, heq⟩
  · rw [heq] at hsound ⊢
    exact ⟨k, hsound, h.path, h.fileIno, by simp [Pc.file], h.start_le, h.le_length, h.accepted,
      h.before, h.notRepeated, fun hp ↦ by simp [Watch.pending] at hp, fun _ ↦ ⟨hoff, hsrc, hpre⟩⟩
  · rw [heq] at hsound ⊢
    refine ⟨k, hsound, h.path, h.fileIno, by simp [Pc.file], h.start_le, h.le_length, ?_, ?_,
      hnew n, ?_, ?_⟩
    · have hneg : ¬0 ≤ (s.watch.callWith n).answer := by simpa [Watch.callWith] using hn
      simpa [acceptedBytes_concat, hneg] using h.accepted
    · intro c hc haccepted
      rcases List.mem_append.mp hc with hc | hc
      · exact h.before c hc haccepted
      · obtain rfl := List.mem_singleton.mp hc
        exact absurd haccepted (by simpa [Watch.callWith] using hn)
    · intro hp
      simp [Watch.pending] at hp
    · intro _
      exact ⟨hoff, hsrc, hpre⟩
  · rw [heq] at hsound ⊢
    have hge : 0 ≤ (s.watch.callWith n).answer := hn
    refine ⟨k + s.watch.chunk.length, hsound, h.path, h.fileIno, ?_, ?_, ?_, ?_, ?_, hnew n,
      ?_, ?_⟩
    · rcases hpc with rfl | rfl | rfl <;> simp [Pc.file]
    · exact h.start_le.trans (Nat.le_add_right _ _)
    · have hle := h.le_length
      change k + s.watch.chunk.length ≤ (s.disk.content ino).length
      omega
    · obtain ⟨tail, htail⟩ := hpre
      change acceptedBytes (s.watch.calls ++ [s.watch.callWith n]) =
        ((s.disk.content ino).take (k + s.watch.chunk.length)).drop o
      rw [acceptedBytes_concat, if_pos hge, hbytes, h.accepted, List.take_add,
        List.drop_append_of_le_length (by simpa [h.le_length] using h.start_le), ← htail,
        List.take_left]
    · intro c hc haccepted
      rcases List.mem_append.mp hc with hc | hc
      · exact (h.before c hc haccepted).trans (Nat.le_add_right _ _)
      · obtain rfl := List.mem_singleton.mp hc
        rw [hbytes, hpos]
    · intro _
      exact hoff
    · intro hp
      rcases hpc with rfl | rfl | rfl <;> simp [Watch.pending] at hp

theorem step (h : ∃ k, s.Delivered ino o k) {m : Move} {t : Scene σ}
    (hstep : (a.onDisk appendOnly).step s m = some t) : ∃ k, t.Delivered ino o k := by
  obtain ⟨k, h⟩ := h
  rcases FileAgent.sceneStep_cases hstep with ⟨e, d, -, hw, hd, rfl⟩ | ⟨ob, u, hob, hu, rfl⟩
  · exact ⟨k, h.append hw hd⟩
  have hsound := h.sound.step hu
  cases FileAgent.taken_of_step hu with
  | opened file buffer pc hfrom hbuffer hpc hfile =>
      have hretry := h.sound.retry_false_of_open hfrom
      have hoff : s.watch.reader.offset = k := by
        rcases hfrom with ⟨hhead, hr⟩ | hsecond
        · exact h.offset (by simp [Watch.pending, hhead, hr])
        · exact h.offset_of_reading (by rw [hsecond]; rfl)
      refine ⟨k, h.reading hsound rfl rfl ?_ hoff ((Watch.pending_of_reading hpc).trans hretry)⟩
      intro f hf
      have hpath := FileAgent.observe_opened hob f (hfile ▸ hf)
      exact Option.some.inj (hpath.symm.trans h.path)
  | noData file content pc hfrom hnil hpc =>
      have hread := Pc.reading_of_file hfrom
      have hretry := h.sound.retry_false hread
      refine ⟨k, h.reading hsound rfl rfl ?_ (h.offset_of_reading hread) ?_⟩
      · rcases hpc with rfl | rfl <;> simp [Pc.file]
      · rcases hpc with rfl | rfl <;> simp [Watch.pending, hretry]
  | filled file content hfrom hne =>
      have hoff := h.offset_of_reading (Pc.reading_of_file hfrom)
      obtain ⟨-, rfl⟩ := FileAgent.observe_data hfrom hob
      obtain rfl := h.file file hfrom
      exact ⟨k, h.filled hsound hoff (by rw [hoff])⟩
  | stat st hfrom =>
      have hread : s.watch.pc.reading = true := by rw [hfrom]; rfl
      have hretry := h.sound.retry_false hread
      have hreader : (s.watch.reader.checkAndReset st).2 = s.watch.reader := by
        obtain ⟨ok, -, rfl⟩ := FileAgent.observe_stat hob
        cases ok <;> simp [FileReader.checkAndReset, h.path, h.fileIno]
      refine ⟨k, h.reading hsound hreader rfl (by simp [Pc.file]) (h.offset_of_reading hread) ?_⟩
      simp [Watch.pending, hretry]
  | call hready => exact h.callHandler hready

theorem start (ino : ℕ) (content : Bytes) (isTail : Bool) (runTime : Int) (handler : σ) :
    ∃ k, (Scene.start (Disk.single ino content) isTail true true runTime handler).Delivered ino
      (if isTail then content.length else 0) k := by
  refine ⟨if isTail then content.length else 0, ?_⟩
  refine ⟨Watch.Sound.start _ _ _, rfl, rfl, ?_, ?_, ?_, ?_, ?_, ?_, ?_, ?_⟩ <;> cases isTail <;>
    simp [Scene.start, Disk.single, FileReader.new, Watch.start, Watch.pending, Pc.file,
      acceptedBytes]

end Scene.Delivered

/-- Along every run over a file that is only appended to, with an agent and a
handler of any kind, opens and `stat`s failing at will: the accepted chunks and
the refused one, if any, are exactly the bytes between the initial offset and
the offset, each presented until it is accepted and not again. -/
theorem appended_file_delivered_exactly_once {σ : Type} (a : FileAgent σ) (ino : ℕ)
    (content : Bytes) (isTail : Bool) (runTime : Int) (handler : σ) (moves : List Move) :
    (a.onDisk appendOnly).Always (Scene.ExactlyOnce ino (if isTail then content.length else 0))
      (Scene.start (Disk.single ino content) isTail true true runTime handler) moves := by
  have hstart := Scene.Delivered.start ino content isTail runTime handler
  have hall := LabelledSystem.always_of_invariant
    (fun _ _ _ hs hstep ↦ Scene.Delivered.step (a := a) hs hstep) hstart moves
  exact hall.mono fun s ⟨k, hk⟩ ↦ hk.exactlyOnce

end SimpleFlow
