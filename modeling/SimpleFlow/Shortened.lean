import SimpleFlow.Shown

/-!
# Files that become shorter

`check_and_reset` compares inode numbers and never the size, so it leaves the
offset where it is when the file has been truncated, or when a new file has
been given the inode number of the old one. As long as neither happens behind
the offset, the offset stays inside the file.
-/

namespace SimpleFlow

open LabelledSystem

/-- A writer that does what it likes. Inode number 0 is no file's. -/
def unrestricted : Writer
  | _, .create ino => ino ≠ 0
  | _, _ => true

namespace Scene

variable {σ : Type}

/-- The loop begins on the disk `d`, on which the `stat` of the constructor was
made. Its open and its tell, some time before, had found `told`, or failed. -/
def begun (d : Disk) (isTail : Bool) (told : Option Bytes) (statOk : Bool) (runTime : Int)
    (handler : σ) : Scene σ :=
  ⟨d, Watch.start (FileReader.new isTail told (if statOk then d.path else none)) runTime handler⟩

/-- A `check_and_reset` that returns 0 leaves the offset inside the file it has
examined. -/
def OffsetInside (s : Scene σ) : Move → Prop
  | .stat true => ∀ g ∈ s.disk.path,
      (s.watch.reader.checkAndReset (some g)).2.offset ≤ (s.disk.content g).length
  | _ => True

instance (s : Scene σ) : (m : Move) → Decidable (s.OffsetInside m)
  | .stat true => inferInstanceAs (Decidable (∀ g ∈ s.disk.path,
      (s.watch.reader.checkAndReset (some g)).2.offset ≤ (s.disk.content g).length))
  | .stat false => isTrue trivial
  | .write _ => isTrue trivial
  | .opened _ => isTrue trivial
  | .data => isTrue trivial
  | .call => isTrue trivial

instance (s : Scene σ) : (m : Move) → Decidable (s.Unshortened m)
  | .write (.truncate ino size) => inferInstanceAs (Decidable (s.disk.path = some ino →
      ino = s.watch.reader.fileIno → s.watch.reader.offset ≤ size))
  | .write (.create ino) => inferInstanceAs (Decidable (ino = s.watch.reader.fileIno →
      s.watch.reader.offset ≤ 0 ∧ ∀ g ∈ s.watch.pc.file, g = ino))
  | .write (.append _ _) => isTrue trivial
  | .write .rename => isTrue trivial
  | .stat _ => isTrue trivial
  | .opened _ => isTrue trivial
  | .data => isTrue trivial
  | .call => isTrue trivial

variable {a : FileAgent σ} {w : Writer} {s t : Scene σ} {m : Move} {lo : ℕ → ℕ} {n : ℕ}

theorem Tracked.offsetInside (h : s.Tracked lo n) (m : Move) : s.OffsetInside m := by
  cases m with
  | stat ok =>
      cases ok with
      | false => trivial
      | true =>
          intro g hpath
          by_cases hino : g = s.watch.reader.fileIno
          · subst hino
            simpa [FileReader.checkAndReset] using h.inside hpath
          · simp [FileReader.checkAndReset, hino]
  | _ => trivial

/-- The locals are sound, and the reader has been followed. -/
def Followed (lo : ℕ → ℕ) (n : ℕ) (s : Scene σ) : Prop := s.watch.Sound ∧ s.Tracked lo n

theorem Followed.step (h : s.Followed lo n) (hm : s.Unshortened m)
    (hstep : (a.onDisk w).step s m = some t) : t.Followed lo n :=
  ⟨sound_of_step h.1 hstep, h.2.step h.1 hm hstep⟩

theorem Followed.exec {moves : List Move} (h : s.Followed lo n)
    (hm : (a.onDisk w).EachStep Unshortened s moves)
    (hrun : (a.onDisk w).exec s moves = some t) : t.Followed lo n :=
  (always_of_eachStep (fun _ _ _ h hm hstep ↦ Followed.step h hm hstep) h hm).last hrun

/-- A reader that is found beyond the end of the file at the path is not the
reader of that file, and begins at its start. -/
theorem Followed.reset (h : s.Followed lo n) {g : ℕ}
    (hstep : (a.onDisk w).step s (.stat true) = some t) (hpath : s.disk.path = some g)
    (hshort : (s.disk.content g).length < s.watch.reader.offset) :
    t.watch.reader = ⟨0, g⟩ ∧ t.Followed (fun _ ↦ 0) s.watch.presented.length := by
  have hsound := sound_of_step h.1 hstep
  have hino : g ≠ s.watch.reader.fileIno := by
    rintro rfl
    have hinside := h.2.inside hpath
    omega
  cases progress_of_step h.1 hstep with
  | idle _ u hm => simp at hm
  | stat ok u hfrom hpres hreader hfile =>
      have hzero : u.reader = ⟨0, g⟩ := by
        simpa [hpath, FileReader.checkAndReset, hino] using hreader
      refine ⟨hzero, hsound, hpres ▸ Nat.le_refl _, ?_, by simp [hfile], ?_⟩
      · intro _
        simp [hzero]
      · intro _ p b _ hp
        simp only [hzero] at hp
        omega

/-- The file found by the `stat` of the constructor is no shorter than what its
open and tell had found. -/
def NoShorter (d : Disk) (isTail : Bool) (told : Option Bytes) (statOk : Bool) : Prop :=
  isTail = true → statOk = true →
    ∀ g ∈ d.path, ∀ content ∈ told, content.length ≤ (d.content g).length

theorem followed_begun {d : Disk} {isTail statOk : Bool} {told : Option Bytes}
    (hzero : d.path ≠ some 0) (hstart : NoShorter d isTail told statOk) (runTime : Int)
    (handler : σ) :
    (begun d isTail told statOk runTime handler).Followed (fun g ↦ (d.content g).length) 0 := by
  have hinside : ∀ g, d.path = some g →
      (begun d isTail told statOk runTime handler).watch.reader.fileIno = g →
      (begun d isTail told statOk runTime handler).watch.reader.offset ≤
        (d.content g).length := by
    intro g hpath hino
    have hstat : statOk = true := by
      by_contra hfalse
      apply hzero
      rw [hpath, ← hino]
      simp [Scene.begun, Watch.start, FileReader.new, hfalse]
    simp only [Scene.begun, Watch.start, FileReader.new]
    cases isTail with
    | false => simp
    | true =>
        cases htold : told with
        | none => simp only [if_true]; omega
        | some content => simpa using hstart rfl hstat g hpath content htold
  refine ⟨.start _ _ _, Nat.zero_le _, fun hpath ↦ hinside _ hpath rfl, ?_, ?_⟩
  · intro _ f hf
    simp [Scene.begun, Watch.start, Pc.file] at hf
  · intro hpath p b hlo hp
    have hle := hinside _ hpath rfl
    exact absurd hp (by omega)

/-- As long as nothing is cut short behind the offset, every `check_and_reset`
leaves the offset inside the file, and one that finds the file shorter than the
offset starts over: what then lies below the offset has been shown since. -/
theorem offset_inside_of_unshortened (a : FileAgent σ) (d : Disk) (isTail : Bool)
    (told : Option Bytes) (statOk : Bool) (runTime : Int) (handler : σ) (moves : List Move)
    (hzero : d.path ≠ some 0) (hstart : NoShorter d isTail told statOk)
    (hmoves : (a.onDisk unrestricted).EachStep Unshortened
      (begun d isTail told statOk runTime handler) moves) :
    (a.onDisk unrestricted).EachStep OffsetInside
      (begun d isTail told statOk runTime handler) moves ∧
    ∀ before after s u t g, moves = before ++ .stat true :: after →
      (a.onDisk unrestricted).exec (begun d isTail told statOk runTime handler) before = some s →
      (a.onDisk unrestricted).step s (.stat true) = some u →
      (a.onDisk unrestricted).exec u after = some t →
      s.disk.path = some g → (s.disk.content g).length < s.watch.reader.offset →
      u.watch.reader = ⟨0, g⟩ ∧
      (t.disk.path = some t.watch.reader.fileIno →
        ∀ (p : ℕ) (b : UInt8), (p : Int) < t.watch.reader.offset →
          (t.disk.content t.watch.reader.fileIno)[p]? = some b →
          Shows (t.watch.presented.drop s.watch.presented.length) t.watch.reader.fileIno p b) := by
  have hbegun := followed_begun hzero hstart runTime handler
  constructor
  · exact eachStep_of_eachStep (fun _ _ _ h hm hstep ↦ Followed.step h hm hstep)
      (fun _ m _ h _ _ ↦ h.2.offsetInside m) hbegun hmoves
  · rintro before after s u t g rfl hbefore hcheck hafter hpath hshort
    obtain ⟨hpast, hrest⟩ := hmoves.append
    obtain ⟨hzeroed, hnew⟩ := (hbegun.exec hpast hbefore).reset hcheck hpath hshort
    refine ⟨hzeroed, ?_⟩
    intro hcurrent p b hp hb
    have hend := hnew.exec (hrest s hbefore u hcheck).2 hafter
    exact hend.2.shown hcurrent p b (Nat.zero_le p) hp hb

/-- The file is replaced by a shorter one with another inode number. -/
def replaced : List Move :=
  [.opened true, .data, .call, .write .rename, .write (.create 2), .write (.append 2 [98]),
    .opened true, .data, .opened true, .data, .stat true, .opened true, .data]

theorem offset_inside_of_replaced :
    ((FileAgent.new FlowHandler.base).onDisk unrestricted).EachStep OffsetInside
      (begun (.single 1 [97, 10]) true (some []) true 0 ()) replaced :=
  (offset_inside_of_unshortened _ _ _ _ _ _ _ _ (by decide)
    (by intro _ _ g _ content htold; cases htold; exact Nat.zero_le _) (by decide +kernel)).1

/-- A reader beyond the end of its file shows nothing more until a writer acts,
whatever is checked in the meantime. -/
theorem stays_behind (hs : s.watch.Sound) (hpath : s.disk.path = some s.watch.reader.fileIno)
    (hshort : (s.disk.content s.watch.reader.fileIno).length < s.watch.reader.offset)
    (hclosed : s.watch.pc.file = none) {moves : List Move}
    (hm : ∀ m ∈ moves, ∀ e, m ≠ .write e) (hrun : (a.onDisk w).exec s moves = some t) :
    t.watch.presented ⊆ s.watch.presented := by
  obtain ⟨k, hk⟩ := Int.eq_ofNat_of_zero_le (show 0 ≤ s.watch.reader.offset by omega)
  have hstuck : s.Stuck s.watch.reader.fileIno s.watch.presented := by
    refine ⟨hpath, rfl, ?_, by simp [hclosed], List.Subset.refl _⟩
    rw [hk]
    exact extract_eq_nil (by omega) reqSize
  exact (hstuck.exec hs hm hrun).presented_subset

/-- The writer copies the file away and truncates it, and the agent looks at it
before the writer appends again. -/
def copiedAndTruncated : List Move :=
  [.opened true, .data, .call, .write (.truncate 1 0), .opened true, .data, .opened true, .data,
    .stat true]

/-- The file is removed, and the next one gets its inode number. -/
def recreated : List Move :=
  [.opened true, .data, .call, .write .rename, .write (.create 1), .opened true, .data,
    .opened true, .data, .stat true]

theorem not_offset_inside :
    (¬((FileAgent.new FlowHandler.base).onDisk unrestricted).EachStep OffsetInside
        (begun (.single 1 [97, 10]) false none true 0 ()) copiedAndTruncated) ∧
    (¬((FileAgent.new FlowHandler.base).onDisk unrestricted).EachStep OffsetInside
        (begun (.single 1 [97, 10]) false none true 0 ()) recreated) ∧
    (((FileAgent.new FlowHandler.base).onDisk unrestricted).exec
        (begun (.single 1 [97, 10]) false none true 0 ())
        (copiedAndTruncated ++ [.write (.append 1 [98, 10, 99, 10]), .opened true, .data])).map
      (fun s ↦ s.watch.chunk) = some [99, 10] := by
  decide +kernel

end Scene

end SimpleFlow
