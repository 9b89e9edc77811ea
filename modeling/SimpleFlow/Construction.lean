import SimpleFlow.Catchup

/-!
# What the constructor of the reader leaves behind

The constructor in tail mode takes `_offset` from the file it could open and
`_file_ino` from a later `stat`. The two calls fail independently, and the path
may lead to another file in between. A reader that has taken the inode number of
the current file is never reset, whatever its offset is.
-/

namespace SimpleFlow

open LabelledSystem

/-- A disk by itself. -/
def Disk.changes (w : Writer) : LabelledSystem Disk DiskEvent :=
  ⟨fun d e ↦ if w d e then d.apply e else none⟩

namespace Disk

variable {d d' : Disk} {es : List DiskEvent}

theorem rotated_of_changes {e : DiskEvent} (h : (changes rotating).step d e = some d') :
    Rotated d e d' := by
  by_cases hw : rotating d e = true
  · exact rotated_of_apply hw (by simpa [changes, hw] using h)
  · simp [changes, hw] at h

theorem Tidy.changes (h : d.Tidy) (hrun : (changes rotating).exec d es = some d') : d'.Tidy :=
  exec_invariant (fun _ _ _ h hstep ↦ h.rotated (rotated_of_changes hstep)) h hrun

theorem prefix_of_changes {g : ℕ} (hg : g ∈ d.used)
    (hrun : (changes rotating).exec d es = some d') : d.content g <+: d'.content g := by
  have hboth : d.content g <+: d'.content g ∧ g ∈ d'.used := by
    refine exec_invariant (P := fun u ↦ d.content g <+: u.content g ∧ g ∈ u.used) ?_
      ⟨List.prefix_rfl, hg⟩ hrun
    intro u e v ⟨hpre, hmem⟩ hstep
    have hrot := rotated_of_changes hstep
    exact ⟨hpre.trans (prefix_of_rotated hrot hmem), used_subset_of_rotated hrot hmem⟩
  exact hboth.1

end Disk

/-- One execution of `FileReader::FileReader` with `is_tail`: the disk when the
path is opened, when `tellg` is asked for the end, and when `stat` is called.
`tellOk` says that open, seek and tell have all succeeded, `statOk` that `stat`
has. -/
structure Construction where
  opened : Disk
  told : Disk
  stated : Disk
  tellOk : Bool
  statOk : Bool
  tidy : opened.Tidy
  toTold : ∃ es, (Disk.changes rotating).exec opened es = some told
  toStated : ∃ es, (Disk.changes rotating).exec told es = some stated

namespace Construction

variable (K : Construction)

def reader : FileReader :=
  FileReader.new true (if K.tellOk then K.opened.path.map K.told.content else none)
    (if K.statOk then K.stated.path else none)

/-- The loop of `start_watch` is reached. -/
def scene {σ : Type} (runTime : Int) (handler : σ) : Scene σ :=
  ⟨K.stated, Watch.start K.reader runTime handler⟩

/-- How long a file is when the construction is over; what lies behind has been
appended to it afterwards. -/
def sizeAt (g : ℕ) : ℕ := if g ∈ K.stated.used then (K.stated.content g).length else 0

/-- Whatever happens later, and whenever a pass begins while the file at the
path owes a byte that was appended after construction: as long as it then stays
unchanged and no call fails, the next calls fill the buffer, and the loop passes
all such bytes unless it ends. -/
def Recovers {σ : Type} (a : FileAgent σ) (handler : σ) : Prop :=
  ∀ (runTime : Int) (moves : List Move) (s : Scene σ) (g : ℕ),
    (a.onDisk rotating).exec (K.scene runTime handler) moves = some s →
    s.watch.pc = .head → s.watch.retryStatus = false → s.disk.path = some g →
    s.Owes K.sizeAt g → a.FillsBuffer s ∧ a.Drains s (Scene.Owes K.sizeAt g)

/-- With the inode number of the current file comes an offset that is not
negative and was not taken from another file. -/
def Paired : Prop :=
  ∀ g, K.stated.path = some g → K.reader.fileIno = g →
    0 ≤ K.reader.offset ∧ ∀ f, f ≠ g → K.tellOk = true → K.opened.path = some f →
      K.reader.offset ≠ (K.told.content f).length

/-- If the `stat` found a file, the file that was opened is the same one. -/
def SameFile : Prop :=
  K.statOk = true → ∀ g, K.stated.path = some g → K.tellOk = true ∧ K.opened.path = some g

/-- If the `stat` found a file, some file was opened, and it was no longer than
the one found. -/
def Harmless : Prop :=
  K.statOk = true → ∀ g, K.stated.path = some g →
    ∃ f, K.tellOk = true ∧ K.opened.path = some f ∧
      (K.told.content f).length ≤ (K.stated.content g).length

theorem stated_tidy : K.stated.Tidy := by
  obtain ⟨es, hes⟩ := K.toTold
  obtain ⟨es', hes'⟩ := K.toStated
  exact (K.tidy.changes hes).changes hes'

theorem offset_of_told {f : ℕ} (htell : K.tellOk = true) (hopened : K.opened.path = some f) :
    K.reader.offset = (K.told.content f).length := by
  simp [reader, FileReader.new, htell, hopened]

theorem offset_of_not_told (h : K.tellOk = true → K.opened.path = none) :
    K.reader.offset = -1 := by
  cases htell : K.tellOk with
  | false => simp [reader, FileReader.new, htell]
  | true => simp [reader, FileReader.new, htell, h htell]

theorem fileIno_of_stated {g : ℕ} (hstat : K.statOk = true) (hpath : K.stated.path = some g) :
    K.reader.fileIno = g := by
  simp [reader, FileReader.new, hstat, hpath]

/-- The constructor knows the inode number of the current file only from its
`stat`. -/
theorem statOk_of_fileIno {g : ℕ} (hpath : K.stated.path = some g)
    (hino : K.reader.fileIno = g) : K.statOk = true := by
  cases hstat : K.statOk with
  | true => rfl
  | false =>
      have hzero : g = 0 := by simpa [reader, FileReader.new, hstat] using hino.symm
      have hused := K.stated_tidy.path_mem g hpath
      rw [hzero] at hused
      exact absurd hused K.stated_tidy.zero_notMem

theorem sizeAt_of_path {g : ℕ} (hpath : K.stated.path = some g) :
    K.sizeAt g = (K.stated.content g).length := by
  rw [sizeAt, if_pos (K.stated_tidy.path_mem g hpath)]

theorem harmless_of_sameFile (h : K.SameFile) : K.Harmless := by
  intro hstat g hpath
  obtain ⟨htell, hopened⟩ := h hstat g hpath
  refine ⟨g, htell, hopened, ?_⟩
  obtain ⟨es, hes⟩ := K.toTold
  obtain ⟨es', hes'⟩ := K.toStated
  have hused : g ∈ K.told.used := by
    refine exec_invariant (P := fun u : Disk ↦ g ∈ u.used) ?_ (K.tidy.path_mem g hopened) hes
    intro u e v hu hstep
    exact Disk.used_subset_of_rotated (Disk.rotated_of_changes hstep) hu
  exact (Disk.prefix_of_changes hused hes').length_le

theorem paired_iff : K.Paired ↔ K.SameFile := by
  constructor
  · intro hpaired hstat g hpath
    obtain ⟨hoffset, hother⟩ := hpaired g hpath (K.fileIno_of_stated hstat hpath)
    cases hopened : K.opened.path with
    | none =>
        rw [K.offset_of_not_told fun _ ↦ hopened] at hoffset
        exact absurd hoffset (by decide)
    | some f =>
        have htell : K.tellOk = true := by
          by_contra hfalse
          rw [K.offset_of_not_told fun htell ↦ absurd htell hfalse] at hoffset
          exact absurd hoffset (by decide)
        refine ⟨htell, ?_⟩
        by_contra hne
        have hfg : f ≠ g := fun heq ↦ hne (by rw [heq])
        exact hother f hfg htell hopened (K.offset_of_told htell hopened)
  · intro hsame g hpath hino
    obtain ⟨htell, hopened⟩ := hsame (K.statOk_of_fileIno hpath hino) g hpath
    refine ⟨by rw [K.offset_of_told htell hopened]; omega, ?_⟩
    intro f hfg _ hf
    exact absurd (Option.some.inj (hf.symm.trans hopened)) hfg

section Loop

variable {σ : Type} (a : FileAgent σ) (handler : σ)

theorem anchored_scene (h : K.Harmless) (runTime : Int) :
    (K.scene runTime handler).Anchored K.sizeAt := by
  have hplace : ∀ g, K.stated.path = some g → K.reader.fileIno = g →
      0 ≤ K.reader.offset ∧ K.reader.offset ≤ K.sizeAt g := by
    intro g hpath hino
    obtain ⟨f, htell, hopened, hle⟩ := h (K.statOk_of_fileIno hpath hino) g hpath
    rw [K.offset_of_told htell hopened, K.sizeAt_of_path hpath]
    exact ⟨Int.natCast_nonneg _, Int.ofNat_le.mpr hle⟩
  refine ⟨.start _ _ _, K.stated_tidy, ?_, fun hpath ↦ (hplace _ hpath rfl).1, ?_⟩
  · change K.reader.fileIno = 0 ∨ K.reader.fileIno ∈ K.stated.used
    by_cases hstat : K.statOk = true
    · cases hpath : K.stated.path with
      | none => simp [reader, FileReader.new, hpath]
      | some g =>
          rw [K.fileIno_of_stated hstat hpath]
          exact .inr (K.stated_tidy.path_mem g hpath)
    · simp [reader, FileReader.new, hstat]
  · refine ⟨Nat.zero_le _, ?_, fun _ f hf ↦ by simp [scene, Watch.start, Pc.file] at hf, ?_⟩
    · intro hpath
      have hle := (hplace _ hpath rfl).2
      rw [K.sizeAt_of_path hpath] at hle
      exact hle
    · intro hpath p b hlo hp
      have hle := (hplace _ hpath rfl).2
      have hbelow : (p : Int) < K.reader.offset := hp
      have habove : K.sizeAt K.reader.fileIno ≤ p := hlo
      exact absurd hle (by change ¬K.reader.offset ≤ K.sizeAt K.reader.fileIno; omega)

theorem recovers_of_harmless (h : K.Harmless) : K.Recovers a handler := by
  intro runTime moves s g hrun hpc hretry hpath howes
  have hanchored : s.Anchored K.sizeAt :=
    exec_invariant (fun _ _ _ h hstep ↦ h.step hstep) (K.anchored_scene handler h runTime) hrun
  have hsettled : s.Settled K.sizeAt g :=
    ⟨hanchored, hpath, by simp [hpc, Pc.file], by simp [hpc, Pc.searched]⟩
  exact ⟨hsettled.fillsBuffer hpc hretry howes, hsettled.drains⟩

/-- One byte is appended to a file that the reader believes in and whose end it
is already behind. -/
theorem not_recovers (h : ¬K.Harmless) : ¬K.Recovers a handler := by
  intro hrecovers
  obtain ⟨hstat, g, hpath, hnot⟩ : K.statOk = true ∧ ∃ g, K.stated.path = some g ∧
      ¬∃ f, K.tellOk = true ∧ K.opened.path = some f ∧
        (K.told.content f).length ≤ (K.stated.content g).length := by
    simpa [Harmless] using h
  have hused := K.stated_tidy.path_mem g hpath
  let d : Disk := { K.stated with
    content := Function.update K.stated.content g (K.stated.content g ++ [0]) }
  let s : Scene σ := ⟨d, (K.scene 0 handler).watch⟩
  have hrun : (a.onDisk rotating).exec (K.scene 0 handler) [.write (.append g [0])] =
      some s := by
    simp [exec_cons, FileAgent.onDisk, FileAgent.sceneStep, rotating, scene, Disk.apply, hused, s,
      d]
  have hcontent : d.content g = K.stated.content g ++ [0] := by simp [d]
  have howes : s.Owes K.sizeAt g := by
    refine ⟨(K.stated.content g).length, 0, (K.sizeAt_of_path hpath).le, ?_, ?_⟩
    · change (d.content g)[_]? = _
      simp [hcontent]
    · simp [Shows, s, scene, Watch.start, Watch.passed]
  have hnil : extract (d.content g) K.reader.offset reqSize = [] := by
    by_cases htold : ∃ f, K.tellOk = true ∧ K.opened.path = some f
    · obtain ⟨f, htell, hopened⟩ := htold
      rw [K.offset_of_told htell hopened]
      apply extract_eq_nil
      have hlt : ¬(K.told.content f).length ≤ (K.stated.content g).length :=
        fun hle ↦ hnot ⟨f, htell, hopened, hle⟩
      rw [hcontent, List.length_append, List.length_singleton]
      omega
    · rw [K.offset_of_not_told]
      · rfl
      · intro htell
        cases hopened : K.opened.path with
        | none => rfl
        | some f => exact absurd ⟨f, htell, hopened⟩ htold
  have hstuck : s.Stuck g [] :=
    ⟨hpath, K.fileIno_of_stated hstat hpath, hnil, by simp [s, scene, Watch.start, Pc.file],
      by simp [s, scene, Watch.start, Watch.presented, Watch.passed, Watch.pending]⟩
  obtain ⟨⟨ms, t, hms, hexec, hhandle, -⟩, -⟩ :=
    hrecovers 0 _ s g hrun rfl rfl hpath howes
  have hquiet : ∀ m ∈ ms, ∀ e, m ≠ .write e := by
    intro m hm e heq
    have hmem := hms.subset hm
    simp [FileAgent.nextCalls, heq] at hmem
  have hend := hstuck.exec (.start _ _ _) hquiet hexec
  have hpresented := hend.presented_subset
  rw [Watch.presented_of_pending (by simp [Watch.pending, hhandle])] at hpresented
  simp at hpresented

theorem recovers_iff : K.Recovers a handler ↔ K.Harmless := by
  constructor
  · intro h
    by_contra hnot
    exact K.not_recovers a handler hnot h
  · exact K.recovers_of_harmless a handler

/-- The reader recovers from its construction, and is left with a pair that
belongs together, exactly when no file was found by the `stat` or the same file
had been opened. -/
theorem recovers_and_paired_iff :
    (K.Recovers a handler ∧ K.Paired ↔ K.SameFile) ∧ (K.Recovers a handler ↔ K.Harmless) := by
  refine ⟨?_, K.recovers_iff a handler⟩
  constructor
  · rintro ⟨-, hpaired⟩
    exact K.paired_iff.mp hpaired
  · intro hsame
    exact ⟨K.recovers_of_harmless a handler (K.harmless_of_sameFile hsame), K.paired_iff.mpr hsame⟩

end Loop

/-- The file `"a"` may not be opened by the agent, but `stat` succeeds. -/
def unreadable : Construction where
  opened := .single 1 [97]
  told := .single 1 [97]
  stated := .single 1 [97]
  tellOk := false
  statOk := true
  tidy := .initial (some (1, [97]))
  toTold := ⟨[], rfl⟩
  toStated := ⟨[], rfl⟩

/-- The agent never recovers from that: not when the file becomes readable, and
not when it grows. -/
theorem unreadable_not_recovers :
    ¬unreadable.Recovers (.new FlowHandler.base) () ∧ ¬unreadable.Paired := by
  have hnot : ¬unreadable.Harmless := by
    intro h
    obtain ⟨f, htell, -⟩ := h rfl 1 rfl
    cases htell
  refine ⟨unreadable.not_recovers _ _ hnot, ?_⟩
  intro hpaired
  exact hnot (unreadable.harmless_of_sameFile (unreadable.paired_iff.mp hpaired))

end Construction

end SimpleFlow
