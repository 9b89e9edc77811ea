import SimpleFlow.Presented
import Mathlib.Data.PNat.Basic

/-!
# Log rotation

The generations of a rotated log are the inodes that have been at the path. A
read opens the path, but its position is counted in the generation whose inode
`check_and_reset` saw last, and the two need not be the same. As long as a read
from another generation finds nothing, every generation is passed from its
first byte on, in order and without repetition.
-/

namespace SimpleFlow

open LabelledSystem

/-! ## The disk under a rotating writer -/

namespace Disk

/-- Before the first rotation: no file at the path, or one. -/
def initial : Option (ℕ+ × Bytes) → Disk
  | none => .empty
  | some (ino, bytes) => .single ino bytes

/-- The events of a rotating writer with their effects. -/
inductive Rotated (d : Disk) : DiskEvent → Disk → Prop
  | append (ino : ℕ) (bytes : Bytes) (hino : ino ∈ d.used) :
      Rotated d (.append ino bytes)
        { d with content := Function.update d.content ino (d.content ino ++ bytes) }
  | rename (ino : ℕ) (hpath : d.path = some ino) :
      Rotated d .rename
        { d with
          path := none
          renamedAt := Function.update d.renamedAt ino (some (d.content ino).length) }
  | create (ino : ℕ) (hzero : ino ≠ 0) (hnew : ino ∉ d.used) (hpath : d.path = none) :
      Rotated d (.create ino)
        { path := some ino
          content := Function.update d.content ino []
          used := d.used ++ [ino]
          renamedAt := Function.update d.renamedAt ino none }

theorem rotated_of_apply {d d' : Disk} {e : DiskEvent} (hw : rotating d e = true)
    (h : d.apply e = some d') : Rotated d e d' := by
  cases e with
  | append ino bytes =>
      obtain ⟨hino, rfl⟩ := apply_append h
      exact .append ino bytes hino
  | rename =>
      obtain ⟨ino, hpath, rfl⟩ := apply_rename h
      exact .rename ino hpath
  | create ino =>
      obtain ⟨hzero, hnew⟩ : ino ≠ 0 ∧ ino ∉ d.used := by simpa [rotating] using hw
      obtain ⟨hpath, rfl⟩ := apply_create hnew h
      exact .create ino hzero hnew hpath
  | truncate ino size => simp [rotating] at hw

/-- No file has inode number 0, and a renamed file is not at the path. -/
structure Tidy (d : Disk) : Prop where
  zero_notMem : 0 ∉ d.used
  path_mem : ∀ g, d.path = some g → g ∈ d.used
  renamed : ∀ g n, d.renamedAt g = some n →
    g ∈ d.used ∧ d.path ≠ some g ∧ n ≤ (d.content g).length

theorem Tidy.initial (first : Option (ℕ+ × Bytes)) : (Disk.initial first).Tidy := by
  rcases first with _ | ⟨ino, bytes⟩
  · constructor <;> simp [Disk.initial, Disk.empty]
  · have hino : (0 : ℕ) ≠ ino := ino.ne_zero.symm
    constructor <;> simp [Disk.initial, Disk.single, hino]

theorem Tidy.rotated {d d' : Disk} {e : DiskEvent} (h : d.Tidy) (he : Rotated d e d') :
    d'.Tidy := by
  cases he with
  | append ino bytes hino =>
      refine ⟨h.zero_notMem, h.path_mem, ?_⟩
      intro g n hg
      obtain ⟨hused, hpath, hle⟩ := h.renamed g n hg
      refine ⟨hused, hpath, ?_⟩
      by_cases hgi : g = ino
      · subst hgi
        simpa using hle.trans (Nat.le_add_right _ _)
      · simpa [hgi] using hle
  | rename ino hpath =>
      refine ⟨h.zero_notMem, by simp, ?_⟩
      intro g n hg
      by_cases hgi : g = ino
      · subst hgi
        obtain rfl : (d.content g).length = n := by simpa using hg
        exact ⟨h.path_mem g hpath, by simp, Nat.le_refl _⟩
      · obtain ⟨hused, -, hle⟩ := h.renamed g n (by simpa [hgi] using hg)
        exact ⟨hused, by simp, hle⟩
  | create ino hzero hnew hpath =>
      refine ⟨?_, ?_, ?_⟩
      · simpa using ⟨h.zero_notMem, hzero.symm⟩
      · simp
      · intro g n hg
        by_cases hgi : g = ino
        · simp [hgi] at hg
        · obtain ⟨hused, -, hle⟩ := h.renamed g n (by simpa [hgi] using hg)
          exact ⟨by simp [hused], by simpa [eq_comm] using hgi, by simpa [hgi] using hle⟩

theorem prefix_of_rotated {d d' : Disk} {e : DiskEvent} (he : Rotated d e d') {g : ℕ}
    (hg : g ∈ d.used) : d.content g <+: d'.content g := by
  cases he with
  | append ino bytes hino =>
      by_cases hgi : g = ino
      · subst hgi
        simp
      · simp [hgi]
  | rename ino hpath => exact List.prefix_rfl
  | create ino hzero hnew hpath =>
      have hgi : g ≠ ino := fun heq ↦ hnew (heq ▸ hg)
      simp [hgi]

theorem used_subset_of_rotated {d d' : Disk} {e : DiskEvent} (he : Rotated d e d') :
    d.used ⊆ d'.used := by
  cases he with
  | create ino hzero hnew hpath => exact List.subset_append_left _ _
  | _ => exact List.Subset.refl _

theorem path_of_rotated {d d' : Disk} {e : DiskEvent} (he : Rotated d e d') {g : ℕ}
    (hg : d'.path = some g) : d.path = some g ∨ g ∉ d.used := by
  cases he with
  | append ino bytes hino => exact .inl hg
  | rename ino hpath => simp at hg
  | create ino hzero hnew hpath =>
      obtain rfl : ino = g := by simpa using hg
      exact .inr hnew

end Disk

/-! ## One move over a rotated path -/

namespace Scene

variable {σ : Type}

/-- The agent reaches its loop, reading from the start, before any rotation. -/
abbrev unrotated (first : Option (ℕ+ × Bytes)) (openOk statOk : Bool) (runTime : Int)
    (handler : σ) : Scene σ :=
  Scene.start (Disk.initial first) false openOk statOk runTime handler

/-- The moves over a rotated path, by what they do to the disk, the reader and
the spans. -/
inductive Turn (s : Scene σ) : Move → Scene σ → Prop
  | write (e : DiskEvent) (d : Disk) (he : s.disk.Rotated e d) :
      Turn s (.write e) { s with disk := d }
  | idle (m : Move) (u : Watch σ) (hm : m = .call ∨ ∃ ok, m = .opened ok)
      (hfrom : s.watch.pc.file = none) (hpres : u.presented = s.watch.presented)
      (hreader : u.reader = s.watch.reader)
      (hfile : ∀ g, u.pc.file = some g → s.disk.path = some g) : Turn s m { s with watch := u }
  | noData (file : ℕ) (u : Watch σ) (hfrom : s.watch.pc.file = some file)
      (hnil : extract (s.disk.content file) s.watch.reader.offset reqSize = [])
      (hpres : u.presented = s.watch.presented) (hreader : u.reader = s.watch.reader)
      (hfile : u.pc.file = none) : Turn s .data { s with watch := u }
  | took (file : ℕ) (got : Bytes) (u : Watch σ) (hfrom : s.watch.pc.file = some file)
      (hgot : got = extract (s.disk.content file) s.watch.reader.offset reqSize) (hne : got ≠ [])
      (hpres : u.presented =
        s.watch.presented ++ [⟨file, s.watch.reader.offset.toNat, got⟩])
      (hreader : u.reader =
        ⟨s.watch.reader.offset + got.length, s.watch.reader.fileIno⟩)
      (hfile : u.pc.file = none) : Turn s .data { s with watch := u }
  | stat (ok : Bool) (u : Watch σ) (hfrom : s.watch.pc = .check)
      (hpres : u.presented = s.watch.presented)
      (hreader : u.reader =
        (s.watch.reader.checkAndReset (if ok then s.disk.path else none)).2)
      (hfile : u.pc.file = none) : Turn s (.stat ok) { s with watch := u }

/-- The agent, its reader and the disk in step with each other. -/
structure Placed (s : Scene σ) : Prop where
  smooth : s.watch.Smooth
  tidy : s.disk.Tidy
  file_mem : ∀ g, s.watch.pc.file = some g → g ∈ s.disk.used
  ino_mem : s.watch.reader.fileIno = 0 ∨ s.watch.reader.fileIno ∈ s.disk.used

variable {H : AcceptingHandler σ} {limit : Int} {s t : Scene σ} {m : Move}

theorem Placed.turn (h : s.Placed)
    (hstep : ((H.agent limit).onDisk rotating).step s m = some t) :
    s.Turn m t := by
  rcases FileAgent.sceneStep_cases hstep with ⟨e, d, rfl, hw, hd, rfl⟩ | ⟨o, u, ho, hu, rfl⟩
  · exact .write e d (Disk.rotated_of_apply hw hd)
  cases h.smooth.effect hu with
  | opened file _ hfrom hpres hreader hfile =>
      refine .idle m u ?_ hfrom hpres hreader ?_
      · cases m <;> simp_all [FileAgent.observe]
      intro g hg
      exact FileAgent.observe_opened ho g (hfile.symm.trans hg)
  | noData file content _ hfrom hnil hpres hreader hfile =>
      obtain ⟨rfl, rfl⟩ := FileAgent.observe_data hfrom ho
      exact .noData file u hfrom hnil hpres hreader hfile
  | took file content _ hfrom hne hpres hreader hfile =>
      obtain ⟨rfl, rfl⟩ := FileAgent.observe_data hfrom ho
      exact .took file _ u hfrom rfl hne hpres hreader hfile
  | stat ino _ hfrom hpres hreader hfile =>
      obtain ⟨ok, rfl, rfl⟩ := FileAgent.observe_stat ho
      exact .stat ok u hfrom hpres hreader hfile
  | called _ hfrom hpres hreader hfile =>
      refine .idle m u ?_ hfrom hpres hreader (by simp [hfile])
      cases m <;> simp_all [FileAgent.observe]

theorem Placed.step (h : s.Placed)
    (hstep : ((H.agent limit).onDisk rotating).step s m = some t) :
    t.Placed := by
  have hsmooth : t.watch.Smooth := by
    rcases FileAgent.sceneStep_cases hstep with ⟨_, _, -, -, -, rfl⟩ | ⟨_, u, -, hu, rfl⟩
    · exact h.smooth
    · exact h.smooth.step hu
  cases h.turn hstep with
  | write e d he =>
      have hsub := Disk.used_subset_of_rotated he
      exact ⟨hsmooth, h.tidy.rotated he, fun g hg ↦ hsub (h.file_mem g hg),
        h.ino_mem.imp id fun hi ↦ hsub hi⟩
  | idle _ u hm hfrom hpres hreader hfile =>
      exact ⟨hsmooth, h.tidy, fun g hg ↦ h.tidy.path_mem g (hfile g hg), by
        simpa [hreader] using h.ino_mem⟩
  | noData file u hfrom hnil hpres hreader hfile =>
      exact ⟨hsmooth, h.tidy, by simp [hfile], by simpa [hreader] using h.ino_mem⟩
  | took file got u hfrom hgot hne hpres hreader hfile =>
      exact ⟨hsmooth, h.tidy, by simp [hfile], by simpa [hreader] using h.ino_mem⟩
  | stat ok u hfrom hpres hreader hfile =>
      refine ⟨hsmooth, h.tidy, by simp [hfile], ?_⟩
      change u.reader.fileIno = 0 ∨ u.reader.fileIno ∈ s.disk.used
      by_cases hsame : u.reader = s.watch.reader
      · exact hsame ▸ h.ino_mem
      · obtain ⟨g, hpath, -, hnew⟩ := switched hreader hsame
        exact .inr (by simpa [hnew] using h.tidy.path_mem g hpath)

theorem Placed.start (first : Option (ℕ+ × Bytes)) (openOk statOk : Bool) (runTime : Int)
    (handler : σ) :
    (Scene.unrotated first openOk statOk runTime handler).Placed := by
  refine ⟨.start _ _ _, .initial first, by simp [Scene.start, Watch.start, Pc.file], ?_⟩
  rcases first with _ | ⟨ino, bytes⟩ <;> cases statOk <;>
    simp [Scene.start, Watch.start, FileReader.new, Disk.initial, Disk.empty, Disk.single]

end Scene

end SimpleFlow
