import SimpleFlow.FileAgent
import Mathlib.Logic.Function.Basic

/-!
# The agent over a changing file

`Disk` is the part of a file system that the watched path can lead to: which
inode is at the path now, and what every inode holds, including inodes that
have been renamed away and that an open stream still reads. A `Scene` puts the
loop of `start_watch` on such a disk, and its moves interleave the two.
-/

namespace SimpleFlow

/-- `used` lists the inodes that have been at the path, and `renamedAt` records
how long each was when it was renamed away. -/
structure Disk where
  path : Option ℕ
  content : ℕ → Bytes
  used : List ℕ
  renamedAt : ℕ → Option ℕ

inductive DiskEvent where
  | append (ino : ℕ) (bytes : Bytes)
  | rename
  | create (ino : ℕ)
  | truncate (ino size : ℕ)
  deriving DecidableEq, Repr

namespace Disk

def empty : Disk := ⟨none, fun _ ↦ [], [], fun _ ↦ none⟩

def single (ino : ℕ) (bytes : Bytes) : Disk :=
  ⟨some ino, Function.update (fun _ ↦ []) ino bytes, [ino], fun _ ↦ none⟩

/-- What a writer does to the disk; `none` where it cannot be done. -/
def apply (d : Disk) : DiskEvent → Option Disk
  | .append ino bytes =>
      if ino ∈ d.used then
        some { d with content := Function.update d.content ino (d.content ino ++ bytes) }
      else none
  | .rename =>
      d.path.map fun ino ↦
        { d with
          path := none
          renamedAt := Function.update d.renamedAt ino (some (d.content ino).length) }
  | .create ino =>
      if d.path.isSome then none
      else
        some
          { path := some ino
            content := Function.update d.content ino []
            used := if ino ∈ d.used then d.used else d.used ++ [ino]
            renamedAt := Function.update d.renamedAt ino none }
  | .truncate ino size =>
      if ino ∈ d.used then
        some { d with content := Function.update d.content ino ((d.content ino).take size) }
      else none

variable {d d' : Disk}

theorem apply_append {ino : ℕ} {bytes : Bytes} (h : d.apply (.append ino bytes) = some d') :
    ino ∈ d.used ∧
      d' = { d with content := Function.update d.content ino (d.content ino ++ bytes) } := by
  by_cases hino : ino ∈ d.used
  · exact ⟨hino, by simpa [apply, hino] using h.symm⟩
  · simp [apply, hino] at h

theorem apply_rename (h : d.apply .rename = some d') :
    ∃ ino, d.path = some ino ∧
      d' =
        { d with
          path := none
          renamedAt := Function.update d.renamedAt ino (some (d.content ino).length) } := by
  obtain ⟨ino, hino, rfl⟩ := Option.map_eq_some_iff.mp (show _ = _ from h)
  exact ⟨ino, hino, rfl⟩

theorem apply_created {ino : ℕ} (h : d.apply (.create ino) = some d') :
    d.path = none ∧
      d' =
        { path := some ino
          content := Function.update d.content ino []
          used := if ino ∈ d.used then d.used else d.used ++ [ino]
          renamedAt := Function.update d.renamedAt ino none } := by
  cases hpath : d.path with
  | none => exact ⟨rfl, by simpa [apply, hpath] using h.symm⟩
  | some _ => simp [apply, hpath] at h

theorem apply_create {ino : ℕ} (hnew : ino ∉ d.used) (h : d.apply (.create ino) = some d') :
    d.path = none ∧
      d' =
        { path := some ino
          content := Function.update d.content ino []
          used := d.used ++ [ino]
          renamedAt := Function.update d.renamedAt ino none } := by
  obtain ⟨hpath, heq⟩ := apply_created h
  rw [if_neg hnew] at heq
  exact ⟨hpath, heq⟩

theorem apply_truncate {ino size : ℕ} (h : d.apply (.truncate ino size) = some d') :
    d' = { d with content := Function.update d.content ino ((d.content ino).take size) } := by
  by_cases hino : ino ∈ d.used
  · simpa [apply, hino] using h.symm
  · simp [apply, hino] at h

theorem prefix_of_apply_append {ino : ℕ} {bytes : Bytes}
    (h : d.apply (.append ino bytes) = some d') (j : ℕ) : d.content j <+: d'.content j := by
  obtain ⟨-, rfl⟩ := apply_append h
  by_cases hj : j = ino
  · subst hj
    simp
  · simp [Function.update_of_ne hj]

end Disk

abbrev Writer := Disk → DiskEvent → Bool

def appendOnly : Writer
  | _, .append _ _ => true
  | _, _ => false

/-- A writer that appends, renames the file away, and creates the next one
under an inode number that no earlier file had. Inode number 0 is no file's. -/
def rotating : Writer
  | _, .append _ _ => true
  | _, .rename => true
  | d, .create ino => ino ≠ 0 ∧ ino ∉ d.used
  | _, .truncate _ _ => false

structure Scene (σ : Type) where
  disk : Disk
  watch : Watch σ

/-- A writer's event, or one step of the loop with the freedom the system calls
have: an open or a `stat` may fail for a reason of its own. -/
inductive Move where
  | write (e : DiskEvent)
  | opened (ok : Bool)
  | data
  | stat (ok : Bool)
  | call
  deriving DecidableEq, Repr

namespace Scene

variable {σ : Type}

/-- The scene when `start_watch` reaches its loop: the constructor of the
reader has run on disk `d`, its open and its `stat` succeeding or not. -/
def start (d : Disk) (isTail openOk statOk : Bool) (runTime : Int) (handler : σ) : Scene σ where
  disk := d
  watch :=
    Watch.start
      (FileReader.new isTail (if openOk then d.path.map d.content else none)
        (if statOk then d.path else none))
      runTime handler

end Scene

namespace FileAgent

variable {σ : Type} (a : FileAgent σ)

def observe (s : Scene σ) : Move → Option Obs
  | .write _ => none
  | .opened ok => some (.opened (if ok then s.disk.path else none))
  | .data => s.watch.pc.file.map fun file ↦ .data (s.disk.content file)
  | .stat ok => some (.stat (if ok then s.disk.path else none))
  | .call => some .call

def sceneStep (w : Writer) (s : Scene σ) (m : Move) : Option (Scene σ) :=
  match m with
  | .write e => if w s.disk e then (s.disk.apply e).map fun d ↦ { s with disk := d } else none
  | m => (observe s m).bind fun o ↦ (a.step s.watch o).map fun t ↦ { s with watch := t }

/-- `start_watch` on a disk that the writer `w` changes at any moment. -/
def onDisk (w : Writer) : LabelledSystem (Scene σ) Move := ⟨a.sceneStep w⟩

end FileAgent

end SimpleFlow
