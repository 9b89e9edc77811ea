import SimpleFlow.RefusedLines
import SimpleFlow.Shown
import SimpleFlow.Library.Positions

/-!
# The lines of a tailed file

The reader begins at the size that the file has when it is constructed, and the
line handler takes the first byte that it is given for the beginning of a line.
So what is handed over first is the rest of a line when the writer was in the
middle of one, and after that the lines of the file.
-/

namespace SimpleFlow

open Delimited LabelledSystem

variable {τ : Type} {L : LineHandler τ}

namespace Scene

/-- An agent with a fresh line handler reaches its loop over one file. -/
abbrev tailing (ino : ℕ) (content : Bytes) (isTail openOk : Bool) (runTime : Int) (t : τ) :
    Scene (LineFlowHandler τ) :=
  Scene.start (Disk.single ino content) isTail openOk true runTime (.fresh t)

/-- Between the calls, what was handed over are the lines of the file between
`o` and the offset, behind the rest of the line that `o` is inside of. -/
def HandedOver (ino o : ℕ) (s : Scene (LineFlowHandler τ)) : Prop :=
  s.watch.pending = false →
    s.watch.handler.emitted =
      fragments newline o s.watch.reader.offset.toNat (s.disk.content ino) ++
        linesBetween newline o s.watch.reader.offset.toNat (s.disk.content ino)

/-- Between the calls, what was handed over are the lines of the file between
`o` and the offset. -/
def WholeLinesOnly (ino o : ℕ) (s : Scene (LineFlowHandler τ)) : Prop :=
  s.watch.pending = false →
    s.watch.handler.emitted =
      linesBetween newline o s.watch.reader.offset.toNat (s.disk.content ino)

instance (ino o : ℕ) (s : Scene (LineFlowHandler τ)) : Decidable (s.WholeLinesOnly ino o) :=
  inferInstanceAs (Decidable (_ = false → _ = linesBetween newline o _ _))

variable {ino o k : ℕ} {s : Scene (LineFlowHandler τ)}

theorem Delivered.handedOver (h : s.Delivered ino o k) (hl : s.watch.Lined) :
    s.HandedOver ino o := by
  intro hpend
  rw [hl.emitted, ← hl.acceptedBytes_eq, h.accepted, h.offset hpend, Int.toNat_natCast,
    lines_take_drop]

/-- The open of the constructor has failed: the offset is negative, and as the
inode number is right it stays so. -/
structure Blind (ino : ℕ) (s : Scene (LineFlowHandler τ)) : Prop where
  path : s.disk.path = some ino
  fileIno_eq : s.watch.reader.fileIno = ino
  negative : s.watch.reader.offset < 0
  presented : s.watch.presented = []

theorem Blind.step {a : FileAgent (LineFlowHandler τ)} {t : Scene (LineFlowHandler τ)} {m : Move}
    (h : s.Blind ino) (hs : s.watch.Sound) (hstep : (a.onDisk appendOnly).step s m = some t) :
    t.Blind ino := by
  cases progress_of_step hs hstep with
  | write e d hw hd =>
      cases e with
      | append f bytes =>
          obtain ⟨-, rfl⟩ := Disk.apply_append hd
          exact ⟨h.path, h.fileIno_eq, h.negative, h.presented⟩
      | _ => simp [appendOnly] at hw
  | idle _ u hm hfrom hpres hsub hreader hfile =>
      rw [h.presented] at hsub
      exact ⟨h.path, hreader ▸ h.fileIno_eq, hreader ▸ h.negative, List.subset_nil.mp hsub⟩
  | noData file u hfrom hnil hpres hreader hfile =>
      exact ⟨h.path, hreader ▸ h.fileIno_eq, hreader ▸ h.negative, hpres ▸ h.presented⟩
  | took file got u hfrom hgot hne hpres hreader hfile =>
      have hoffset := offset_nonneg_of_extract (hgot ▸ hne)
      have hnegative := h.negative
      omega
  | stat ok u hfrom hpres hreader hfile =>
      have hsame := not_switched hreader (h.fileIno_eq.symm ▸ h.path)
      exact ⟨h.path, hsame ▸ h.fileIno_eq, hsame ▸ h.negative, hpres ▸ h.presented⟩

theorem Blind.handedOver (h : s.Blind ino) (hl : s.watch.Lined) : s.HandedOver ino 0 := by
  intro _
  have hpassed : s.watch.passed = [] := by
    have hpre := s.watch.passed_prefix_presented
    rw [h.presented] at hpre
    exact List.prefix_nil.mp hpre
  have hzero : s.watch.reader.offset.toNat = 0 := by
    have hnegative := h.negative
    omega
  rw [hl.emitted, Watch.stream, hpassed, hzero]
  simp [feedOf, Interleaving.merged, fragments, linesBetween]

/-- The invariant, for each outcome of the open in the constructor. -/
structure Tailed (ino o : ℕ) (content : Bytes) (s : Scene (LineFlowHandler τ)) : Prop where
  lined : s.watch.Lined
  kept : content <+: s.disk.content ino
  place : (∃ k, s.Delivered ino o k) ∨ s.Blind ino ∧ o = 0

namespace Tailed

variable {limit : Int} {content : Bytes} {t : Scene (LineFlowHandler τ)} {m : Move}

theorem start (ino : ℕ) (content : Bytes) (isTail openOk : Bool) (runTime : Int) (t : τ) :
    (tailing ino content isTail openOk runTime t).Tailed ino
      (tailing ino content isTail openOk runTime t).watch.reader.offset.toNat content := by
  refine ⟨.start _ _ _, by simp [Scene.start, Disk.single], ?_⟩
  cases openOk with
  | true =>
      have hplace := Delivered.start ino content isTail runTime (LineFlowHandler.fresh t)
      left
      cases isTail with
      | true => simpa [Scene.start, Watch.start, FileReader.new, Disk.single] using hplace
      | false => simpa [Scene.start, Watch.start, FileReader.new, Disk.single] using hplace
  | false =>
      cases isTail with
      | true =>
          refine .inr ⟨⟨rfl, rfl, Int.negSucc_lt_zero 0, ?_⟩, rfl⟩
          simp [Scene.start, Watch.start, Watch.presented, Watch.passed, Watch.pending]
      | false =>
          -- nothing is opened without `is_tail`
          exact .inl (Delivered.start ino content false runTime (LineFlowHandler.fresh t))

theorem step (h : s.Tailed ino o content)
    (hstep : (((LineFlowHandler.accepting L).agent limit).onDisk appendOnly).step s m = some t) :
    t.Tailed ino o content := by
  have hkept : s.disk.content ino <+: t.disk.content ino := by
    rcases FileAgent.sceneStep_cases hstep with ⟨e, d, -, hw, hd, rfl⟩ | ⟨_, u, -, -, rfl⟩
    · cases e with
      | append f bytes => exact Disk.prefix_of_apply_append hd ino
      | _ => simp [appendOnly] at hw
    · exact List.prefix_rfl
  have hlined : t.watch.Lined := by
    rcases FileAgent.sceneStep_cases hstep with ⟨_, _, -, -, -, rfl⟩ | ⟨_, u, -, hu, rfl⟩
    · exact h.lined
    · exact h.lined.step hu
  refine ⟨hlined, h.kept.trans hkept, ?_⟩
  rcases h.place with hdelivered | ⟨hblind, hzero⟩
  · exact .inl (Delivered.step hdelivered hstep)
  · exact .inr ⟨hblind.step h.lined.smooth.sound hstep, hzero⟩

theorem handedOver (h : s.Tailed ino o content) : s.HandedOver ino o := by
  rcases h.place with ⟨k, hdelivered⟩ | ⟨hblind, rfl⟩
  · exact hdelivered.handedOver h.lined
  · exact hblind.handedOver h.lined

theorem wholeLinesOnly (h : s.Tailed ino o content)
    (ho : o = 0 ∨ content[o - 1]? = some newline) : s.WholeLinesOnly ino o := by
  intro hpend
  have hbegin : o = 0 ∨ (s.disk.content ino)[o - 1]? = some newline := by
    refine ho.imp id fun hsep ↦ ?_
    obtain ⟨rest, hrest⟩ := h.kept
    have hlt := (List.getElem?_eq_some_iff.mp hsep).1
    rw [← hrest, List.getElem?_append_left hlt]
    exact hsep
  rw [h.handedOver hpend, fragments_eq_nil hbegin, List.nil_append]

end Tailed

end Scene

/-- Along every run over a file that is only appended to, the line handler is
given the rest of the line that the initial offset is inside of, and then the
lines of the file; only lines of the file when that offset is where one begins. -/
theorem tailed_lines (L : LineHandler τ) (limit : Int) (ino : ℕ) (content : Bytes)
    (isTail openOk : Bool) (runTime : Int) (t : τ) (moves : List Move) (o : ℕ)
    (ho : o = (Scene.tailing ino content isTail openOk runTime t).watch.reader.offset.toNat) :
    (((LineFlowHandler.accepting L).agent limit).onDisk appendOnly).Always (Scene.HandedOver ino o)
      (Scene.tailing ino content isTail openOk runTime t) moves ∧
    (o = 0 ∨ content[o - 1]? = some newline →
      (((LineFlowHandler.accepting L).agent limit).onDisk appendOnly).Always
        (Scene.WholeLinesOnly ino o)
        (Scene.tailing ino content isTail openOk runTime t) moves) := by
  subst ho
  have hall := always_of_invariant
    (M := ((LineFlowHandler.accepting L).agent limit).onDisk appendOnly)
    (fun _ _ _ h hstep ↦ Scene.Tailed.step h hstep)
    (Scene.Tailed.start ino content isTail openOk runTime t) moves
  exact ⟨hall.mono fun _ h ↦ h.handedOver, fun hbegin ↦ hall.mono fun _ h ↦ h.wholeLinesOnly hbegin⟩

/-- The writer finishes a line, and the agent reads and hands over what it
finds. -/
def grown : List Move := [.write (.append 1 [99, newline]), .opened true, .data, .call]

theorem tailed_lines_grown :
    (((LineFlowHandler.accepting LineHandler.base).agent (-1)).onDisk appendOnly).Always
      (Scene.WholeLinesOnly 1 2) (Scene.tailing 1 [97, newline] true true 0 ()) grown :=
  (tailed_lines LineHandler.base (-1) 1 [97, newline] true true 0 () grown 2 rfl).2 (.inr rfl)

/-- The writer was in the middle of the line `"abc"` at construction, and the
fragment `"c"` is handed over as a line. -/
theorem not_whole_lines_only :
    ¬(((LineFlowHandler.accepting LineHandler.base).agent (-1)).onDisk appendOnly).Always
      (Scene.WholeLinesOnly 1 2) (Scene.tailing 1 [97, 98] true true 0 ()) grown := by
  decide +kernel

end SimpleFlow
