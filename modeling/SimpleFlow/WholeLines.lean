import SimpleFlow.InOrder
import SimpleFlow.LineAgent

/-!
# Lines across rotations

The reader starts a new generation at its first byte, but the line handler is
told nothing and still holds what the old generation left unfinished. Even when
every generation is read to its end, a line is whole exactly as long as every
newline arrives with nothing unfinished from another generation.
-/

namespace SimpleFlow

open Delimited Interleaving LabelledSystem

namespace Scene

section Orderly

variable {σ : Type}

/-- A writer that waits for the agent: a generation is renamed when it has been
read to its end (or is empty), and gets bytes only once the reader has noticed
it. -/
def ReadToEnd (s : Scene σ) (m : Move) : Prop :=
  (m = .write .rename → ∀ g ∈ s.disk.path, s.disk.content g = [] ∨
    g = s.watch.reader.fileIno ∧ ((s.disk.content g).length : Int) ≤ s.watch.reader.offset) ∧
  match m with
  | .write (.append g bytes) => bytes = [] ∨ g = s.watch.reader.fileIno
  | _ => True

instance (s : Scene σ) (m : Move) : Decidable (s.ReadToEnd m) := by
  unfold ReadToEnd
  cases m with
  | write e => cases e <;> infer_instance
  | _ => infer_instance

/-- What such a writer ensures: a generation that the reader has not noticed
holds nothing. -/
structure Calm (s : Scene σ) : Prop where
  placed : s.Placed
  offset_nonneg : 0 ≤ s.watch.reader.offset
  unnoticed : ∀ g, s.disk.path = some g ∨ s.watch.pc.file = some g →
    g ≠ s.watch.reader.fileIno → s.disk.content g = []

theorem Calm.unmixed {s : Scene σ} (h : s.Calm) (m : Move) : s.Unmixed m := by
  rintro - g hg hne
  rw [h.unnoticed g (.inr hg) hne]
  exact h.offset_nonneg

theorem Calm.write {s : Scene σ} (h : s.Calm) {e : DiskEvent} {d : Disk}
    (hR : s.ReadToEnd (.write e)) (he : s.disk.Rotated e d)
    (hplaced : ({ s with disk := d } : Scene σ).Placed) :
    ({ s with disk := d } : Scene σ).Calm := by
  refine ⟨hplaced, h.offset_nonneg, ?_⟩
  intro g hg hne
  cases he with
  | append ino bytes hino =>
      have hempty := h.unnoticed g hg hne
      by_cases hgi : g = ino
      · obtain rfl : bytes = [] := hR.2.resolve_right fun heq ↦ hne (hgi.trans heq)
        subst hgi
        simpa using hempty
      · simpa [hgi] using hempty
  | rename ino hpath =>
      rcases hg with hg | hg
      · simp at hg
      · exact h.unnoticed g (.inr hg) hne
  | create ino hzero hnew hpath =>
      by_cases hgi : g = ino
      · simp [hgi]
      · rcases hg with hg | hg
        · exact absurd (Option.some.inj hg).symm hgi
        · simpa [hgi] using h.unnoticed g (.inr hg) hne

theorem Calm.idle {s : Scene σ} (h : s.Calm) {u : Watch σ}
    (hplaced : ({ s with watch := u } : Scene σ).Placed) (hreader : u.reader = s.watch.reader)
    (hfile : ∀ g, u.pc.file = some g → s.disk.path = some g) :
    ({ s with watch := u } : Scene σ).Calm := by
  refine ⟨hplaced, hreader ▸ h.offset_nonneg, ?_⟩
  intro g hg hne
  apply h.unnoticed g (.inl (hg.elim id (hfile g)))
  simpa only [hreader] using hne

theorem Calm.step {H : AcceptingHandler σ} {limit : Int} {s t : Scene σ} {m : Move} (h : s.Calm)
    (hR : s.ReadToEnd m)
    (hstep : ((H.agent limit).onDisk rotating).step s m = some t) :
    t.Calm := by
  have hplaced := h.placed.step hstep
  cases h.placed.turn hstep with
  | write e d he => exact h.write hR he hplaced
  | idle _ u hm hfrom hpres hreader hfile => exact h.idle hplaced hreader hfile
  | noData file u hfrom hnil hpres hreader hfile =>
      exact h.idle hplaced hreader (by simp [hfile])
  | took file got u hfrom hgot hne' hpres hreader hfile =>
      have hoff := h.offset_nonneg
      refine ⟨hplaced, ?_, ?_⟩
      · change 0 ≤ u.reader.offset
        rw [hreader]
        exact Int.add_nonneg hoff (Int.natCast_nonneg _)
      · intro g hg hne
        apply h.unnoticed g (.inl (hg.elim id (by simp [hfile])))
        simpa only [hreader] using hne
  | stat ok u hfrom hpres hreader hfile =>
      by_cases hsame : u.reader = s.watch.reader
      · exact h.idle hplaced hsame (by simp [hfile])
      · obtain ⟨g, hpath, -, hnew⟩ := switched hreader hsame
        refine ⟨hplaced, by simp [hnew], ?_⟩
        rintro k (hk | hk) hne
        · have hgk : g = k := Option.some.inj (hpath.symm.trans hk)
          exact absurd hgk.symm (by simpa [hnew] using hne)
        · simp [hfile] at hk

end Orderly

variable {τ : Type}

/-- Every string given to `handle_lines` is a terminated line of one
generation. -/
def WholeLines (s : Scene (LineFlowHandler τ)) : Prop :=
  ∀ line ∈ s.watch.handler.emitted, ∃ g ∈ s.disk.used, line ∈ lines newline (s.disk.content g)

instance (s : Scene (LineFlowHandler τ)) : Decidable s.WholeLines :=
  inferInstanceAs (Decidable (∀ line ∈ s.watch.handler.emitted, ∃ g ∈ s.disk.used,
    line ∈ lines newline (s.disk.content g)))

/-- The strings given to `handle_lines` are the lines of the bytes passed of
each generation on its own. -/
def IsolatedLines (s : Scene (LineFlowHandler τ)) : Prop :=
  (s.watch.handler.emitted : Multiset Bytes) =
    ∑ g ∈ sources (feedOf s.watch.passed), (lines newline (bytesOf g s.watch.passed) :
      Multiset Bytes)

/-- A chunk that holds a newline is passed only when what was passed of every
other generation ends with a newline or is empty. -/
def EndsAtNewline (s : Scene (LineFlowHandler τ)) (m : Move) : Prop :=
  m = .call → Undisturbed newline (feedOf s.watch.passed) s.watch.source.1 s.watch.chunk

instance (s : Scene (LineFlowHandler τ)) (m : Move) : Decidable (s.EndsAtNewline m) :=
  inferInstanceAs (Decidable (m = .call →
    Undisturbed newline (feedOf s.watch.passed) s.watch.source.1 s.watch.chunk))

/-- The invariant of the agent, its line handler and the disk. -/
structure Split (s : Scene (LineFlowHandler τ)) : Prop where
  calm : s.Calm
  lined : s.watch.Lined
  consumed : ∃ n, s.Consumed n
  balanced : Balanced newline (feedOf s.watch.passed)

namespace Split

variable {s t : Scene (LineFlowHandler τ)}

theorem isolatedLines_iff (h : s.watch.Lined) :
    s.IsolatedLines ↔ Isolated newline (feedOf s.watch.passed) := by
  rw [IsolatedLines, h.emitted]
  rfl

theorem wholeLines (h : s.Split) : s.WholeLines := by
  intro line hline
  rw [h.lined.emitted] at hline
  obtain ⟨g, hg⟩ := h.balanced.isolated.exists_own hline
  obtain ⟨n, hn⟩ := h.consumed
  have hpre := bytesOf_mono s.watch.passed_prefix_presented g
  rw [hn.bytes g] at hpre
  refine ⟨g, ?_, lines_mono (hpre.trans (List.take_prefix _ _)) hg⟩
  by_contra hunused
  have hnil : own g (feedOf s.watch.passed) = [] := by
    rw [hn.unused g hunused, List.take_zero] at hpre
    exact List.prefix_nil.mp hpre
  simp [hnil] at hg

variable {L : LineHandler τ} {limit : Int} {m : Move}

theorem passed_cases (h : s.watch.Lined)
    (hstep : (((LineFlowHandler.accepting L).agent limit).onDisk rotating).step s m =
      some t) :
    t.watch.Lined ∧
      ((m ≠ .call ∧ t.watch.passed = s.watch.passed) ∨
        (m = .call ∧ feedOf t.watch.passed =
          feedOf s.watch.passed ++ [(s.watch.source.1, s.watch.chunk)])) := by
  rcases FileAgent.sceneStep_cases hstep with ⟨e, d, rfl, -, -, rfl⟩ | ⟨o, u, ho, hu, rfl⟩
  · exact ⟨h, .inl ⟨by simp, rfl⟩⟩
  refine ⟨h.step hu, ?_⟩
  rcases Watch.line_step_cases h.smooth.sound hu with ⟨hne, -, hcalls⟩ | ⟨rfl, -, -, hcalls⟩
  · refine .inl ⟨?_, by simp [Watch.passed, hcalls]⟩
    rintro rfl
    exact hne (Option.some.inj ho).symm
  · refine .inr ⟨?_, ?_⟩
    · cases m <;> simp_all [FileAgent.observe]
    · simp [Watch.passed, hcalls, feedOf, Call.span, Call.bytes, Watch.callWith, Watch.chunk]

theorem step (h : s.Split) (hR : s.ReadToEnd m)
    (hstep : (((LineFlowHandler.accepting L).agent limit).onDisk rotating).step s m =
      some t) :
    (t.IsolatedLines ↔ s.EndsAtNewline m) ∧ (s.EndsAtNewline m → t.Split) := by
  obtain ⟨n, hn⟩ := h.consumed
  have hcalm := h.calm.step (H := LineFlowHandler.accepting L) hR hstep
  have hconsumed := hn.step (H := LineFlowHandler.accepting L) (h.calm.unmixed m) hstep
  obtain ⟨hlined, ⟨hm, hpassed⟩ | ⟨rfl, hfeed⟩⟩ := passed_cases h.lined hstep
  · have hbalanced : Balanced newline (feedOf t.watch.passed) := hpassed ▸ h.balanced
    rw [isolatedLines_iff hlined]
    exact ⟨⟨fun _ hcall ↦ absurd hcall hm, fun _ ↦ hbalanced.isolated⟩,
      fun _ ↦ ⟨hcalm, hlined, hconsumed, hbalanced⟩⟩
  · rw [isolatedLines_iff hlined, hfeed]
    refine ⟨⟨fun hiso _ ↦ h.balanced.undisturbed_of_isolated hiso,
      fun hC ↦ (h.balanced.concat (hC rfl)).isolated⟩, ?_⟩
    intro hC
    exact ⟨hcalm, hlined, hconsumed, hfeed ▸ h.balanced.concat (hC rfl)⟩

theorem start (first : Option (ℕ+ × Bytes)) (openOk statOk : Bool)
    (hstat : statOk = true ∨ ∀ p ∈ first, p.2 = []) (runTime : Int) (t : τ) :
    (Scene.unrotated first openOk statOk runTime
      (LineFlowHandler.fresh t)).Split := by
  refine ⟨⟨.start first openOk statOk runTime _, ?_, ?_⟩, .start _ _ _,
    ⟨_, .start first openOk statOk runTime _⟩, ?_⟩
  · exact Int.le_refl 0
  · intro g hg hne
    rcases first with _ | ⟨ino, bytes⟩
    · rfl
    · obtain rfl : (ino : ℕ) = g := by
        simpa [Scene.start, Disk.initial, Disk.single, Watch.start, Pc.file] using hg
      rcases hstat with rfl | hempty
      · simp [Scene.start, Disk.initial, Disk.single, Watch.start, FileReader.new] at hne
      · simpa [Scene.start, Disk.initial, Disk.single] using hempty _ rfl
  · exact balanced_nil

end Split

end Scene

section Runs

variable {τ : Type} (L : LineHandler τ) (limit : Int) (first : Option (ℕ+ × Bytes))
  (openOk statOk : Bool) (runTime : Int) (t : τ) (moves : List Move)

/-- Along every run in which the writer waits for the agent: the lines handed
over are those of the generations one by one exactly if every newline arrives
with no other generation unfinished, and then each of them is a line of a
single generation. -/
theorem rotated_lines_whole (hstat : statOk = true ∨ ∀ p ∈ first, p.2 = [])
    (hR : (((LineFlowHandler.accepting L).agent limit).onDisk rotating).EachStep Scene.ReadToEnd
      (Scene.unrotated first openOk statOk runTime (.fresh t)) moves) :
    ((((LineFlowHandler.accepting L).agent limit).onDisk rotating).Always Scene.IsolatedLines
        (Scene.unrotated first openOk statOk runTime (.fresh t)) moves ↔
      (((LineFlowHandler.accepting L).agent limit).onDisk rotating).EachStep Scene.EndsAtNewline
        (Scene.unrotated first openOk statOk runTime (.fresh t)) moves) ∧
    ((((LineFlowHandler.accepting L).agent limit).onDisk rotating).EachStep Scene.EndsAtNewline
        (Scene.unrotated first openOk statOk runTime (.fresh t)) moves →
      (((LineFlowHandler.accepting L).agent limit).onDisk rotating).Always Scene.WholeLines
        (Scene.unrotated first openOk statOk runTime (.fresh t)) moves) := by
  have hstart := Scene.Split.start first openOk statOk hstat runTime t
  constructor
  · exact always_iff_eachStep_of
      (fun s h ↦ (Scene.Split.isolatedLines_iff h.lined).mpr h.balanced.isolated)
      (fun _ _ _ h hR hstep ↦ h.step hR hstep) hstart hR
  · intro hC
    have hall := always_of_eachStep
      (fun _ _ _ h (hC : _ ∧ _) hstep ↦ (h.step hC.1 hstep).2 hC.2) hstart (hR.and hC)
    exact hall.mono fun _ h ↦ h.wholeLines

end Runs

theorem rotated_lines_whole_terminated :
    (((LineFlowHandler.accepting LineHandler.base).agent (-1)).onDisk rotating).Always
      Scene.WholeLines (Scene.unrotated (some (1, [97, 10])) true true 0 (.fresh ()))
      (Move.pass ++ [.write .rename, .write (.create 2)] ++ Move.emptyPass ++
        [.write (.append 2 [98, 10])] ++ Move.pass) :=
  (rotated_lines_whole LineHandler.base (-1) (some (1, [97, 10])) true true 0 () _ (.inl rfl)
    (by decide +kernel)).2 (by decide +kernel)

/-- The first generation ends in the middle of a line, and its last bytes are
put in front of the first line of the second. -/
theorem not_always_wholeLines :
    (((LineFlowHandler.accepting LineHandler.base).agent (-1)).onDisk rotating).EachStep
        Scene.ReadToEnd (Scene.unrotated (some (1, [97])) true true 0 (.fresh ()))
        (Move.pass ++ [.write .rename, .write (.create 2)] ++ Move.emptyPass ++
          [.write (.append 2 [98, 10])] ++ Move.pass) ∧
      ¬(((LineFlowHandler.accepting LineHandler.base).agent (-1)).onDisk rotating).Always
        Scene.WholeLines (Scene.unrotated (some (1, [97])) true true 0 (.fresh ()))
        (Move.pass ++ [.write .rename, .write (.create 2)] ++ Move.emptyPass ++
          [.write (.append 2 [98, 10])] ++ Move.pass) := by
  decide +kernel

end SimpleFlow
