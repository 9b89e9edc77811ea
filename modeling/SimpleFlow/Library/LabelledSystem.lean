import Mathlib.Data.List.Basic

/-!
# Runs of a system whose moves are named by labels

A label carries every choice that the environment and the scheduler make in
one move, so a run is the list of its labels. Properties of every state and
of every step of a run are defined along that list, and the rules below turn
facts about one step into facts about the whole run.
-/

/-- A label moves a state to at most one next state. -/
structure LabelledSystem (σ ℓ : Type*) where
  step : σ → ℓ → Option σ

namespace LabelledSystem

variable {σ ℓ : Type*} (M : LabelledSystem σ ℓ)

/-- The state reached when every label of the list can be taken in turn. -/
def exec : σ → List ℓ → Option σ
  | s, [] => some s
  | s, l :: ls => (M.step s l).bind fun t ↦ exec t ls

/-- `P` holds of every state that the run passes through. -/
def Always (P : σ → Prop) : σ → List ℓ → Prop
  | s, [] => P s
  | s, l :: ls => P s ∧ ∀ t, M.step s l = some t → Always P t ls

/-- Every step that the run takes meets `C`, a condition on the state before
the step and its label. -/
def EachStep (C : σ → ℓ → Prop) : σ → List ℓ → Prop
  | _, [] => True
  | s, l :: ls => ∀ t, M.step s l = some t → C s l ∧ EachStep C t ls

variable {M}

@[simp] theorem exec_nil (s : σ) : M.exec s [] = some s := rfl

theorem exec_cons (s : σ) (l : ℓ) (ls : List ℓ) :
    M.exec s (l :: ls) = (M.step s l).bind fun t ↦ M.exec t ls := rfl

theorem exec_append (s : σ) (ls ms : List ℓ) :
    M.exec s (ls ++ ms) = (M.exec s ls).bind fun t ↦ M.exec t ms := by
  induction ls generalizing s with
  | nil => rfl
  | cons l ls ih =>
      cases h : M.step s l with
      | none => simp [exec_cons, h]
      | some t => simpa [exec_cons, h] using ih t

theorem exec_concat (s : σ) (ls : List ℓ) (l : ℓ) :
    M.exec s (ls ++ [l]) = (M.exec s ls).bind fun t ↦ M.step t l := by
  rw [exec_append]
  congr 1
  funext t
  cases h : M.step t l <;> simp [exec_cons, h]

/-! ## Invariants -/

theorem exec_cons_eq_some {s t : σ} {l : ℓ} {ls : List ℓ} (h : M.exec s (l :: ls) = some t) :
    ∃ u, M.step s l = some u ∧ M.exec u ls = some t := by
  cases hu : M.step s l with
  | none => simp [exec_cons, hu] at h
  | some u => exact ⟨u, rfl, by simpa [exec_cons, hu] using h⟩

theorem exec_invariant_of_mem {P : σ → Prop} {C : ℓ → Prop}
    (hstep : ∀ s l t, P s → C l → M.step s l = some t → P t)
    {s t : σ} {ls : List ℓ} (hs : P s) (hC : ∀ l ∈ ls, C l) (hrun : M.exec s ls = some t) :
    P t := by
  induction ls generalizing s with
  | nil =>
      have heq : s = t := Option.some.inj hrun
      exact heq ▸ hs
  | cons l ls ih =>
      obtain ⟨u, hu, hrest⟩ := exec_cons_eq_some hrun
      obtain ⟨hCl, hCls⟩ := List.forall_mem_cons.mp hC
      exact ih (hstep s l u hs hCl hu) hCls hrest

theorem exec_invariant {P : σ → Prop} (hstep : ∀ s l t, P s → M.step s l = some t → P t)
    {s t : σ} {ls : List ℓ} (hs : P s) (hrun : M.exec s ls = some t) : P t :=
  exec_invariant_of_mem (fun s l t h _ ↦ hstep s l t h) hs (fun _ _ ↦ trivial) hrun

/-- Each step lowers the rank, or is paid for, until `Q` holds for good: a run
is no longer than the rank it starts from and what it has paid. -/
theorem exec_rank {P Q : σ → Prop} {C : ℓ → Prop} {rank paid : σ → ℕ}
    (hstep : ∀ s l t, P s → C l → M.step s l = some t →
      Q t ∨ P t ∧ rank t + paid s + 1 ≤ rank s + paid t)
    (hstay : ∀ s l t, Q s → C l → M.step s l = some t → Q t)
    {s t : σ} {ls : List ℓ} (hs : P s) (hC : ∀ l ∈ ls, C l) (hrun : M.exec s ls = some t) :
    Q t ∨ P t ∧ rank t + paid s + ls.length ≤ rank s + paid t := by
  induction ls generalizing s with
  | nil =>
      have heq : s = t := Option.some.inj hrun
      subst heq
      exact .inr ⟨hs, by simp⟩
  | cons l ls ih =>
      obtain ⟨u, hu, hrest⟩ := exec_cons_eq_some hrun
      obtain ⟨hCl, hCls⟩ := List.forall_mem_cons.mp hC
      rcases hstep s l u hs hCl hu with hQ | ⟨hP, hlower⟩
      · exact .inl (exec_invariant_of_mem hstay hQ hCls hrest)
      · rcases ih hP hCls hrest with hQ | ⟨hPt, hle⟩
        · exact .inl hQ
        · refine .inr ⟨hPt, ?_⟩
          rw [List.length_cons]
          omega

/-- An invariant of the steps that meet `C` holds throughout a run all of
whose steps meet `C`. -/
theorem always_of_eachStep {P : σ → Prop} {C : σ → ℓ → Prop}
    (hstep : ∀ s l t, P s → C s l → M.step s l = some t → P t)
    {s : σ} {ls : List ℓ} (hs : P s) (hC : M.EachStep C s ls) : M.Always P s ls := by
  induction ls generalizing s with
  | nil => exact hs
  | cons l ls ih =>
      refine ⟨hs, ?_⟩
      intro t ht
      obtain ⟨hCl, hrest⟩ := hC t ht
      exact ih (hstep s l t hs hCl ht) hrest

theorem always_of_invariant {P : σ → Prop} (hstep : ∀ s l t, P s → M.step s l = some t → P t)
    {s : σ} (hs : P s) (ls : List ℓ) : M.Always P s ls := by
  induction ls generalizing s with
  | nil => exact hs
  | cons l ls ih => exact ⟨hs, fun t ht ↦ ih (hstep s l t hs ht)⟩

theorem Always.mono {P Q : σ → Prop} (hPQ : ∀ s, P s → Q s) {s : σ} {ls : List ℓ}
    (h : M.Always P s ls) : M.Always Q s ls := by
  induction ls generalizing s with
  | nil => exact hPQ s h
  | cons l ls ih => exact ⟨hPQ s h.1, fun t ht ↦ ih (h.2 t ht)⟩

/-- Under an invariant of the steps that meet `C`, each such step has every
property that the invariant and `C` give it. -/
theorem eachStep_of_eachStep {P : σ → Prop} {C D : σ → ℓ → Prop}
    (hstep : ∀ s l t, P s → C s l → M.step s l = some t → P t)
    (hD : ∀ s l t, P s → C s l → M.step s l = some t → D s l)
    {s : σ} {ls : List ℓ} (hs : P s) (hC : M.EachStep C s ls) : M.EachStep D s ls := by
  induction ls generalizing s with
  | nil => trivial
  | cons l ls ih =>
      intro t ht
      obtain ⟨hCl, hrest⟩ := hC t ht
      exact ⟨hD s l t hs hCl ht, ih (hstep s l t hs hCl ht) hrest⟩

theorem EachStep.and {C D : σ → ℓ → Prop} {s : σ} {ls : List ℓ} (hC : M.EachStep C s ls)
    (hD : M.EachStep D s ls) : M.EachStep (fun s l ↦ C s l ∧ D s l) s ls := by
  induction ls generalizing s with
  | nil => trivial
  | cons l ls ih =>
      intro t ht
      exact ⟨⟨(hC t ht).1, (hD t ht).1⟩, ih (hC t ht).2 (hD t ht).2⟩

/-- In a run whose steps all meet `R`: when a step from a good state leads to
a good state exactly if it meets `C`, the run stays good exactly if each of its
steps meets `C`. -/
theorem always_iff_eachStep_of {P I : σ → Prop} {R C : σ → ℓ → Prop}
    (hstart : ∀ s, I s → P s)
    (hstep : ∀ s l t, I s → R s l → M.step s l = some t → (P t ↔ C s l) ∧ (C s l → I t))
    {s : σ} {ls : List ℓ} (hs : I s) (hR : M.EachStep R s ls) :
    M.Always P s ls ↔ M.EachStep C s ls := by
  induction ls generalizing s with
  | nil => exact ⟨fun _ ↦ trivial, fun _ ↦ hstart s hs⟩
  | cons l ls ih =>
      constructor
      · rintro ⟨-, hrest⟩ t ht
        obtain ⟨hRl, hRrest⟩ := hR t ht
        obtain ⟨hiff, hnext⟩ := hstep s l t hs hRl ht
        have hPt : P t := by
          cases ls with
          | nil => exact hrest t ht
          | cons m ms => exact (hrest t ht).1
        have hC : C s l := hiff.mp hPt
        exact ⟨hC, (ih (hnext hC) hRrest).mp (hrest t ht)⟩
      · intro hC
        refine ⟨hstart s hs, ?_⟩
        intro t ht
        obtain ⟨hRl, hRrest⟩ := hR t ht
        obtain ⟨hCl, hrest⟩ := hC t ht
        exact (ih ((hstep s l t hs hRl ht).2 hCl) hRrest).mpr hrest

theorem EachStep.append {C : σ → ℓ → Prop} {s : σ} {ls ms : List ℓ}
    (h : M.EachStep C s (ls ++ ms)) :
    M.EachStep C s ls ∧ ∀ t, M.exec s ls = some t → M.EachStep C t ms := by
  induction ls generalizing s with
  | nil =>
      refine ⟨trivial, ?_⟩
      intro t ht
      obtain rfl : s = t := Option.some.inj ht
      exact h
  | cons l ls ih =>
      refine ⟨fun u hu ↦ ⟨(h u hu).1, (ih (h u hu).2).1⟩, ?_⟩
      intro t ht
      obtain ⟨u, hu, hrest⟩ := exec_cons_eq_some ht
      exact (ih (h u hu).2).2 t hrest

theorem eachStep_append {C : σ → ℓ → Prop} {s : σ} {ls ms : List ℓ} (hls : M.EachStep C s ls)
    (hms : ∀ t, M.exec s ls = some t → M.EachStep C t ms) : M.EachStep C s (ls ++ ms) := by
  induction ls generalizing s with
  | nil => exact hms s rfl
  | cons l ls ih =>
      intro t ht
      refine ⟨(hls t ht).1, ih (hls t ht).2 ?_⟩
      intro u hu
      apply hms u
      rw [exec_cons, ht]
      exact hu

theorem eachStep_true (s : σ) (ls : List ℓ) : M.EachStep (fun _ _ ↦ True) s ls := by
  induction ls generalizing s with
  | nil => trivial
  | cons l ls ih => exact fun t _ ↦ ⟨trivial, ih t⟩

theorem always_iff_eachStep {P I : σ → Prop} {C : σ → ℓ → Prop}
    (hstart : ∀ s, I s → P s)
    (hstep : ∀ s l t, I s → M.step s l = some t → (P t ↔ C s l) ∧ (C s l → I t))
    {s : σ} {ls : List ℓ} (hs : I s) : M.Always P s ls ↔ M.EachStep C s ls :=
  always_iff_eachStep_of hstart (fun s l t hI _ ↦ hstep s l t hI) hs (eachStep_true s ls)

/-- `Always` says what its name says: each state reached by an initial part
of the run has the property. -/
theorem always_iff {P : σ → Prop} {s : σ} {ls : List ℓ} :
    M.Always P s ls ↔ ∀ ms, ms <+: ls → ∀ t, M.exec s ms = some t → P t := by
  induction ls generalizing s with
  | nil =>
      constructor
      · intro h ms hms t ht
        rw [List.prefix_nil.mp hms] at ht
        have heq : s = t := Option.some.inj ht
        exact heq ▸ h
      · intro h
        exact h [] List.prefix_rfl s rfl
  | cons l ls ih =>
      constructor
      · rintro ⟨hs, hrest⟩ ms hms t ht
        cases ms with
        | nil =>
            have heq : s = t := Option.some.inj ht
            exact heq ▸ hs
        | cons m ms =>
            obtain ⟨rfl, hms'⟩ := List.cons_prefix_cons.mp hms
            cases hu : M.step s m with
            | none => simp [exec_cons, hu] at ht
            | some u =>
                have ht' : M.exec u ms = some t := by simpa [exec_cons, hu] using ht
                exact ih.mp (hrest u hu) ms hms' t ht'
      · intro h
        refine ⟨h [] (List.nil_prefix) s rfl, ?_⟩
        intro u hu
        apply ih.mpr
        intro ms hms t ht
        apply h (l :: ms) (List.cons_prefix_cons.mpr ⟨rfl, hms⟩) t
        simpa [exec_cons, hu] using ht

theorem Always.last {P : σ → Prop} {s t : σ} {ls : List ℓ} (h : M.Always P s ls)
    (hrun : M.exec s ls = some t) : P t :=
  always_iff.mp h ls List.prefix_rfl t hrun

theorem Always.head {P : σ → Prop} {s : σ} {ls : List ℓ} (h : M.Always P s ls) : P s := by
  cases ls with
  | nil => exact h
  | cons l ls => exact h.1

theorem Always.eachStep {P : σ → Prop} {s : σ} {ls : List ℓ} (h : M.Always P s ls) :
    M.EachStep (fun s _ ↦ P s) s ls := by
  induction ls generalizing s with
  | nil => trivial
  | cons l ls ih => exact fun t ht ↦ ⟨h.1, ih (h.2 t ht)⟩

/-- A run that does not have the property throughout and ends with it has a last
step that brings it about. -/
theorem exec_last_entry {P : σ → Prop} {s t : σ} {ls : List ℓ} (hrun : M.exec s ls = some t)
    (hnot : ¬M.Always P s ls) (hend : P t) :
    ∃ before l after u u', ls = before ++ l :: after ∧ M.exec s before = some u ∧ ¬P u ∧
      M.step u l = some u' ∧ M.exec u' after = some t ∧ M.Always P u' after := by
  induction ls generalizing s with
  | nil =>
      obtain rfl : s = t := Option.some.inj hrun
      exact absurd hend hnot
  | cons l ls ih =>
      obtain ⟨u, hu, hrest⟩ := exec_cons_eq_some hrun
      by_cases hafter : M.Always P u ls
      · have hs : ¬P s := by
          intro hs
          apply hnot
          refine ⟨hs, fun w hw ↦ ?_⟩
          obtain rfl : u = w := Option.some.inj (hu.symm.trans hw)
          exact hafter
        exact ⟨[], l, ls, s, u, rfl, rfl, hs, hu, hrest, hafter⟩
      · obtain ⟨before, m, after, w, w', rfl, hbefore, hw, hstep, hlast, halways⟩ :=
          ih hrest hafter
        refine ⟨l :: before, m, after, w, w', rfl, ?_, hw, hstep, hlast, halways⟩
        rw [exec_cons, hu]
        exact hbefore

/-! ## Deciding a given run -/

instance Always.decide {P : σ → Prop} [DecidablePred P] (s : σ) :
    (ls : List ℓ) → Decidable (M.Always P s ls)
  | [] => inferInstanceAs (Decidable (P s))
  | l :: ls =>
      match h : M.step s l with
      | none => decidable_of_iff (P s) ⟨fun hs ↦ ⟨hs, by simp [h]⟩, fun hs ↦ hs.1⟩
      | some t =>
          have := Always.decide (P := P) t ls
          decidable_of_iff (P s ∧ M.Always P t ls)
            ⟨fun hs ↦ ⟨hs.1, by simpa [h] using hs.2⟩, fun hs ↦ ⟨hs.1, hs.2 t h⟩⟩

instance EachStep.decide {C : σ → ℓ → Prop} [∀ s l, Decidable (C s l)] (s : σ) :
    (ls : List ℓ) → Decidable (M.EachStep C s ls)
  | [] => isTrue trivial
  | l :: ls =>
      match h : M.step s l with
      | none => isTrue (by simp [EachStep, h])
      | some t =>
          have := EachStep.decide (C := C) t ls
          decidable_of_iff (C s l ∧ M.EachStep C t ls)
            ⟨fun hs ↦ by simpa [EachStep, h] using hs, fun hs ↦ hs t h⟩

end LabelledSystem
