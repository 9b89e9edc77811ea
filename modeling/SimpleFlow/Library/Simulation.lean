import SimpleFlow.Library.LabelledSystem

/-!
# Forward simulations

A step of the one system is matched by a run of the other, which may be empty.
The labels of that run are a function of the step, so the runs of the first
system have images that can be computed, and what holds along every run of the
second carries over to the first.
-/

namespace LabelledSystem

variable {σ τ ℓ κ : Type*}

/-- Each step of `M` between related states is matched by the run of `N` that
`f` names. -/
def Simulates (M : LabelledSystem σ ℓ) (N : LabelledSystem τ κ) (R : σ → τ → Prop)
    (f : σ → ℓ → List κ) : Prop :=
  ∀ s l t u, R s u → M.step s l = some t → ∃ v, N.exec u (f s l) = some v ∧ R t v

/-- The labels of the matching run. -/
def image (M : LabelledSystem σ ℓ) (f : σ → ℓ → List κ) : σ → List ℓ → List κ
  | _, [] => []
  | s, l :: ls =>
      f s l ++
        match M.step s l with
        | none => []
        | some t => image M f t ls

variable {M : LabelledSystem σ ℓ} {N : LabelledSystem τ κ} {R : σ → τ → Prop}
  {f : σ → ℓ → List κ}

theorem image_cons {s t : σ} {l : ℓ} (h : M.step s l = some t) (ls : List ℓ) :
    M.image f s (l :: ls) = f s l ++ M.image f t ls := by
  simp [image, h]

theorem exec_append_of_exec {s t : σ} {ls : List ℓ} (h : M.exec s ls = some t) (ms : List ℓ) :
    M.exec s (ls ++ ms) = M.exec t ms := by
  rw [exec_append, h]
  rfl

theorem Simulates.exec (h : M.Simulates N R f) {s t : σ} {u : τ} {ls : List ℓ} (hR : R s u)
    (hrun : M.exec s ls = some t) : ∃ v, N.exec u (M.image f s ls) = some v ∧ R t v := by
  induction ls generalizing s u with
  | nil =>
      obtain rfl : s = t := Option.some.inj hrun
      exact ⟨u, rfl, hR⟩
  | cons l ls ih =>
      obtain ⟨s', hstep, hrest⟩ := exec_cons_eq_some hrun
      obtain ⟨u', hu', hR'⟩ := h s l s' u hR hstep
      obtain ⟨v, hv, hRv⟩ := ih hR' hrest
      refine ⟨v, ?_, hRv⟩
      rw [image_cons hstep, exec_append_of_exec hu']
      exact hv

/-- A condition on the steps of `M` that makes the matching runs meet `D` makes
the image of a run meet it. -/
theorem Simulates.eachStep (h : M.Simulates N R f) {C : σ → ℓ → Prop} {D : τ → κ → Prop}
    (hCD : ∀ s l t u, R s u → C s l → M.step s l = some t → N.EachStep D u (f s l))
    {s t : σ} {u : τ} {ls : List ℓ} (hR : R s u) (hrun : M.exec s ls = some t)
    (hC : M.EachStep C s ls) : N.EachStep D u (M.image f s ls) := by
  induction ls generalizing s u with
  | nil => trivial
  | cons l ls ih =>
      obtain ⟨s', hstep, hrest⟩ := exec_cons_eq_some hrun
      obtain ⟨hCl, hCls⟩ := hC s' hstep
      rw [image_cons hstep]
      apply eachStep_append (hCD s l s' u hR hCl hstep)
      intro u' hu'
      obtain ⟨v, hv, hR'⟩ := h s l s' u hR hstep
      obtain rfl : v = u' := Option.some.inj (hv.symm.trans hu')
      exact ih hR' hrest hCls

end LabelledSystem
