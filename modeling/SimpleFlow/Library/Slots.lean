import Mathlib.Algebra.GroupWithZero.Nat
import Mathlib.Data.List.Basic

/-!
# Slots that change one at a time

A list of slots in which one slot at a time is overwritten. What is counted or
collected over the slots changes only by the slot in question, and when at most
one slot has a property, that slot is the only one to look at.
-/

namespace Slots

variable {α β : Type*} {slots : List α} {i j : ℕ} {x y : α}

theorem set_getElem? (h : slots[i]? = some x) (y : α) (j : ℕ) :
    (slots.set i y)[j]? = if i = j then some y else slots[j]? := by
  obtain ⟨hi, -⟩ := List.getElem?_eq_some_iff.mp h
  by_cases hij : i = j
  · subst hij
    simp [hi]
  · simp [hij]

theorem mem_of_mem_set_of_ne (hmem : x ∈ slots.set i y) (hne : x ≠ y) : x ∈ slots :=
  (List.mem_or_eq_of_mem_set hmem).resolve_right hne

theorem forall_set {P : α → Prop} (h : ∀ z ∈ slots, P z) (hy : P y) (i : ℕ) :
    ∀ z ∈ slots.set i y, P z := by
  intro z hz
  by_cases hzy : z = y
  · exact hzy ▸ hy
  · exact h z (mem_of_mem_set_of_ne hz hzy)

theorem set_getElem?_self (h : slots[i]? = some x) (y : α) : (slots.set i y)[i]? = some y := by
  rw [set_getElem? h, if_pos rfl]

theorem exists_eq_append (h : slots[i]? = some x) :
    ∃ before after, slots = before ++ x :: after ∧ before.length = i := by
  obtain ⟨hi, rfl⟩ := List.getElem?_eq_some_iff.mp h
  refine ⟨slots.take i, slots.drop (i + 1), ?_, by simp; omega⟩
  rw [← List.drop_eq_getElem_cons hi, List.take_append_drop]

theorem countP_set_add (h : slots[i]? = some x) (p : α → Bool) (y : α) :
    (slots.set i y).countP p + (if p x then 1 else 0) =
      slots.countP p + (if p y then 1 else 0) := by
  obtain ⟨before, after, rfl, rfl⟩ := exists_eq_append h
  simp only [List.set_append, Nat.lt_irrefl, if_false, Nat.sub_self, List.set_cons_zero,
    List.countP_append, List.countP_cons]
  omega

theorem countP_set_toNat (h : slots[i]? = some x) (p : α → Bool) (y : α) :
    (slots.set i y).countP p + (p x).toNat = slots.countP p + (p y).toNat := by
  have hadd := countP_set_add h p y
  cases hx : p x <;> cases hy : p y <;> simpa [hx, hy] using hadd

theorem sum_map_set_add (h : slots[i]? = some x) (f : α → ℕ) (y : α) :
    ((slots.set i y).map f).sum + f x = (slots.map f).sum + f y := by
  obtain ⟨before, after, rfl, rfl⟩ := exists_eq_append h
  simp only [List.set_append, Nat.lt_irrefl, if_false, Nat.sub_self, List.set_cons_zero,
    List.map_append, List.map_cons, List.sum_append, List.sum_cons]
  omega

theorem countP_pos_of_getElem? (h : slots[i]? = some x) {p : α → Bool} (hp : p x = true) :
    0 < slots.countP p :=
  List.countP_pos_iff.mpr ⟨x, List.mem_of_getElem? h, hp⟩

theorem flatMap_eq_of_countP_le_one {p : α → Bool} {f : α → List β}
    (hf : ∀ z, p z = false → f z = []) (hone : slots.countP p ≤ 1) (hi : slots[i]? = some x)
    (hx : p x = true) : slots.flatMap f = f x := by
  obtain ⟨before, after, rfl, rfl⟩ := exists_eq_append hi
  rw [List.countP_append, List.countP_cons, if_pos hx] at hone
  have hnil : ∀ zs : List α, zs.countP p = 0 → zs.flatMap f = [] := by
    intro zs hzs
    rw [List.flatMap_eq_nil_iff]
    intro z hz
    exact hf z (by simpa using List.countP_eq_zero.mp hzs z hz)
  rw [List.flatMap_append, List.flatMap_cons, hnil before (by omega), hnil after (by omega)]
  simp

theorem eq_of_countP_le_one {p : α → Bool} (hone : slots.countP p ≤ 1) (hi : slots[i]? = some x)
    (hj : slots[j]? = some y) (hx : p x = true) (hy : p y = true) : x = y := by
  have hf : ∀ z, p z = false → (if p z then [z] else []) = [] := by
    intro z hz
    simp [hz]
  have hsame := (flatMap_eq_of_countP_le_one hf hone hi hx).symm.trans
    (flatMap_eq_of_countP_le_one hf hone hj hy)
  simpa [hx, hy] using hsame

theorem flatMap_set_of_eq {f : α → List β} (h : slots[i]? = some x) (hxy : f y = f x) :
    (slots.set i y).flatMap f = slots.flatMap f := by
  obtain ⟨before, after, rfl, rfl⟩ := exists_eq_append h
  simp [hxy]

end Slots
