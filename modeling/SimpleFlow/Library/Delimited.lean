import Mathlib.Data.List.Basic
import Mathlib.Data.List.Flatten

/-!
# Splitting a growing list at a separator

`terminated sep xs` are the pieces of `xs` that a separator closes and
`remainder sep xs` is what follows the last separator. Both are read off the
library's `List.splitOn`. A consumer that has seen `xs` needs only
`remainder sep xs` to go on: that is `terminated_append`.
-/

namespace Delimited

variable {α : Type*} [DecidableEq α] (sep : α)

/-- The pieces of `xs` that end at a separator, in order, without it. -/
def terminated (xs : List α) : List (List α) :=
  (xs.splitOn sep).dropLast

/-- What follows the last separator of `xs`; all of `xs` when it has none. -/
def remainder (xs : List α) : List α :=
  (xs.splitOn sep).getLast (List.splitOn_ne_nil sep xs)

/-- The pieces that are not empty. -/
def lines (xs : List α) : List (List α) :=
  (terminated sep xs).filter fun piece ↦ !piece.isEmpty

variable {sep}

theorem splitOn_eq (xs : List α) :
    xs.splitOn sep = terminated sep xs ++ [remainder sep xs] :=
  (List.dropLast_append_getLast (List.splitOn_ne_nil sep xs)).symm

theorem eq_of_splitOn_eq {xs r : List α} {ps : List (List α)}
    (h : xs.splitOn sep = ps ++ [r]) : terminated sep xs = ps ∧ remainder sep xs = r := by
  rw [splitOn_eq] at h
  obtain ⟨hps, hr⟩ := List.append_inj' h rfl
  exact ⟨hps, List.singleton_inj.mp hr⟩

theorem of_notMem {xs : List α} (h : sep ∉ xs) :
    terminated sep xs = [] ∧ remainder sep xs = xs :=
  eq_of_splitOn_eq (by simpa using List.splitOn_eq_singleton h)

theorem terminated_of_notMem {xs : List α} (h : sep ∉ xs) : terminated sep xs = [] :=
  (of_notMem h).1

theorem remainder_of_notMem {xs : List α} (h : sep ∉ xs) : remainder sep xs = xs :=
  (of_notMem h).2

@[simp] theorem terminated_nil : terminated sep ([] : List α) = [] :=
  terminated_of_notMem (by simp)

@[simp] theorem remainder_nil : remainder sep ([] : List α) = [] :=
  remainder_of_notMem (by simp)

variable (sep) in
theorem of_append_cons (xs ys : List α) :
    terminated sep (xs ++ sep :: ys) =
        terminated sep xs ++ remainder sep xs :: terminated sep ys ∧
      remainder sep (xs ++ sep :: ys) = remainder sep ys := by
  apply eq_of_splitOn_eq
  rw [List.splitOn_append_cons_self, splitOn_eq xs, splitOn_eq ys]
  simp

/-- Either there is no separator, or the list is cut at the last one. -/
theorem eq_append_cons_of_mem {xs : List α} (h : sep ∈ xs) :
    ∃ front back, xs = front ++ sep :: back ∧ sep ∉ back := by
  induction xs with
  | nil => simp at h
  | cons x xs ih =>
      by_cases hxs : sep ∈ xs
      · obtain ⟨front, back, heq, hback⟩ := ih hxs
        exact ⟨x :: front, back, by simp [heq], hback⟩
      · have hx : sep = x := by simpa [hxs] using h
        exact ⟨[], xs, by simp [hx], hxs⟩

theorem sep_notMem_remainder (xs : List α) : sep ∉ remainder sep xs := by
  by_cases h : sep ∈ xs
  · obtain ⟨front, back, rfl, hback⟩ := eq_append_cons_of_mem h
    rw [(of_append_cons sep front back).2, remainder_of_notMem hback]
    exact hback
  · rwa [remainder_of_notMem h]

variable (sep) in
/-- The remainder is a final part of the list, and it starts right after a
separator or at the beginning. -/
theorem exists_append_remainder (xs : List α) :
    ∃ front, xs = front ++ remainder sep xs ∧ (front = [] ∨ front.getLast? = some sep) := by
  by_cases h : sep ∈ xs
  · obtain ⟨front, back, rfl, hback⟩ := eq_append_cons_of_mem h
    refine ⟨front ++ [sep], ?_, Or.inr (by simp)⟩
    rw [(of_append_cons sep front back).2, remainder_of_notMem hback]
    simp
  · exact ⟨[], by simp [remainder_of_notMem h], Or.inl rfl⟩

/-- Only the remainder of what was seen decides how the next part is cut. -/
theorem of_append (xs ys : List α) :
    terminated sep (xs ++ ys) = terminated sep xs ++ terminated sep (remainder sep xs ++ ys) ∧
      remainder sep (xs ++ ys) = remainder sep (remainder sep xs ++ ys) := by
  by_cases h : sep ∈ xs
  · obtain ⟨front, back, rfl, hback⟩ := eq_append_cons_of_mem h
    have hxs := of_append_cons sep front back
    have hxys := of_append_cons sep front (back ++ ys)
    rw [hxs.1, hxs.2, remainder_of_notMem hback, terminated_of_notMem hback,
      List.append_assoc, List.cons_append, hxys.1, hxys.2]
    simp
  · rw [terminated_of_notMem h, remainder_of_notMem h]
    simp

theorem terminated_append (xs ys : List α) :
    terminated sep (xs ++ ys) = terminated sep xs ++ terminated sep (remainder sep xs ++ ys) :=
  (of_append xs ys).1

theorem remainder_append (xs ys : List α) :
    remainder sep (xs ++ ys) = remainder sep (remainder sep xs ++ ys) :=
  (of_append xs ys).2

theorem remainder_eq_nil_iff (xs : List α) :
    remainder sep xs = [] ↔ xs = [] ∨ xs.getLast? = some sep := by
  obtain ⟨front, hxs, hfront⟩ := exists_append_remainder sep xs
  constructor
  · intro h
    rw [h, List.append_nil] at hxs
    exact hxs ▸ hfront
  · rintro (rfl | hlast)
    · exact remainder_nil
    · obtain ⟨ys, rfl⟩ := List.getLast?_eq_some_iff.mp hlast
      rw [(of_append_cons sep ys []).2, remainder_nil]

/-! ## Lines -/

@[simp] theorem lines_nil : lines sep ([] : List α) = [] := by simp [lines]

theorem lines_of_notMem {xs : List α} (h : sep ∉ xs) : lines sep xs = [] := by
  simp [lines, terminated_of_notMem h]

theorem lines_append (xs ys : List α) :
    lines sep (xs ++ ys) = lines sep xs ++ lines sep (remainder sep xs ++ ys) := by
  simp [lines, terminated_append xs ys]

theorem lines_append_cons {xs : List α} (h : sep ∉ xs) (ys : List α) :
    lines sep (xs ++ sep :: ys) = (if xs = [] then [] else [xs]) ++ lines sep ys := by
  unfold lines
  rw [(of_append_cons sep xs ys).1, terminated_of_notMem h, remainder_of_notMem h]
  cases xs <;> simp

theorem lines_append_of_notMem {xs ys : List α} (h : sep ∉ ys) :
    lines sep (xs ++ ys) = lines sep xs := by
  have hopen : sep ∉ remainder sep xs ++ ys := by
    simpa [h] using sep_notMem_remainder xs
  rw [lines_append, lines_of_notMem hopen, List.append_nil]

theorem remainder_append_of_notMem {xs ys : List α} (h : sep ∉ ys) :
    remainder sep (xs ++ ys) = remainder sep xs ++ ys := by
  have hopen : sep ∉ remainder sep xs ++ ys := by
    simpa [h] using sep_notMem_remainder xs
  rw [remainder_append, remainder_of_notMem hopen]

theorem length_flatten_lines_append_cons {xs : List α} (h : sep ∉ xs) (ys : List α) :
    (lines sep (xs ++ sep :: ys)).flatten.length = xs.length + (lines sep ys).flatten.length := by
  rw [lines_append_cons h]
  by_cases hxs : xs = [] <;> simp [hxs]

theorem lines_mono {xs ys : List α} (h : xs <+: ys) : lines sep xs ⊆ lines sep ys := by
  obtain ⟨tail, rfl⟩ := h
  rw [lines_append]
  exact List.subset_append_left _ _

theorem splitOn_filter_eq (xs : List α) :
    (xs.splitOn sep).filter (fun piece ↦ !piece.isEmpty) =
      lines sep xs ++ if remainder sep xs = [] then [] else [remainder sep xs] := by
  rw [splitOn_eq, List.filter_append, lines]
  cases h : remainder sep xs <;> simp

end Delimited
