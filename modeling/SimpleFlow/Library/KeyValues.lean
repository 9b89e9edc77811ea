import SimpleFlow.Library.Positions

/-!
# Pairs written with two separators

`pairs amp eq xs` reads `xs` as fields between `amp`s and each field as keys and
values between `eq`s. `render amp eq ps` writes each pair as a field. What is
written comes back exactly when neither separator occurs in it.
-/

namespace KeyValues

open Delimited

variable {α : Type*}

/-- Every second list is the value of the one before it. A key that comes last
has the value `[]`. -/
def twos : List (List α) → List (List α × List α)
  | [] => []
  | [key] => [(key, [])]
  | key :: value :: rest => (key, value) :: twos rest

theorem mem_of_mem_twos {xs : List (List α)} {p : List α × List α} (h : p ∈ twos xs) :
    p.1 ∈ xs ∧ (p.2 ∈ xs ∨ p.2 = []) := by
  induction xs using twos.induct with
  | case1 => cases h
  | case2 key =>
      obtain rfl : p = (key, []) := by simpa [twos] using h
      exact ⟨List.mem_singleton_self key, .inr rfl⟩
  | case3 key value rest ih =>
      rcases List.mem_cons.mp h with rfl | hrest
      · exact ⟨List.mem_cons_self, .inl (List.mem_cons_of_mem _ List.mem_cons_self)⟩
      · obtain ⟨hkey, hvalue⟩ := ih hrest
        have hmem : ∀ x ∈ rest, x ∈ key :: value :: rest := fun x hx ↦
          List.mem_cons_of_mem _ (List.mem_cons_of_mem _ hx)
        exact ⟨hmem _ hkey, hvalue.imp_left (hmem _)⟩

variable [DecidableEq α] (amp eq : α)

def ofField (xs : List α) : List (List α × List α) := twos (xs.splitOn eq)

def pairs (xs : List α) : List (List α × List α) := (xs.splitOn amp).flatMap (ofField eq)

def field (p : List α × List α) : List α := p.1 ++ eq :: p.2

def render (ps : List (List α × List α)) : List α := [amp].intercalate (ps.map (field eq))

/-- No separator occurs in it. -/
def Plain (xs : List α) : Prop := amp ∉ xs ∧ eq ∉ xs

instance (xs : List α) : Decidable (Plain amp eq xs) :=
  inferInstanceAs (Decidable (amp ∉ xs ∧ eq ∉ xs))

variable {amp eq}

theorem of_mem_splitOn {sep : α} {xs piece : List α} (h : piece ∈ xs.splitOn sep) :
    sep ∉ piece ∧ piece ⊆ xs := by
  induction xs using pieces_induction sep with
  | hlast xs hsep =>
      rw [List.splitOn_eq_singleton hsep, List.mem_singleton] at h
      subst h
      exact ⟨hsep, fun _ hx ↦ hx⟩
  | hpiece front back hfront ih =>
      rw [List.splitOn_append_cons_self_of_not_mem hfront] at h
      rcases List.mem_cons.mp h with rfl | hback
      · exact ⟨hfront, List.subset_append_left _ _⟩
      · obtain ⟨hnot, hsub⟩ := ih hback
        refine ⟨hnot, fun x hx ↦ ?_⟩
        exact List.mem_append_right _ (List.mem_cons_of_mem _ (hsub hx))

/-- Whatever is read is free of both separators. -/
theorem plain_of_mem_pairs {xs : List α} {p : List α × List α} (h : p ∈ pairs amp eq xs) :
    Plain amp eq p.1 ∧ Plain amp eq p.2 := by
  obtain ⟨piece, hpiece, hp⟩ := List.mem_flatMap.mp h
  obtain ⟨hamp, -⟩ := of_mem_splitOn hpiece
  have hplain : ∀ x ∈ piece.splitOn eq, Plain amp eq x := by
    intro x hx
    obtain ⟨heq, hsub⟩ := of_mem_splitOn hx
    exact ⟨fun hmem ↦ hamp (hsub hmem), heq⟩
  obtain ⟨hkey, hvalue⟩ := mem_of_mem_twos hp
  refine ⟨hplain _ hkey, ?_⟩
  rcases hvalue with hvalue | hvalue
  · exact hplain _ hvalue
  · rw [hvalue]
    exact ⟨List.not_mem_nil, List.not_mem_nil⟩

theorem ofField_field {p : List α × List α} (hkey : eq ∉ p.1) (hvalue : eq ∉ p.2) :
    ofField eq (field eq p) = [p] := by
  rw [ofField, field, List.splitOn_append_cons_self_of_not_mem hkey,
    List.splitOn_eq_singleton hvalue]
  rfl

omit [DecidableEq α] in
theorem amp_notMem_field (hne : amp ≠ eq) {p : List α × List α} (hkey : Plain amp eq p.1)
    (hvalue : Plain amp eq p.2) : amp ∉ field eq p := by
  simp [field, hkey.1, hvalue.1, hne]

theorem pairs_render (hne : amp ≠ eq) {ps : List (List α × List α)} (hps : ps ≠ [])
    (hplain : ∀ p ∈ ps, Plain amp eq p.1 ∧ Plain amp eq p.2) :
    pairs amp eq (render amp eq ps) = ps := by
  have hsplit : (render amp eq ps).splitOn amp = ps.map (field eq) := by
    apply List.splitOn_intercalate amp
    · intro xs hxs
      obtain ⟨p, hp, rfl⟩ := List.mem_map.mp hxs
      exact amp_notMem_field hne (hplain p hp).1 (hplain p hp).2
    · simpa using hps
  rw [pairs, hsplit, List.flatMap_map]
  calc ps.flatMap (fun p ↦ ofField eq (field eq p)) = ps.flatMap fun p ↦ [p] := by
        apply List.flatMap_congr
        intro p hp
        exact ofField_field (hplain p hp).1.2 (hplain p hp).2.2
    _ = ps := List.flatMap_singleton' ps

theorem pairs_render_iff (hne : amp ≠ eq) {ps : List (List α × List α)} (hps : ps ≠ []) :
    pairs amp eq (render amp eq ps) = ps ↔
      ∀ p ∈ ps, Plain amp eq p.1 ∧ Plain amp eq p.2 := by
  constructor
  · intro h p hp
    rw [← h] at hp
    exact plain_of_mem_pairs hp
  · exact pairs_render hne hps

end KeyValues
