import SimpleFlow.Library.Delimited
import Mathlib.Algebra.BigOperators.Group.Finset.Basic
import Mathlib.Algebra.Order.BigOperators.Group.Finset
import Mathlib.Data.Multiset.AddSub

/-!
# Several sources written into one delimited stream

A feed is a list of pieces, each tagged with the source it comes from. A
consumer that splits the concatenation of all pieces at a separator sees the
lines of `merged feed`; the lines that were meant are those of each source's
`own` stream. The two agree after every piece exactly when no piece that holds
a separator arrives while another source has an unfinished line.
-/

namespace Interleaving

open Delimited

variable {ι α : Type*}

def merged (feed : List (ι × List α)) : List α := feed.flatMap Prod.snd

@[simp] theorem merged_nil : merged ([] : List (ι × List α)) = [] := rfl

theorem merged_concat (feed : List (ι × List α)) (p : ι × List α) :
    merged (feed ++ [p]) = merged feed ++ p.2 := by
  simp [merged]

variable [DecidableEq ι]

def own (i : ι) (feed : List (ι × List α)) : List α :=
  (feed.filter fun p ↦ decide (p.1 = i)).flatMap Prod.snd

@[simp] theorem own_nil (i : ι) : own i ([] : List (ι × List α)) = [] := rfl

theorem own_append (i : ι) (feed feed' : List (ι × List α)) :
    own i (feed ++ feed') = own i feed ++ own i feed' := by
  simp [own]

theorem own_concat (i : ι) (feed : List (ι × List α)) (p : ι × List α) :
    own i (feed ++ [p]) = own i feed ++ if p.1 = i then p.2 else [] := by
  by_cases hp : p.1 = i <;> simp [own, hp]

theorem own_concat_self (feed : List (ι × List α)) (i : ι) (piece : List α) :
    own i (feed ++ [(i, piece)]) = own i feed ++ piece := by
  simp [own_concat]

theorem own_concat_of_ne (feed : List (ι × List α)) {i j : ι} (h : j ≠ i) (piece : List α) :
    own j (feed ++ [(i, piece)]) = own j feed := by
  simp [own_concat, h.symm]

def sources (feed : List (ι × List α)) : Finset ι := (feed.map Prod.fst).toFinset

theorem own_eq_nil_of_notMem {i : ι} {feed : List (ι × List α)} (h : i ∉ sources feed) :
    own i feed = [] := by
  have hnil : feed.filter (fun p ↦ decide (p.1 = i)) = [] := by
    rw [List.filter_eq_nil_iff]
    intro p hp hpi
    exact h (List.mem_toFinset.mpr (List.mem_map.mpr ⟨p, hp, by simpa using hpi⟩))
  rw [own, hnil, List.flatMap_nil]

theorem sources_concat (feed : List (ι × List α)) (i : ι) (piece : List α) :
    sources (feed ++ [(i, piece)]) = insert i (sources feed) := by
  ext j
  simp [sources]

theorem own_mono {feed feed' : List (ι × List α)} (h : feed <+: feed') (i : ι) :
    own i feed <+: own i feed' := by
  obtain ⟨tail, rfl⟩ := h
  rw [own_append]
  exact List.prefix_append _ _

/-- A sum over the sources in which an empty stream counts nothing, split at
one source. -/
theorem sum_sources_eq {M : Type*} [AddCommMonoid M] (feed : List (ι × List α))
    {f : List α → M} (hf : f [] = 0) (i : ι) :
    ∑ j ∈ sources feed, f (own j feed) =
      f (own i feed) + ∑ j ∈ (sources feed).erase i, f (own j feed) := by
  by_cases hi : i ∈ sources feed
  · exact (Finset.add_sum_erase _ _ hi).symm
  · rw [own_eq_nil_of_notMem hi, hf, zero_add, Finset.erase_eq_of_notMem hi]

theorem sum_sources_concat {M : Type*} [AddCommMonoid M] (feed : List (ι × List α))
    {f : List α → M} (hf : f [] = 0) (i : ι) (piece : List α) :
    ∑ j ∈ sources (feed ++ [(i, piece)]), f (own j (feed ++ [(i, piece)])) =
      f (own i feed ++ piece) + ∑ j ∈ (sources feed).erase i, f (own j feed) := by
  rw [sum_sources_eq _ hf i, own_concat_self, sources_concat, Finset.erase_insert_eq_erase]
  congr 1
  apply Finset.sum_congr rfl
  intro j hj
  rw [own_concat_of_ne feed (Finset.ne_of_mem_erase hj)]

/-! ## Isolation -/

variable [DecidableEq α] (sep : α)

/-- The lines of the merged stream are the lines of the sources' own streams:
none is made of two sources, lost or changed. -/
def Isolated (feed : List (ι × List α)) : Prop :=
  (lines sep (merged feed) : Multiset (List α)) =
    ∑ i ∈ sources feed, (lines sep (own i feed) : Multiset (List α))

/-- A piece with a separator finds no other source inside a line. -/
def Undisturbed (feed : List (ι × List α)) (i : ι) (piece : List α) : Prop :=
  sep ∈ piece → ∀ j, j ≠ i → remainder sep (own j feed) = []

instance (feed : List (ι × List α)) (i : ι) (piece : List α) :
    Decidable (Undisturbed sep feed i piece) :=
  decidable_of_iff (sep ∈ piece → ∀ p ∈ feed, p.1 ≠ i → remainder sep (own p.1 feed) = []) <| by
    refine imp_congr_right fun _ ↦ ⟨fun h j hj ↦ ?_, fun h p _ hp ↦ h p.1 hp⟩
    by_cases hmem : j ∈ sources feed
    · obtain ⟨p, hp, rfl⟩ := List.mem_map.mp (List.mem_toFinset.mp hmem)
      exact h p hp hj
    · rw [own_eq_nil_of_notMem hmem, remainder_nil]

variable {sep}

theorem Isolated.exists_own {feed : List (ι × List α)} (h : Isolated sep feed) {line : List α}
    (hline : line ∈ lines sep (merged feed)) : ∃ i, line ∈ lines sep (own i feed) := by
  have hmem : line ∈ (lines sep (merged feed) : Multiset (List α)) := hline
  rw [h, Multiset.mem_sum] at hmem
  obtain ⟨i, -, hi⟩ := hmem
  exact ⟨i, hi⟩

/-- The invariant of a feed all of whose pieces came undisturbed: what is
unfinished in the merged stream is as long as what is unfinished in the
sources, and it is one source's if only that one has something unfinished. -/
structure Balanced (sep : α) (feed : List (ι × List α)) : Prop where
  isolated : Isolated sep feed
  length : (remainder sep (merged feed)).length =
    ∑ i ∈ sources feed, (remainder sep (own i feed)).length
  sole : ∀ i, (∀ j, j ≠ i → remainder sep (own j feed) = []) →
    remainder sep (merged feed) = remainder sep (own i feed)

theorem balanced_nil : Balanced sep ([] : List (ι × List α)) :=
  ⟨by simp [Isolated, sources], by simp [sources], fun _ _ ↦ by simp⟩


namespace Balanced

variable {feed : List (ι × List α)} {i : ι} {piece : List α}

/-- A piece without a separator only lengthens an unfinished line. -/
theorem concat_of_notMem (h : Balanced sep feed) (hsep : sep ∉ piece) :
    Balanced sep (feed ++ [(i, piece)]) := by
  refine ⟨?_, ?_, ?_⟩
  · have hiso : Isolated sep feed := h.isolated
    unfold Isolated at hiso ⊢
    rw [sum_sources_concat feed (f := fun xs ↦ (lines sep xs : Multiset (List α))) (by simp),
      merged_concat, lines_append_of_notMem hsep, lines_append_of_notMem hsep, hiso,
      sum_sources_eq feed (f := fun xs ↦ (lines sep xs : Multiset (List α))) (by simp) i]
  · rw [sum_sources_concat feed (f := fun xs ↦ (remainder sep xs).length) (by simp),
      merged_concat, remainder_append_of_notMem hsep, remainder_append_of_notMem hsep,
      List.length_append, List.length_append, h.length,
      sum_sources_eq feed (f := fun xs ↦ (remainder sep xs).length) (by simp) i]
    omega
  · intro k hk
    by_cases hki : k = i
    · subst hki
      have hothers : ∀ j, j ≠ k → remainder sep (own j feed) = [] := by
        intro j hj
        simpa [own_concat_of_ne feed hj] using hk j hj
      rw [merged_concat, own_concat_self, remainder_append_of_notMem hsep,
        remainder_append_of_notMem hsep, h.sole k hothers]
    · -- the piece must be empty, or its own source would be unfinished
      have hpiece : remainder sep (own i feed) = [] ∧ piece = [] := by
        have hi := hk i (Ne.symm hki)
        rw [own_concat_self, remainder_append_of_notMem hsep] at hi
        exact List.append_eq_nil_iff.mp hi
      have hothers : ∀ j, j ≠ k → remainder sep (own j feed) = [] := by
        intro j hj
        by_cases hji : j = i
        · exact hji ▸ hpiece.1
        · simpa [own_concat_of_ne feed hji] using hk j hj
      rw [merged_concat, own_concat_of_ne feed hki, hpiece.2, List.append_nil]
      exact h.sole k hothers

/-- A piece with a separator that comes undisturbed finishes its own source's
line and leaves only that source unfinished. -/
theorem concat_of_mem (h : Balanced sep feed)
    (hothers : ∀ j, j ≠ i → remainder sep (own j feed) = []) :
    Balanced sep (feed ++ [(i, piece)]) := by
  have hsole := h.sole i hothers
  have hrem : remainder sep (merged feed ++ piece) = remainder sep (own i feed ++ piece) := by
    rw [remainder_append, hsole, ← remainder_append]
  refine ⟨?_, ?_, ?_⟩
  · have hiso : Isolated sep feed := h.isolated
    unfold Isolated at hiso ⊢
    rw [sum_sources_concat feed (f := fun xs ↦ (lines sep xs : Multiset (List α))) (by simp),
      merged_concat, lines_append, lines_append (own i feed), hsole, ← Multiset.coe_add,
      ← Multiset.coe_add, hiso,
      sum_sources_eq feed (f := fun xs ↦ (lines sep xs : Multiset (List α))) (by simp) i]
    ac_rfl
  · rw [sum_sources_concat feed (f := fun xs ↦ (remainder sep xs).length) (by simp),
      merged_concat, hrem, Finset.sum_eq_zero, add_zero]
    intro j hj
    simp [hothers j (Finset.ne_of_mem_erase hj)]
  · intro k hk
    by_cases hki : k = i
    · subst hki
      rw [merged_concat, own_concat_self]
      exact hrem
    · have hi := hk i (Ne.symm hki)
      rw [own_concat_self] at hi
      rw [merged_concat, own_concat_of_ne feed hki, hothers k hki]
      exact hrem.trans hi

theorem concat (h : Balanced sep feed) (hu : Undisturbed sep feed i piece) :
    Balanced sep (feed ++ [(i, piece)]) := by
  by_cases hsep : sep ∈ piece
  · exact h.concat_of_mem (hu hsep)
  · exact h.concat_of_notMem hsep

/-- What another source left unfinished ends up in the next line. -/
theorem undisturbed_of_isolated (h : Balanced sep feed)
    (hiso : Isolated sep (feed ++ [(i, piece)])) : Undisturbed sep feed i piece := by
  intro hsep j hj
  by_contra hne
  obtain ⟨front, back, rfl, hfront⟩ := List.eq_append_cons_of_mem hsep
  -- the first line that the piece closes, in the merged stream and in its own
  let whole := remainder sep (merged feed) ++ front
  let mine := remainder sep (own i feed) ++ front
  have hwhole : sep ∉ whole := by
    simpa [whole, hfront] using sep_notMem_remainder (merged feed)
  have hmine : sep ∉ mine := by
    simpa [mine, hfront] using sep_notMem_remainder (own i feed)
  have hlonger : mine.length < whole.length := by
    have hsum := h.length
    rw [sum_sources_eq feed (f := fun xs ↦ (remainder sep xs).length) (by simp) i] at hsum
    have hmemj : j ∈ (sources feed).erase i := by
      refine Finset.mem_erase.mpr ⟨hj, ?_⟩
      by_contra hnot
      simp [own_eq_nil_of_notMem hnot] at hne
    have hpos := List.length_pos_of_ne_nil hne
    have hle := Finset.single_le_sum (f := fun j ↦ (remainder sep (own j feed)).length)
      (fun _ _ ↦ Nat.zero_le _) hmemj
    simp only [whole, mine, List.length_append]
    omega
  have hold : Isolated sep feed := h.isolated
  unfold Isolated at hiso hold
  rw [sum_sources_concat feed (f := fun xs ↦ (lines sep xs : Multiset (List α))) (by simp),
    merged_concat, lines_append, lines_append (own i feed), ← Multiset.coe_add,
    ← Multiset.coe_add, hold,
    sum_sources_eq feed (f := fun xs ↦ (lines sep xs : Multiset (List α))) (by simp) i,
    add_right_comm, add_left_inj, add_right_inj] at hiso
  have hclosed : (lines sep (whole ++ sep :: back)).Perm (lines sep (mine ++ sep :: back)) := by
    simpa [whole, mine, List.append_assoc] using Multiset.coe_eq_coe.mp hiso
  have hlength := hclosed.flatten.length_eq
  rw [length_flatten_lines_append_cons hwhole, length_flatten_lines_append_cons hmine] at hlength
  omega

end Balanced

end Interleaving
