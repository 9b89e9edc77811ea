import Mathlib.Data.List.Infix

/-!
# Looking for a delimiter in a stream

A scanner keeps how much of the delimiter the last letters have matched, and
releases the other letters. When the first letter of the delimiter does not
come again in it, a mismatch can only start a new match at the letter at hand;
so nothing needs to be looked at again, and the scanner stops at the first
occurrence with everything before it released.
-/

namespace DelimiterScan

variable {α : Type*} (delim : List α)

structure Scan (α : Type*) where
  out : List α
  matched : ℕ

def next [DecidableEq α] (k : ℕ) (c : α) : ℕ :=
  if delim[k]? = some c then k + 1 else if delim.head? = some c then 1 else 0

/-- What is no longer part of a match when `c` comes. -/
def released [DecidableEq α] (k : ℕ) (c : α) : List α :=
  if delim[k]? = some c then []
  else if delim.head? = some c then delim.take k else delim.take k ++ [c]

def Scan.feed [DecidableEq α] (s : Scan α) (c : α) : Scan α :=
  ⟨s.out ++ released delim s.matched c, next delim s.matched c⟩

/-- The first letter does not come again. -/
def HeadOnce : Prop := ∀ k, delim[k]? = delim.head? → delim ≠ [] → k = 0

/-- `k` is the length of the only beginning of `delim` at the end of `xs`, or 0. -/
structure Tracks (xs : List α) (k : ℕ) : Prop where
  le : k ≤ delim.length
  suffix : delim.take k <:+ xs
  only : ∀ j, 0 < j → j ≤ delim.length → delim.take j <:+ xs → j = k

variable {delim} {xs : List α} {k : ℕ} {c : α}

theorem take_suffix_concat {j : ℕ} (hpos : 0 < j) (hle : j ≤ delim.length)
    (h : delim.take j <:+ xs ++ [c]) : delim[j - 1]? = some c ∧ delim.take (j - 1) <:+ xs := by
  obtain ⟨i, rfl⟩ : ∃ i, j = i + 1 := ⟨j - 1, by omega⟩
  have hi : i < delim.length := by omega
  rw [List.take_succ_eq_append_getElem hi] at h
  obtain ⟨front, hfront⟩ := h
  rw [← List.append_assoc] at hfront
  obtain ⟨hinit, hlast⟩ := List.append_inj' hfront rfl
  refine ⟨?_, front, hinit⟩
  rw [Nat.add_sub_cancel, List.getElem?_eq_getElem hi]
  exact congrArg some (List.singleton_inj.mp hlast)

theorem take_succ_suffix_concat (h : delim.take k <:+ xs) (hk : delim[k]? = some c) :
    delim.take (k + 1) <:+ xs ++ [c] := by
  obtain ⟨front, rfl⟩ := h
  refine ⟨front, ?_⟩
  rw [List.take_add_one, hk]
  simp

theorem Tracks.next [DecidableEq α] (hhead : HeadOnce delim) (h : Tracks delim xs k)
    (hlt : k < delim.length) :
    Tracks delim (xs ++ [c]) (next delim k c) := by
  have hne : delim ≠ [] := List.ne_nil_of_length_pos (by omega)
  -- a longer beginning that ends with `c` ends a match of length `k`
  have hlonger : ∀ j, 1 < j → j ≤ delim.length → delim.take j <:+ xs ++ [c] →
      delim[k]? = some c ∧ j = k + 1 := by
    intro j hj hle hsuffix
    obtain ⟨hc, hrest⟩ := take_suffix_concat (by omega) hle hsuffix
    have heq := h.only (j - 1) (by omega) (by omega) hrest
    rw [heq] at hc
    exact ⟨hc, by omega⟩
  have hone : delim.take 1 <:+ xs ++ [c] → delim.head? = some c := by
    intro hsuffix
    obtain ⟨hc, -⟩ := take_suffix_concat Nat.one_pos (by omega) hsuffix
    rwa [List.head?_eq_getElem?]
  by_cases hmatch : delim[k]? = some c
  · simp only [DelimiterScan.next, hmatch, if_true]
    refine ⟨hlt, take_succ_suffix_concat h.suffix hmatch, fun j hpos hle hsuffix ↦ ?_⟩
    rcases Nat.lt_or_ge 1 j with hj | hj
    · exact (hlonger j hj hle hsuffix).2
    · obtain rfl : j = 1 := by omega
      have hzero := hhead k (hmatch.trans (hone hsuffix).symm) hne
      omega
  · simp only [DelimiterScan.next, hmatch, if_false]
    by_cases hstart : delim.head? = some c
    · simp only [hstart, if_true]
      refine ⟨by omega, ?_, fun j hpos hle hsuffix ↦ ?_⟩
      · have hzero : delim.take 0 <:+ xs := by simp
        apply take_succ_suffix_concat hzero
        rwa [← List.head?_eq_getElem?]
      · rcases Nat.lt_or_ge 1 j with hj | hj
        · exact absurd (hlonger j hj hle hsuffix).1 hmatch
        · omega
    · simp only [hstart, if_false]
      refine ⟨Nat.zero_le _, by simp, fun j hpos hle hsuffix ↦ ?_⟩
      rcases Nat.lt_or_ge 1 j with hj | hj
      · exact absurd (hlonger j hj hle hsuffix).1 hmatch
      · obtain rfl : j = 1 := by omega
        exact absurd (hone hsuffix) hstart

theorem Tracks.nil : Tracks delim [] 0 := by
  refine ⟨Nat.zero_le _, by simp, fun j hpos hle hsuffix ↦ ?_⟩
  have hlength := hsuffix.length_le
  rw [List.length_take_of_le hle, List.length_nil] at hlength
  omega

theorem Tracks.matched_iff (h : Tracks delim xs k) (hne : delim ≠ []) :
    k = delim.length ↔ delim <:+ xs := by
  constructor
  · rintro rfl
    simpa using h.suffix
  · intro hsuffix
    refine (h.only delim.length (List.length_pos_of_ne_nil hne) (Nat.le_refl _) ?_).symm
    rwa [List.take_length]

/-- The scanner has released everything but the match. -/
theorem Scan.feed_out [DecidableEq α] {s : Scan α} (hlt : s.matched < delim.length)
    (h : s.out ++ delim.take s.matched = xs) :
    (s.feed delim c).out ++ delim.take (s.feed delim c).matched = xs ++ [c] := by
  subst h
  simp only [Scan.feed, released, DelimiterScan.next]
  by_cases hmatch : delim[s.matched]? = some c
  · simp [hmatch, List.take_add_one]
  · by_cases hstart : delim.head? = some c
    · have hone : delim.take 1 = [c] := by
        cases delim with
        | nil => simp at hstart
        | cons d rest => simpa using hstart
      simp [hmatch, hstart, hone]
    · simp [hmatch, hstart]

/-- What a scanner has done with `xs`, in which the delimiter has not ended. -/
structure Scanned (delim xs : List α) (s : Scan α) : Prop where
  out : s.out ++ delim.take s.matched = xs
  tracks : Tracks delim xs s.matched

theorem Scanned.nil : Scanned delim [] ⟨[], 0⟩ := ⟨by simp, .nil⟩

theorem Scanned.feed [DecidableEq α] {s : Scan α} (hhead : HeadOnce delim)
    (h : Scanned delim xs s) (hlt : s.matched < delim.length) :
    Scanned delim (xs ++ [c]) (s.feed delim c) :=
  ⟨Scan.feed_out hlt h.out, h.tracks.next hhead hlt⟩

theorem Scanned.lt {s : Scan α} (h : Scanned delim xs s) (hnot : ¬delim <:+ xs) :
    s.matched < delim.length := by
  have hne : delim ≠ [] := by
    rintro rfl
    exact hnot (by simp)
  have hmatched := h.tracks.matched_iff hne
  have hle := h.tracks.le
  have hneq : s.matched ≠ delim.length := fun heq ↦ hnot (hmatched.mp heq)
  omega

theorem Scanned.released {s : Scan α} {front : List α} (h : Scanned delim (front ++ delim) s)
    (hne : delim ≠ []) : s = ⟨front, delim.length⟩ := by
  have hmatched : s.matched = delim.length :=
    (h.tracks.matched_iff hne).mpr (List.suffix_append _ _)
  have hout := h.out
  rw [hmatched, List.take_length] at hout
  cases s
  simp only at hmatched hout
  rw [hmatched, List.append_cancel_right hout]

/-- A delimiter that does not occur in `front` ends in `front ++ delim` only at
the end. -/
theorem not_suffix_of_unmatched (hhead : HeadOnce delim) {front back mid : List α}
    (hnot : ¬delim <:+: front) (hsplit : front ++ delim = mid ++ back) (hback : back ≠ []) :
    ¬delim <:+ mid := by
  rintro ⟨first, rfl⟩
  have hlength := congrArg List.length hsplit
  simp only [List.length_append] at hlength
  by_cases hle : first.length + delim.length ≤ front.length
  · -- the occurrence lies inside `front`
    apply hnot
    have hwhole : first ++ delim <+: front ++ delim := ⟨back, hsplit.symm⟩
    have hprefix : first ++ delim <+: front :=
      List.prefix_of_prefix_length_le hwhole (List.prefix_append _ _) (by simpa using hle)
    exact (List.suffix_append first delim).isInfix.trans hprefix.isInfix
  · -- the first letter of the last delimiter comes again in the occurrence
    have hlt : back.length < delim.length := by omega
    have hne : delim ≠ [] := List.ne_nil_of_length_pos (by omega)
    have hpos := List.length_pos_of_ne_nil hback
    have hget : (front ++ delim)[front.length]? = delim.head? := by
      rw [List.getElem?_append_right (Nat.le_refl _), Nat.sub_self, List.head?_eq_getElem?]
    have hget' : (first ++ delim ++ back)[front.length]? = delim[back.length]? := by
      have hindex : front.length = first.length + back.length := by omega
      rw [List.append_assoc, hindex, List.getElem?_append_right (Nat.le_add_right _ _),
        Nat.add_sub_cancel_left, List.getElem?_append_left hlt]
    have hzero := hhead back.length (by rw [← hget', ← hget, hsplit]) hne
    omega

end DelimiterScan
