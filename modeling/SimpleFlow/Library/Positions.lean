import SimpleFlow.Library.Delimited

/-!
# Where the pieces of a list stand

`placed sep xs` are the pieces of `xs` that a separator closes, each with the
position of its first element. A window of the list, cut without regard to the
separators, closes the pieces that begin and end in it, and before these the
rest of the piece that it begins inside of.
-/

namespace Delimited

variable {α : Type*}

/-- The pieces with their positions, when the first of them stands at `p` and
one separator follows each. -/
def positioned : ℕ → List (List α) → List (ℕ × List α)
  | _, [] => []
  | p, piece :: pieces => (p, piece) :: positioned (p + piece.length + 1) pieces

theorem le_of_mem_positioned {p : ℕ} {pieces : List (List α)} {l : ℕ × List α}
    (h : l ∈ positioned p pieces) : p ≤ l.1 := by
  induction pieces generalizing p with
  | nil => simp [positioned] at h
  | cons piece pieces ih =>
      rcases List.mem_cons.mp h with rfl | hrest
      · exact Nat.le_refl _
      · have hle := ih hrest
        omega

theorem pairwise_positioned (p : ℕ) (pieces : List (List α)) :
    (positioned p pieces).Pairwise fun l m ↦ l.1 < m.1 := by
  induction pieces generalizing p with
  | nil => exact List.Pairwise.nil
  | cons piece pieces ih =>
      refine List.Pairwise.cons ?_ (ih _)
      intro l hl
      have hle := le_of_mem_positioned hl
      dsimp only
      omega

/-- What the window shows of one piece. -/
def visible (o k : ℕ) (l : ℕ × List α) : List (List α) :=
  if l.1 + l.2.length < k ∧ l.2.drop (o - l.1) ≠ [] then [l.2.drop (o - l.1)] else []

theorem flatMap_visible (o k : ℕ) {ls : List (ℕ × List α)}
    (h : ls.Pairwise fun l m ↦ l.1 < m.1) :
    ls.flatMap (visible o k) =
      ((ls.filter fun l ↦ l.1 < o ∧ o < l.1 + l.2.length ∧ l.1 + l.2.length < k).map
        fun l ↦ l.2.drop (o - l.1)) ++
      (ls.filter fun l ↦ o ≤ l.1 ∧ l.1 + l.2.length < k ∧ l.2 ≠ []).map Prod.snd := by
  induction h with
  | nil => rfl
  | @cons l ls hl hrest ih =>
      rw [List.flatMap_cons, ih, List.filter_cons, List.filter_cons]
      by_cases ho : l.1 < o
      · have hnot : ¬o ≤ l.1 := by omega
        have hdrop : l.2.drop (o - l.1) ≠ [] ↔ o < l.1 + l.2.length := by
          rw [Ne, List.drop_eq_nil_iff]
          omega
        by_cases hin : o < l.1 + l.2.length ∧ l.1 + l.2.length < k
        · simp [visible, ho, hnot, hdrop, hin]
        · have hhid : visible o k l = [] := by
            rw [visible, if_neg (fun h ↦ hin ⟨hdrop.mp h.2, h.1⟩)]
          simp [hhid, hin, hnot]
      · -- no later piece begins before the window either
        have hnone : (ls.filter fun l ↦ decide
            (l.1 < o ∧ o < l.1 + l.2.length ∧ l.1 + l.2.length < k)) = [] := by
          rw [List.filter_eq_nil_iff]
          intro m hm
          have hlt := hl m hm
          simp only [decide_eq_true_eq]
          omega
        have hzero : o - l.1 = 0 := by omega
        have hge : o ≤ l.1 := by omega
        rw [hnone]
        by_cases hin : l.1 + l.2.length < k ∧ l.2 ≠ []
        · simp [visible, hzero, ho, hge, hin]
        · simp [visible, hzero, ho, hin]

variable [DecidableEq α] (sep : α)

def placed (xs : List α) : List (ℕ × List α) := positioned 0 (terminated sep xs)

/-- The pieces that are not empty, begin at `o` or behind it, and whose
separator stands before `k`. -/
def linesBetween (o k : ℕ) (xs : List α) : List (List α) :=
  ((placed sep xs).filter fun l ↦ o ≤ l.1 ∧ l.1 + l.2.length < k ∧ l.2 ≠ []).map Prod.snd

/-- What a window that begins at `o` has of a piece that has begun before, when
that is not empty and its separator stands before `k`. -/
def fragments (o k : ℕ) (xs : List α) : List (List α) :=
  ((placed sep xs).filter fun l ↦ l.1 < o ∧ o < l.1 + l.2.length ∧ l.1 + l.2.length < k).map
    fun l ↦ l.2.drop (o - l.1)

variable {sep}

/-- A list is one piece without a separator, or its first piece and the rest. -/
@[elab_as_elim]
theorem pieces_induction (sep : α) {P : List α → Prop} (hlast : ∀ xs, sep ∉ xs → P xs)
    (hpiece : ∀ front back, sep ∉ front → P back → P (front ++ sep :: back)) (xs : List α) :
    P xs := by
  induction hn : xs.length using Nat.strongRecOn generalizing xs with
  | ind n ih =>
      by_cases hsep : sep ∈ xs
      · obtain ⟨front, back, rfl, hfront⟩ := List.eq_append_cons_of_mem hsep
        apply hpiece front back hfront
        apply ih back.length ?_ back rfl
        simp only [List.length_append, List.length_cons] at hn
        omega
      · exact hlast xs hsep

theorem positioned_of_notMem (q : ℕ) {xs : List α} (h : sep ∉ xs) :
    positioned q (terminated sep xs) = [] := by
  rw [terminated_of_notMem h]
  rfl

theorem positioned_append_cons (q : ℕ) {front : List α} (h : sep ∉ front) (back : List α) :
    positioned q (terminated sep (front ++ sep :: back)) =
      (q, front) :: positioned (q + front.length + 1) (terminated sep back) := by
  rw [(of_append_cons sep front back).1, terminated_of_notMem h, remainder_of_notMem h]
  rfl

theorem lines_window (sep : α) (q o k : ℕ) (xs : List α) :
    lines sep ((xs.take (k - q)).drop (o - q)) =
      (positioned q (terminated sep xs)).flatMap (visible o k) := by
  induction xs using pieces_induction sep generalizing q with
  | hlast xs hsep =>
      have hnot : sep ∉ (xs.take (k - q)).drop (o - q) := fun h ↦
        hsep (List.mem_of_mem_take (List.mem_of_mem_drop h))
      rw [lines_of_notMem hnot, positioned_of_notMem q hsep]
      rfl
  | hpiece front back hfront ih =>
      rw [positioned_append_cons q hfront, List.flatMap_cons, ← ih]
      by_cases hk : k - q ≤ front.length
      · -- the window ends inside the first piece
        have hzero : k - (q + front.length + 1) = 0 := by omega
        have hnone : ¬q + front.length < k := by omega
        have hnot : sep ∉ (front.take (k - q)).drop (o - q) := fun h ↦
          hfront (List.mem_of_mem_take (List.mem_of_mem_drop h))
        rw [List.take_append_of_le_length hk, lines_of_notMem hnot, hzero]
        simp [visible, hnone]
      · have hcut : (front ++ sep :: back).take (k - q) =
            front ++ sep :: back.take (k - (q + front.length + 1)) := by
          rw [List.take_append, List.take_of_length_le (by omega)]
          have hsucc : k - q - front.length = k - (q + front.length + 1) + 1 := by omega
          rw [hsucc, List.take_succ_cons]
        have hlt : q + front.length < k := by omega
        rw [hcut]
        by_cases ho : o - q ≤ front.length
        · have hzero : o - (q + front.length + 1) = 0 := by omega
          have hnot : sep ∉ front.drop (o - q) := fun h ↦ hfront (List.mem_of_mem_drop h)
          rw [List.drop_append_of_le_length ho, lines_append_cons hnot, hzero, List.drop_zero]
          by_cases hnil : front.drop (o - q) = []
          · simp [visible, hnil]
          · simp [visible, hlt, hnil]
        · -- the window begins behind the first piece
          have hnil : front.drop (o - q) = [] := List.drop_eq_nil_of_le (by omega)
          have hsucc : o - q - front.length = o - (q + front.length + 1) + 1 := by omega
          rw [List.drop_append, hnil, hsucc, List.drop_succ_cons]
          simp [visible, hnil]

/-- The lines of a window are the lines of the whole that lie in it, behind what
the window has of the line that it begins inside of. -/
theorem lines_take_drop (o k : ℕ) (xs : List α) :
    lines sep ((xs.take k).drop o) = fragments sep o k xs ++ linesBetween sep o k xs := by
  have hwindow := lines_window sep 0 o k xs
  rw [Nat.sub_zero, Nat.sub_zero, flatMap_visible o k (pairwise_positioned 0 _)] at hwindow
  exact hwindow

/-- What is listed: the pieces that begin at the beginning or right behind a
separator and go on to the next one. -/
theorem mem_positioned_iff {q p : ℕ} {xs piece : List α} :
    (p, piece) ∈ positioned q (terminated sep xs) ↔
      ∃ front back, xs = front ++ (piece ++ sep :: back) ∧ p = q + front.length ∧ sep ∉ piece ∧
        (front = [] ∨ front.getLast? = some sep) := by
  constructor
  · intro h
    induction xs using pieces_induction sep generalizing q with
    | hlast xs hsep =>
        rw [positioned_of_notMem q hsep] at h
        cases h
    | hpiece first rest hfirst ih =>
        rw [positioned_append_cons q hfirst] at h
        rcases List.mem_cons.mp h with heq | hrest
        · obtain ⟨rfl, rfl⟩ : p = q ∧ piece = first := by simpa using heq
          exact ⟨[], rest, rfl, rfl, hfirst, .inl rfl⟩
        · obtain ⟨front, back, rfl, rfl, hpiece, hfront⟩ := ih hrest
          refine ⟨first ++ sep :: front, back, by simp, ?_, hpiece, .inr ?_⟩
          · simp only [List.length_append, List.length_cons]
            omega
          · rcases hfront with rfl | hlast
            · simp
            · simp [List.getLast?_append, List.getLast?_cons, hlast]
  · rintro ⟨front, back, rfl, rfl, hpiece, hfront⟩
    induction front using pieces_induction sep generalizing q with
    | hlast front hsep =>
        obtain rfl : front = [] := by
          rcases hfront with hnil | hlast
          · exact hnil
          · exact absurd (List.mem_of_getLast? hlast) hsep
        rw [List.nil_append, positioned_append_cons q hpiece]
        exact List.mem_cons_self
    | hpiece first front hfirst ih =>
        have hrest : front = [] ∨ front.getLast? = some sep := by
          rcases hfront with hnil | hlast
          · simp at hnil
          · cases front with
            | nil => exact .inl rfl
            | cons x xs => exact .inr (by simpa [List.getLast?_append] using hlast)
        have hmem := ih (q := q + first.length + 1) hrest
        rw [List.append_assoc, List.cons_append, positioned_append_cons q hfirst]
        refine List.mem_cons_of_mem _ ?_
        convert hmem using 2
        simp only [List.length_append, List.length_cons]
        omega

/-- A window that begins where a piece begins has no fragment. -/
theorem fragments_eq_nil {o k : ℕ} {xs : List α}
    (h : o = 0 ∨ xs[o - 1]? = some sep) : fragments sep o k xs = [] := by
  rw [fragments, List.map_eq_nil_iff, List.filter_eq_nil_iff]
  rintro ⟨p, piece⟩ hl hin
  simp only [decide_eq_true_eq] at hin
  obtain ⟨front, back, rfl, rfl, hpiece, -⟩ := mem_positioned_iff.mp hl
  rcases h with rfl | hsep
  · omega
  · rw [List.getElem?_append_right (by omega), List.getElem?_append_left (by omega)] at hsep
    exact hpiece (List.mem_of_getElem? hsep)

end Delimited
