import Mathlib.Data.List.Basic

/-!
# Lines that end in two symbols

`readLine cr lf` reads up to the first `cr` that an `lf` follows, and `readLines`
reads lines up to an empty one. Lines without an `lf` are read back, whatever
comes behind them, also when they hold a `cr`.
-/

namespace LineFraming

variable {α : Type*} [DecidableEq α] (cr lf : α)

def readLine : List α → Option (List α × List α)
  | [] => none
  | c :: rest =>
      if c = cr ∧ rest.head? = some lf then some ([], rest.tail)
      else (readLine rest).map fun p ↦ (c :: p.1, p.2)

/-- At most `n` lines, of which the last is empty and is not counted. -/
def readLines : (n : ℕ) → List α → Option (List (List α) × List α)
  | 0, _ => none
  | n + 1, xs =>
      match readLine cr lf xs with
      | none => none
      | some ([], rest) => some ([], rest)
      | some (line, rest) => (readLines n rest).map fun p ↦ (line :: p.1, p.2)

def terminated (line : List α) : List α := line ++ [cr, lf]

variable {cr lf}

theorem readLine_append (hne : cr ≠ lf) {line : List α} (hline : lf ∉ line) (rest : List α) :
    readLine cr lf (terminated cr lf line ++ rest) = some (line, rest) := by
  induction line with
  | nil => simp [readLine, terminated]
  | cons c line ih =>
      have hhead : (terminated cr lf line ++ rest).head? ≠ some lf := by
        cases line with
        | nil => simpa [terminated] using hne
        | cons d line =>
            have hd : d ≠ lf := fun heq ↦ hline (by simp [heq])
            simpa [terminated] using hd
      have hmore : readLine cr lf (c :: (terminated cr lf line ++ rest)) =
          (readLine cr lf (terminated cr lf line ++ rest)).map fun p ↦ (c :: p.1, p.2) := by
        rw [readLine, if_neg fun h ↦ hhead h.2]
      have hcons : terminated cr lf (c :: line) ++ rest =
          c :: (terminated cr lf line ++ rest) := rfl
      rw [hcons, hmore, ih fun hmem ↦ hline (List.mem_cons_of_mem c hmem)]
      rfl

theorem readLines_append (hne : cr ≠ lf) {lines : List (List α)}
    (hlines : ∀ line ∈ lines, line ≠ [] ∧ lf ∉ line) (rest : List α) {n : ℕ}
    (hn : lines.length < n) :
    readLines cr lf n (lines.flatMap (terminated cr lf) ++ (terminated cr lf [] ++ rest)) =
      some (lines, rest) := by
  induction lines generalizing n with
  | nil =>
      cases n with
      | zero => simp at hn
      | succ n =>
          rw [List.flatMap_nil, List.nil_append, readLines, readLine_append hne List.not_mem_nil]
  | cons line lines ih =>
      cases n with
      | zero => simp at hn
      | succ n =>
          obtain ⟨hnil, hlf⟩ := hlines line List.mem_cons_self
          have hrest := ih (fun x hx ↦ hlines x (List.mem_cons_of_mem line hx))
            (Nat.lt_of_succ_lt_succ hn)
          rw [List.flatMap_cons, List.append_assoc, readLines, readLine_append hne hlf]
          cases line with
          | nil => exact absurd rfl hnil
          | cons c line => simp only [hrest, Option.map_some]

end LineFraming
