import SimpleFlow.FlowHandler
import SimpleFlow.Library.LabelledSystem
import Mathlib.Data.List.FinRange
import Mathlib.Logic.Function.Basic

/-!
# Regular expressions

`is_match_reg` counts the groups of a match on top of whatever `matched_size`
holds, and leaves the entry of a group that took no part in the match as it is.
What a call returns is therefore its own only when the caller has cleared both.
-/

namespace SimpleFlow

open LabelledSystem

/-! ## The C library -/

/-- `REG_NOMATCH` -/
def regNoMatch : Int := 1

/-- `regmatch_t` for an input of the given length: -1, or a part of the input. -/
structure RegMatch (length : ℕ) where
  rmSo : Int
  rmEo : Int
  inside : rmSo ≠ -1 → rmEo ≠ -1 → 0 ≤ rmSo ∧ rmSo ≤ rmEo ∧ rmEo ≤ length

namespace RegMatch

def none (length : ℕ) : RegMatch length := ⟨-1, -1, fun h ↦ absurd rfl h⟩

/-- The group took part in the match. -/
def tookPart {length : ℕ} (m : RegMatch length) : Bool := !(m.rmSo = -1 ∨ m.rmEo = -1)

/-- What the group has matched, empty when it took no part. -/
def text (input : Bytes) (m : RegMatch input.length) : Bytes :=
  if m.tookPart then (input.take m.rmEo.toNat).drop m.rmSo.toNat else []

end RegMatch

/-- `regcomp` and `regexec`, with the flags that are used here: any functions of
the pattern, the input and the number of groups asked for. -/
structure LibcRegex where
  regcomp : Bytes → Int
  regexec : (pattern input : Bytes) → (maxMatch : ℕ) →
    Int × (Fin maxMatch → RegMatch input.length)

/-! ## `is_match_reg` -/

/-- `std::string::substr`, within the string. -/
def substr (s : Bytes) (pos n : ℕ) : Bytes := (s.drop pos).take n

/-- The two out-parameters, which the caller has set before. The counter is an
`int`, whose overflow the source leaves undefined; here it has no bound. -/
@[ext]
structure Captures (maxMatch : ℕ) where
  matchStrArray : Fin maxMatch → Bytes
  matchedSize : Int

/-- The body of the loop over `pmatch`. -/
def storeGroup {maxMatch : ℕ} (input : Bytes) (pmatch : Fin maxMatch → RegMatch input.length)
    (out : Captures maxMatch) (i : Fin maxMatch) : Captures maxMatch :=
  if (pmatch i).rmSo = -1 ∨ (pmatch i).rmEo = -1 then out
  else
    { matchedSize := out.matchedSize + 1
      matchStrArray :=
        Function.update out.matchStrArray i
          (substr input (pmatch i).rmSo.toNat ((pmatch i).rmEo - (pmatch i).rmSo).toNat) }

def isMatchReg (R : LibcRegex) (input pattern : Bytes) (maxMatch : ℕ) (out : Captures maxMatch) :
    Bool × Captures maxMatch :=
  if R.regcomp pattern ≠ 0 then (false, out)
  else
    let (status, pmatch) := R.regexec pattern input maxMatch
    if status = regNoMatch then (false, out)
    else if status = 0 then (true, (List.finRange maxMatch).foldl (storeGroup input pmatch) out)
    else (false, out)

/-! ## Calls that share their out-parameters -/

structure MatchCall where
  input : Bytes
  pattern : Bytes
  deriving DecidableEq, Repr

namespace Captures

variable (R : LibcRegex) {maxMatch : ℕ}

/-- Fresh variables, as the caller in the tests has them. -/
def fresh (maxMatch : ℕ) : Captures maxMatch := ⟨fun _ ↦ [], 0⟩

/-- Any sequence of calls with the same array and the same counter. -/
def calls (maxMatch : ℕ) : LabelledSystem (Captures maxMatch) MatchCall :=
  ⟨fun out c ↦ some (isMatchReg R c.input c.pattern maxMatch out).2⟩

end Captures

namespace MatchCall

variable (R : LibcRegex) (maxMatch : ℕ) (c : MatchCall)

def groups : Fin maxMatch → RegMatch c.input.length := (R.regexec c.pattern c.input maxMatch).2

/-- The pattern compiles, and the input matches it. -/
def succeeds : Bool := R.regcomp c.pattern = 0 ∧ (R.regexec c.pattern c.input maxMatch).1 = 0

/-- How many of the groups took part in the match. -/
def groupCount : ℕ := (List.finRange maxMatch).countP fun i ↦ (c.groups R maxMatch i).tookPart

end MatchCall

namespace Captures

variable (R : LibcRegex) {maxMatch : ℕ}

/-- If the call returns true, its outputs are those of its own match. -/
def OwnMatch (out : Captures maxMatch) (c : MatchCall) : Prop :=
  (isMatchReg R c.input c.pattern maxMatch out).1 = true →
    (isMatchReg R c.input c.pattern maxMatch out).2.matchedSize = c.groupCount R maxMatch ∧
    ∀ i, (isMatchReg R c.input c.pattern maxMatch out).2.matchStrArray i =
      (c.groups R maxMatch i).text c.input

/-- If the call is going to match, the counter is 0 and the entries of the groups
that take no part are empty. -/
def Cleared (out : Captures maxMatch) (c : MatchCall) : Prop :=
  c.succeeds R maxMatch = true → out.matchedSize = 0 ∧
    ∀ i, (c.groups R maxMatch i).tookPart = false → out.matchStrArray i = []

instance (out : Captures maxMatch) (c : MatchCall) : Decidable (OwnMatch R out c) :=
  inferInstanceAs (Decidable (_ → _))

end Captures

/-! ## One call -/

namespace RegMatch

variable {input : Bytes} {m : RegMatch input.length}

theorem tookPart_iff : m.tookPart = true ↔ ¬(m.rmSo = -1 ∨ m.rmEo = -1) := by
  simp [tookPart]

theorem text_eq_substr (htook : m.tookPart = true) :
    m.text input = substr input m.rmSo.toNat (m.rmEo - m.rmSo).toNat := by
  obtain ⟨hso, heo⟩ := not_or.mp (tookPart_iff.mp htook)
  have hinside := m.inside hso heo
  have hlen : (m.rmEo - m.rmSo).toNat = m.rmEo.toNat - m.rmSo.toNat := by omega
  rw [text, if_pos htook, List.drop_take, hlen, substr]

theorem text_eq_nil (hleft : m.tookPart = false) : m.text input = [] := by
  simp [text, hleft]

end RegMatch

section Loop

variable {maxMatch : ℕ} {input : Bytes} {pmatch : Fin maxMatch → RegMatch input.length}

theorem storeGroup_of_tookPart {i : Fin maxMatch} (htook : (pmatch i).tookPart = true)
    (out : Captures maxMatch) :
    storeGroup input pmatch out i =
      ⟨Function.update out.matchStrArray i ((pmatch i).text input), out.matchedSize + 1⟩ := by
  rw [storeGroup, if_neg (RegMatch.tookPart_iff.mp htook), RegMatch.text_eq_substr htook]

theorem storeGroup_of_left {i : Fin maxMatch} (hleft : (pmatch i).tookPart = false)
    (out : Captures maxMatch) : storeGroup input pmatch out i = out := by
  apply if_pos
  by_contra hnot
  rw [RegMatch.tookPart_iff.mpr hnot] at hleft
  contradiction

/-- The loop adds the number of groups that took part to the counter. -/
theorem foldl_storeGroup_matchedSize (l : List (Fin maxMatch)) (out : Captures maxMatch) :
    (l.foldl (storeGroup input pmatch) out).matchedSize =
      out.matchedSize + l.countP fun i ↦ (pmatch i).tookPart := by
  induction l generalizing out with
  | nil => simp
  | cons a l ih =>
      rw [List.foldl_cons, ih, List.countP_cons]
      cases htook : (pmatch a).tookPart with
      | false => simp [storeGroup_of_left htook]
      | true =>
          rw [storeGroup_of_tookPart htook]
          simp only [if_true, Int.natCast_add]
          omega

/-- The loop writes the entries of the groups that took part and no others. -/
theorem foldl_storeGroup_matchStrArray (l : List (Fin maxMatch)) (out : Captures maxMatch)
    (i : Fin maxMatch) :
    (l.foldl (storeGroup input pmatch) out).matchStrArray i =
      if i ∈ l ∧ (pmatch i).tookPart = true then (pmatch i).text input
      else out.matchStrArray i := by
  induction l generalizing out with
  | nil => simp
  | cons a l ih =>
      rw [List.foldl_cons, ih]
      by_cases hlater : i ∈ l ∧ (pmatch i).tookPart = true
      · rw [if_pos hlater, if_pos ⟨List.mem_cons_of_mem a hlater.1, hlater.2⟩]
      rw [if_neg hlater]
      -- no later turn of the loop writes entry `i`
      by_cases hi : i = a
      · subst hi
        cases htook : (pmatch i).tookPart with
        | false => simp [storeGroup_of_left htook]
        | true => simp [storeGroup_of_tookPart htook]
      · have hkept : (storeGroup input pmatch out a).matchStrArray i = out.matchStrArray i := by
          cases htook : (pmatch a).tookPart with
          | false => rw [storeGroup_of_left htook]
          | true =>
              rw [storeGroup_of_tookPart htook]
              exact Function.update_of_ne hi _ _
        rw [hkept, if_neg]
        rintro ⟨hmem, htook⟩
        exact hlater ⟨(List.mem_cons.mp hmem).resolve_left hi, htook⟩

end Loop

namespace MatchCall

variable {R : LibcRegex} {maxMatch : ℕ} {c : MatchCall}

theorem isMatchReg_of_succeeds (hc : c.succeeds R maxMatch = true) (out : Captures maxMatch) :
    isMatchReg R c.input c.pattern maxMatch out =
      (true, (List.finRange maxMatch).foldl (storeGroup c.input (c.groups R maxMatch)) out) := by
  have ⟨hcom, hstatus⟩ := of_decide_eq_true hc
  simp [isMatchReg, hcom, hstatus, regNoMatch, groups]

/-- Every other call returns false and leaves both outputs as they were. -/
theorem isMatchReg_of_fails (hc : c.succeeds R maxMatch = false) (out : Captures maxMatch) :
    isMatchReg R c.input c.pattern maxMatch out = (false, out) := by
  have hnot := of_decide_eq_false hc
  by_cases hcom : R.regcomp c.pattern = 0
  · have hstatus : (R.regexec c.pattern c.input maxMatch).1 ≠ 0 := fun h ↦ hnot ⟨hcom, h⟩
    simp [isMatchReg, hcom, hstatus]
  · simp [isMatchReg, hcom]

theorem isMatchReg_matchedSize (hc : c.succeeds R maxMatch = true) (out : Captures maxMatch) :
    (isMatchReg R c.input c.pattern maxMatch out).2.matchedSize =
      out.matchedSize + c.groupCount R maxMatch := by
  rw [isMatchReg_of_succeeds hc, foldl_storeGroup_matchedSize, groupCount]

theorem isMatchReg_matchStrArray (hc : c.succeeds R maxMatch = true) (out : Captures maxMatch)
    (i : Fin maxMatch) :
    (isMatchReg R c.input c.pattern maxMatch out).2.matchStrArray i =
      if (c.groups R maxMatch i).tookPart = true then (c.groups R maxMatch i).text c.input
      else out.matchStrArray i := by
  rw [isMatchReg_of_succeeds hc, foldl_storeGroup_matchStrArray]
  simp only [List.mem_finRange, true_and]

end MatchCall

namespace Captures

variable {R : LibcRegex} {maxMatch : ℕ}

theorem ownMatch_of_fails {c : MatchCall} (hc : c.succeeds R maxMatch = false)
    (out : Captures maxMatch) : OwnMatch R out c := by
  intro htrue
  rw [MatchCall.isMatchReg_of_fails hc] at htrue
  contradiction

theorem ownMatch_iff_cleared {out : Captures maxMatch} {c : MatchCall} :
    OwnMatch R out c ↔ Cleared R out c := by
  cases hc : c.succeeds R maxMatch with
  | false =>
      refine ⟨fun _ h ↦ ?_, fun _ ↦ ownMatch_of_fails hc out⟩
      rw [hc] at h
      contradiction
  | true =>
      have hret : (isMatchReg R c.input c.pattern maxMatch out).1 = true := by
        rw [MatchCall.isMatchReg_of_succeeds hc]
      constructor
      · intro hown _
        obtain ⟨hsize, htexts⟩ := hown hret
        rw [MatchCall.isMatchReg_matchedSize hc] at hsize
        refine ⟨by omega, ?_⟩
        intro i hleft
        have hi := htexts i
        rw [MatchCall.isMatchReg_matchStrArray hc, hleft, RegMatch.text_eq_nil hleft] at hi
        simpa using hi
      · intro hclear _
        obtain ⟨hsize, hempty⟩ := hclear hc
        refine ⟨?_, ?_⟩
        · rw [MatchCall.isMatchReg_matchedSize hc, hsize, Int.zero_add]
        · intro i
          rw [MatchCall.isMatchReg_matchStrArray hc]
          cases htook : (c.groups R maxMatch i).tookPart with
          | true => rfl
          | false => simp [hempty i htook, RegMatch.text_eq_nil htook]

/-- Two callers get the same outputs exactly if nothing that the call leaves in
place was different before. -/
theorem outputs_eq_iff {out out' : Captures maxMatch} {c : MatchCall} :
    (isMatchReg R c.input c.pattern maxMatch out).2 =
        (isMatchReg R c.input c.pattern maxMatch out').2 ↔
      out.matchedSize = out'.matchedSize ∧
        ∀ i, c.succeeds R maxMatch = true ∧ (c.groups R maxMatch i).tookPart = true ∨
          out.matchStrArray i = out'.matchStrArray i := by
  cases hc : c.succeeds R maxMatch with
  | false =>
      rw [MatchCall.isMatchReg_of_fails hc, MatchCall.isMatchReg_of_fails hc, Captures.ext_iff,
        funext_iff, and_comm]
      simp
  | true =>
      rw [Captures.ext_iff, funext_iff, MatchCall.isMatchReg_matchedSize hc,
        MatchCall.isMatchReg_matchedSize hc, Int.add_left_inj, and_comm]
      apply and_congr_right
      intro _
      apply forall_congr'
      intro i
      rw [MatchCall.isMatchReg_matchStrArray hc, MatchCall.isMatchReg_matchStrArray hc]
      cases htook : (c.groups R maxMatch i).tookPart with
      | true => simp
      | false => simp

/-! ## Sequences of calls -/

theorem eachStep_cons {C : Captures maxMatch → MatchCall → Prop} {out : Captures maxMatch}
    {c : MatchCall} {cs : List MatchCall} :
    (calls R maxMatch).EachStep C out (c :: cs) ↔
      C out c ∧
        (calls R maxMatch).EachStep C (isMatchReg R c.input c.pattern maxMatch out).2 cs := by
  constructor
  · intro h
    exact h _ rfl
  · rintro h t ht
    obtain rfl := Option.some.inj ht
    exact h

theorem eachStep_congr {C D : Captures maxMatch → MatchCall → Prop}
    (hCD : ∀ out c, C out c ↔ D out c) (out : Captures maxMatch) (cs : List MatchCall) :
    (calls R maxMatch).EachStep C out cs ↔ (calls R maxMatch).EachStep D out cs := by
  induction cs generalizing out with
  | nil => exact Iff.rfl
  | cons c cs ih => rw [eachStep_cons, eachStep_cons, hCD, ih]

/-- Once the counter has counted a group, no call may match any more. -/
theorem eachStep_ownMatch_of_pos {out : Captures maxMatch} (hpos : 0 < out.matchedSize)
    (cs : List MatchCall) :
    (calls R maxMatch).EachStep (OwnMatch R) out cs ↔
      ∀ c ∈ cs, c.succeeds R maxMatch = false := by
  induction cs with
  | nil => exact ⟨fun _ _ h ↦ absurd h List.not_mem_nil, fun _ ↦ trivial⟩
  | cons c cs ih =>
      rw [eachStep_cons, List.forall_mem_cons]
      cases hc : c.succeeds R maxMatch with
      | false =>
          rw [MatchCall.isMatchReg_of_fails hc, ih]
          simp [ownMatch_of_fails hc]
      | true =>
          have hnot : ¬OwnMatch R out c := by
            intro hown
            have hzero := (ownMatch_iff_cleared.mp hown hc).1
            omega
          simp [hnot]

theorem cleared_fresh (c : MatchCall) : Cleared R (fresh maxMatch) c :=
  fun _ ↦ ⟨rfl, fun _ _ ↦ rfl⟩

theorem outputs_of_groupCount_eq_zero {c : MatchCall} (hc : c.succeeds R maxMatch = true)
    (hcount : c.groupCount R maxMatch = 0) (out : Captures maxMatch) :
    (isMatchReg R c.input c.pattern maxMatch out).2 = out := by
  apply Captures.ext
  · funext i
    have hleft := List.countP_eq_zero.mp hcount i (List.mem_finRange i)
    rw [MatchCall.isMatchReg_matchStrArray hc, if_neg hleft]
  · rw [MatchCall.isMatchReg_matchedSize hc, hcount]
    exact Int.add_zero _

theorem eachStep_ownMatch_fresh (cs : List MatchCall) :
    (calls R maxMatch).EachStep (OwnMatch R) (fresh maxMatch) cs ↔
      cs.Pairwise fun c d ↦ c.succeeds R maxMatch = true → d.succeeds R maxMatch = true →
        c.groupCount R maxMatch = 0 := by
  induction cs with
  | nil => exact ⟨fun _ ↦ .nil, fun _ ↦ trivial⟩
  | cons c cs ih =>
      rw [eachStep_cons, List.pairwise_cons, ownMatch_iff_cleared,
        and_iff_right (cleared_fresh c)]
      cases hc : c.succeeds R maxMatch with
      | false =>
          rw [MatchCall.isMatchReg_of_fails hc, ih]
          simp
      | true =>
          by_cases hcount : c.groupCount R maxMatch = 0
          · rw [outputs_of_groupCount_eq_zero hc hcount, ih]
            simp [hcount]
          · have hpos : 0 <
                (isMatchReg R c.input c.pattern maxMatch (fresh maxMatch)).2.matchedSize := by
              rw [MatchCall.isMatchReg_matchedSize hc]
              have hzero : (fresh maxMatch).matchedSize = 0 := rfl
              omega
            rw [eachStep_ownMatch_of_pos hpos]
            constructor
            · intro hnone
              refine ⟨?_, ?_⟩
              · intro d hd _ hmatch
                rw [hnone d hd] at hmatch
                contradiction
              · apply List.pairwise_of_forall_mem_list
                intro d hd _ _ hmatch
                rw [hnone d hd] at hmatch
                contradiction
            · rintro ⟨hfirst, -⟩ d hd
              cases hmatch : d.succeeds R maxMatch with
              | false => rfl
              | true => exact absurd (hfirst d hd rfl hmatch) hcount

end Captures

/-- Along every sequence of calls the outputs are each call's own exactly if the
caller clears before each match what the match adds to or leaves in place. With
variables cleared only once, that is until the first match after one in which a
group took part. And the outputs of a call do not depend on what has happened
before exactly in what the call writes. -/
theorem captures_iff (R : LibcRegex) (maxMatch : ℕ) :
    (∀ (out : Captures maxMatch) (cs : List MatchCall),
      (Captures.calls R maxMatch).EachStep (Captures.OwnMatch R) out cs ↔
        (Captures.calls R maxMatch).EachStep (Captures.Cleared R) out cs) ∧
    (∀ cs : List MatchCall,
      (Captures.calls R maxMatch).EachStep (Captures.OwnMatch R) (.fresh maxMatch) cs ↔
        cs.Pairwise fun c d ↦ c.succeeds R maxMatch = true → d.succeeds R maxMatch = true →
          c.groupCount R maxMatch = 0) ∧
    ∀ (out out' : Captures maxMatch) (c : MatchCall),
      (isMatchReg R c.input c.pattern maxMatch out).2 =
          (isMatchReg R c.input c.pattern maxMatch out').2 ↔
        out.matchedSize = out'.matchedSize ∧
          ∀ i, c.succeeds R maxMatch = true ∧ (c.groups R maxMatch i).tookPart = true ∨
            out.matchStrArray i = out'.matchStrArray i := by
  refine ⟨?_, Captures.eachStep_ownMatch_fresh, fun _ _ _ ↦ Captures.outputs_eq_iff⟩
  exact Captures.eachStep_congr fun _ _ ↦ Captures.ownMatch_iff_cleared

/-- What the C library does for the pattern `"(.)?"`, asked for two groups: the
optional group takes no part when the input is empty. -/
def optionalGroup : LibcRegex where
  regcomp _ := 0
  regexec _ input _ :=
    (0, fun i ↦
      if h : input = [] then
        if i.val = 0 then ⟨0, 0, by simp⟩ else .none _
      else
        have : 1 ≤ input.length := List.length_pos_iff.mpr h
        if i.val ≤ 1 then ⟨0, 1, by omega⟩ else .none _)

/-- The inputs are `"a"` and then an empty line: its one group is counted on top
of the first call's two, whose `"a"` is still there. -/
theorem captures_leak :
    let out := (isMatchReg optionalGroup [97] [40, 46, 41, 63] 2 (.fresh 2)).2
    let next := isMatchReg optionalGroup [] [40, 46, 41, 63] 2 out
    next.1 = true ∧ next.2.matchedSize = 3 ∧ next.2.matchStrArray 1 = [97] ∧
      ¬(Captures.calls optionalGroup 2).EachStep (Captures.OwnMatch optionalGroup) (.fresh 2)
        [⟨[97], [40, 46, 41, 63]⟩, ⟨[], [40, 46, 41, 63]⟩] := by
  decide +kernel

end SimpleFlow
