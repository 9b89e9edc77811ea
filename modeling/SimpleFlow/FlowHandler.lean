import SimpleFlow.Library.Delimited
import Mathlib.Data.List.TakeWhile

/-!
# Flow handlers and the line handler

`FlowHandler` is the interface that the file agent and the flow server drive:
a buffer and a byte count go in, an `int` comes out. `LineFlowHandler` is the
repository's own handler. Its `do_handle` is written with every buffer and
vector access checked, so that an access the source makes outside its bounds
is a visible `Fault` and not a value.
-/

namespace SimpleFlow

abbrev Bytes := List UInt8

def newline : UInt8 := 10

/-- What the source does not define inside `do_handle`: an access outside a
buffer or a vector, a string built from a negative length. -/
inductive Fault where
  | lengthError
  | readPastBuffer
  | readBeforeBuffer
  | endOfEmptyVector
  | indexOfEmptyVector
  deriving DecidableEq, Repr

/-- `FlowHandler::do_handle` on a handler whose own state is `σ`. -/
structure FlowHandler (σ : Type) where
  doHandle : σ → Bytes → Int → Except Fault (Int × σ)

/-- The base class answers 0 and does nothing. -/
def FlowHandler.base : FlowHandler Unit where
  doHandle := fun s _ _ ↦ .ok (0, s)

/-! ## `std::getline` on a string stream -/

structure StringStream where
  rest : Bytes
  eofbit : Bool
  failbit : Bool
  deriving DecidableEq, Repr

namespace StringStream

def ofString (str : Bytes) : StringStream := ⟨str, false, false⟩

def good (ss : StringStream) : Bool := !ss.eofbit && !ss.failbit

/-- A bound on the passes that a `while(ss.good())` loop of `getline` calls
still makes: one for each byte left and one that meets the end. -/
def passes (ss : StringStream) : ℕ := if ss.good then ss.rest.length + 1 else 0

theorem passes_of_good {ss : StringStream} (h : ss.good = true) :
    ss.passes = ss.rest.length + 1 := by
  simp [passes, h]

theorem passes_le (ss : StringStream) : ss.passes ≤ ss.rest.length + 1 := by
  unfold passes
  split <;> omega

end StringStream

/-- `std::getline(ss, temp, delim)` with `temp` empty before the call. The end
of the stream sets `eofbit`, and `failbit` when nothing was extracted; an
extracted delimiter sets neither. -/
def getline (ss : StringStream) (delim : UInt8) : Bytes × StringStream :=
  if ss.good then
    let temp := ss.rest.takeWhile fun b ↦ b != delim
    match ss.rest.dropWhile fun b ↦ b != delim with
    | [] => (temp, ⟨[], true, temp.isEmpty⟩)
    | _ :: rest => (temp, ⟨rest, false, false⟩)
  else ([], { ss with failbit := true })

theorem getline_of_notMem {ss : StringStream} (h : ss.good = true) {delim : UInt8}
    (hd : delim ∉ ss.rest) : getline ss delim = (ss.rest, ⟨[], true, ss.rest.isEmpty⟩) := by
  have hall : ∀ b ∈ ss.rest, (b != delim) = true := by
    intro b hb
    simpa using fun heq : b = delim ↦ hd (heq ▸ hb)
  have htake := List.takeWhile_eq_self_iff.mpr hall
  have hdrop := List.dropWhile_eq_nil_iff.mpr hall
  simp only [getline, h, if_true, htake, hdrop]

theorem getline_of_append_cons {ss : StringStream} (h : ss.good = true) {delim : UInt8}
    {temp rest : Bytes} (heq : ss.rest = temp ++ delim :: rest) (hd : delim ∉ temp) :
    getline ss delim = (temp, ⟨rest, false, false⟩) := by
  have hall : ∀ b ∈ temp, (b != delim) = true := by
    intro b hb
    simpa using fun hbd : b = delim ↦ hd (hbd ▸ hb)
  have htake : ss.rest.takeWhile (fun b ↦ b != delim) = temp := by
    rw [heq, List.takeWhile_append_of_pos hall]
    simp
  have hdrop : ss.rest.dropWhile (fun b ↦ b != delim) = delim :: rest := by
    rw [heq, List.dropWhile_append_of_pos hall]
    simp
  simp only [getline, h, if_true, htake, hdrop]

theorem getline_passes_lt {ss : StringStream} (h : ss.good = true) (delim : UInt8) :
    (getline ss delim).2.passes < ss.passes := by
  rw [StringStream.passes_of_good h]
  by_cases hd : delim ∈ ss.rest
  · obtain ⟨temp, rest, heq, hd'⟩ := List.eq_append_cons_of_mem hd
    rw [getline_of_append_cons h heq hd', heq]
    have hle := StringStream.passes_le ⟨rest, false, false⟩
    simp only [List.length_append, List.length_cons] at hle ⊢
    omega
  · rw [getline_of_notMem h hd]
    simp [StringStream.passes, StringStream.good]

/-- The loop of `split_str`. The bound `n` is never what ends it: at `n = 0`
the stream is no longer good. -/
def splitLoop (splitChar : UInt8) : (n : ℕ) → (ss : StringStream) → ss.passes ≤ n → List Bytes
  | 0, _, _ => []
  | n + 1, ss, h =>
      if hg : ss.good = true then
        let temp := (getline ss splitChar).1
        let result := splitLoop splitChar n (getline ss splitChar).2
          (Nat.le_of_lt_succ (Nat.lt_of_lt_of_le (getline_passes_lt hg splitChar) h))
        if temp.isEmpty then result else temp :: result
      else []

/-- `LineFlowHandler::split_str` -/
def splitStr (str : Bytes) (splitChar : UInt8) : List Bytes :=
  splitLoop splitChar (StringStream.ofString str).passes (StringStream.ofString str) (Nat.le_refl _)

/-! ## `LineFlowHandler` -/

/-- The virtual `handle_lines` of a derived class whose own state is `τ`. -/
structure LineHandler (τ : Type) where
  handleLines : τ → List Bytes → Int × τ

/-- The base class answers 0 and ignores the lines. -/
def LineHandler.base : LineHandler Unit where
  handleLines := fun t _ ↦ (0, t)

/-- `part_line`, the state of the derived class, and as a record for the
proofs the batches given to `handle_lines` so far with the answer to each. -/
structure LineFlowHandler (τ : Type) where
  partLine : Bytes
  derived : τ
  batches : List (List Bytes × Int)

namespace LineFlowHandler

variable {τ : Type}

def fresh (t : τ) : LineFlowHandler τ := ⟨[], t, []⟩

/-- The vectors passed to `handle_lines` so far, concatenated. -/
def emitted (h : LineFlowHandler τ) : List Bytes := h.batches.flatMap Prod.fst

/-- `handle_lines(lines)`; the caller drops the answer. -/
def callHandleLines (L : LineHandler τ) (h : LineFlowHandler τ) (lines : List Bytes) :
    LineFlowHandler τ :=
  { h with
    derived := (L.handleLines h.derived lines).2
    batches := h.batches ++ [(lines, (L.handleLines h.derived lines).1)] }

/-- `std::string(flow_bytes, size)` -/
def makeString (flowBytes : Bytes) (size : Int) : Except Fault Bytes :=
  if size < 0 then .error .lengthError
  else if flowBytes.length < size.toNat then .error .readPastBuffer
  else .ok (flowBytes.take size.toNat)

/-- `*(flow_bytes + i)` -/
def readAt (flowBytes : Bytes) (i : Int) : Except Fault UInt8 :=
  if i < 0 then .error .readBeforeBuffer
  else
    match flowBytes[i.toNat]? with
    | none => .error .readPastBuffer
    | some b => .ok b

/-- `std::vector<std::string>(lines.begin(), lines.end() - 1)` -/
def withoutLast (lines : List Bytes) : Except Fault (List Bytes) :=
  if lines.isEmpty then .error .endOfEmptyVector else .ok lines.dropLast

/-- `lines[lines.size() - 1]` -/
def lastOf (lines : List Bytes) : Except Fault Bytes :=
  match lines.getLast? with
  | none => .error .indexOfEmptyVector
  | some line => .ok line

/-- `LineFlowHandler::do_handle` -/
def doHandle (L : LineHandler τ) (h : LineFlowHandler τ) (flowBytes : Bytes) (size : Int) :
    Except Fault (Int × LineFlowHandler τ) := do
  let tempStr ← makeString flowBytes size
  let flowStr := (if h.partLine.isEmpty then [] else h.partLine) ++ tempStr
  let h : LineFlowHandler τ := if h.partLine.isEmpty then h else { h with partLine := [] }
  let lines := splitStr flowStr newline
  let last ← readAt flowBytes (size - 1)
  if last == newline then
    return (0, callHandleLines L h lines)
  else
    let fullLines ← withoutLast lines
    let h := callHandleLines L h fullLines
    let line ← lastOf lines
    return (0, { h with partLine := line })

def asFlowHandler (L : LineHandler τ) : FlowHandler (LineFlowHandler τ) where
  doHandle := doHandle L

end LineFlowHandler

/-- A buffer together with how many of its bytes are meant. The callers of
`do_handle` in this repository only ever pass such a pair. -/
structure Chunk where
  buffer : Bytes
  size : ℕ
  size_pos : 0 < size
  size_le : size ≤ buffer.length

namespace Chunk

def bytes (c : Chunk) : Bytes := c.buffer.take c.size

theorem bytes_length (c : Chunk) : c.bytes.length = c.size := by
  simp [bytes, c.size_le]

theorem bytes_ne_nil (c : Chunk) : c.bytes ≠ [] := by
  apply List.ne_nil_of_length_pos
  rw [c.bytes_length]
  exact c.size_pos

def full (bytes : Bytes) (h : bytes ≠ []) : Chunk :=
  ⟨bytes, bytes.length, List.length_pos_of_ne_nil h, Nat.le_refl _⟩

end Chunk

end SimpleFlow
