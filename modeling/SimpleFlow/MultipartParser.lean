import SimpleFlow.QueryParams
import SimpleFlow.Library.DelimiterScan

/-!
# The multipart parser

`multipart_parser_execute` over one buffer that holds the whole body. `turn` is
one pass of its loop: the callbacks that the pass makes, in their order, and the
parser after it, or none where the source returns `i`. In two places the source
writes `mark = i --` to look at a byte again in `s_part_data`, where it always
goes on to the next byte; there the pass includes that second look.
-/

namespace SimpleFlow

def CR : UInt8 := 13

def LF : UInt8 := 10

def hyphen : UInt8 := 45

def colon : UInt8 := 58

/-- `enum state`; `s_uninitialized` is never used. -/
inductive MultipartState where
  | start
  | startBoundary
  | headerFieldStart
  | headerField
  | headersAlmostDone
  | headerValueStart
  | headerValue
  | headerValueAlmostDone
  | partDataStart
  | partData
  | partDataAlmostBoundary
  | partDataBoundary
  | partDataAlmostEnd
  | partDataEnd
  | partDataFinalHyphen
  | finish
  deriving DecidableEq, Repr

/-- The callbacks of a `multipart_parser_settings`. -/
inductive MultipartCall where
  | headerField (bytes : Bytes)
  | headerValue (bytes : Bytes)
  | partData (bytes : Bytes)
  | partDataBegin
  | headersComplete
  | partDataEnd
  | bodyEnd
  deriving DecidableEq, Repr

/-- What a call comes to: its answer, or none when an exception leaves it. -/
abbrev Answer := Option Int

/-- The callbacks on user data `σ`; one that is `NULL` answers 0 and does
nothing. -/
structure MultipartSettings (σ : Type) where
  on : σ → MultipartCall → Answer × σ

/-- The parser and the local `mark` of `multipart_parser_execute`. -/
structure MultipartParser where
  index : ℕ
  state : MultipartState
  lookbehind : Bytes
  mark : ℕ
  deriving DecidableEq, Repr

/-- What `strlen` and `strcpy` see of a string: it ends at its first `\0`. -/
def cString (s : Bytes) : Bytes := s.takeWhile (· != 0)

theorem cString_of_notMem {s : Bytes} (h : 0 ∉ s) : cString s = s := by
  apply List.takeWhile_eq_self_iff.mpr
  intro c hc
  simp only [bne_iff_ne, ne_eq]
  rintro rfl
  exact h hc

namespace MultipartParser

/-- `multipart_parser_init` of a string of that many bytes: what is allocated
behind it is `lookbehind`. -/
def init (boundary : Bytes) : MultipartParser :=
  ⟨0, .start, List.replicate (boundary.length + 9) 0, 0⟩

/-- A pass of the loop: its callbacks, and the parser unless `i` is returned. -/
abbrev Turn := List MultipartCall × Option MultipartParser

section

variable (boundary buf : Bytes) (p : MultipartParser) (i : ℕ) (c : UInt8)

def isLast : Bool := i + 1 == buf.length

/-- The bytes from `mark` to before `j`. -/
def marked (j : ℕ) : Bytes := (buf.take j).drop p.mark

/-- `multipart_boundary[index]`, which ends with a `\0`. -/
def boundaryAt (j : ℕ) : UInt8 := boundary.getD j 0

def startBoundary : Turn :=
  if p.index = boundary.length then
    if c ≠ CR then ([], none) else ([], some { p with index := p.index + 1 })
  else if p.index = boundary.length + 1 then
    if c ≠ LF then ([], none)
    else ([.partDataBegin], some { p with index := 0, state := .headerFieldStart })
  else if c ≠ boundaryAt boundary p.index then ([], none)
  else ([], some { p with index := p.index + 1 })

/-- A letter or a hyphen, after `tolower`. -/
def isFieldChar : Bool := c == hyphen || (97 ≤ c && c ≤ 122) || (65 ≤ c && c ≤ 90)

def headerField : Turn :=
  if c = CR then ([], some { p with state := .headersAlmostDone })
  else if c = colon then
    ([.headerField (p.marked buf i)], some { p with state := .headerValueStart })
  else if isFieldChar c = false then ([], none)
  else if isLast buf i then ([.headerField (p.marked buf (i + 1))], some p)
  else ([], some p)

def headerValue : Turn :=
  if c = CR then
    ([.headerValue (p.marked buf i)], some { p with state := .headerValueAlmostDone })
  else if isLast buf i then ([.headerValue (p.marked buf (i + 1))], some p)
  else ([], some p)

def partData : List MultipartCall × MultipartParser :=
  if c = CR then
    ([.partData (p.marked buf i)],
      { p with mark := i, state := .partDataAlmostBoundary, lookbehind := p.lookbehind.set 0 CR })
  else if isLast buf i then ([.partData (p.marked buf (i + 1))], p)
  else ([], p)

/-- What was held back goes out, and `c` is looked at again in `s_part_data`. -/
def backToData (held : ℕ) : Turn :=
  let again := partData buf { p with state := .partData, mark := i } i c
  (.partData (p.lookbehind.take held) :: again.1, some again.2)

def turn : Turn :=
  match p.state with
  | .start => startBoundary boundary { p with index := 0, state := .startBoundary } c
  | .startBoundary => startBoundary boundary p c
  | .headerFieldStart => headerField buf { p with mark := i, state := .headerField } i c
  | .headerField => headerField buf p i c
  | .headersAlmostDone =>
      if c ≠ LF then ([], none) else ([], some { p with state := .partDataStart })
  | .headerValueStart =>
      if c = space then ([], some p)
      else headerValue buf { p with mark := i, state := .headerValue } i c
  | .headerValue => headerValue buf p i c
  | .headerValueAlmostDone =>
      if c ≠ LF then ([], none) else ([], some { p with state := .headerFieldStart })
  | .partDataStart =>
      let data := partData buf { p with mark := i, state := .partData } i c
      (.headersComplete :: data.1, some data.2)
  | .partData =>
      let data := partData buf p i c
      (data.1, some data.2)
  | .partDataAlmostBoundary =>
      if c = LF then
        ([], some { p with state := .partDataBoundary, lookbehind := p.lookbehind.set 1 LF,
                           index := 0 })
      else backToData buf p i c 1
  | .partDataBoundary =>
      if boundaryAt boundary p.index ≠ c then backToData buf p i c (2 + p.index)
      else
        let q := { p with lookbehind := p.lookbehind.set (2 + p.index) c, index := p.index + 1 }
        if q.index = boundary.length then
          ([.partDataEnd], some { q with state := .partDataAlmostEnd })
        else ([], some q)
  | .partDataAlmostEnd =>
      if c = hyphen then ([], some { p with state := .partDataFinalHyphen })
      else if c = CR then ([], some { p with state := .partDataEnd })
      else ([], none)
  | .partDataFinalHyphen =>
      if c = hyphen then ([.bodyEnd], some { p with state := .finish }) else ([], none)
  | .partDataEnd =>
      if c = LF then ([.partDataBegin], some { p with state := .headerFieldStart })
      else ([], none)
  | .finish => ([], some p)

end

end MultipartParser

namespace MultipartSettings

variable {σ : Type} (settings : MultipartSettings σ)

/-- The callbacks of a pass, until one does not answer 0. -/
def deliver : List MultipartCall → σ → Answer × σ
  | [], s => (some 0, s)
  | call :: calls, s =>
      if (settings.on s call).1 = some 0 then deliver calls (settings.on s call).2
      else settings.on s call

/-- The loop of `multipart_parser_execute` from `i` on, where `rest` is left. It
returns nothing when an exception leaves a callback. -/
def executeFrom (boundary buf : Bytes) : ℕ → Bytes → MultipartParser → σ → Option ℕ × σ
  | i, [], _, s => (some i, s)
  | i, c :: rest, p, s =>
      let called := settings.deliver (p.turn boundary buf i c).1 s
      if called.1 = some 0 then
        match (p.turn boundary buf i c).2 with
        | none => (some i, called.2)
        | some q => executeFrom boundary buf (i + 1) rest q called.2
      else (called.1.map fun _ ↦ i, called.2)

/-- `multipart_parser_execute` of a parser that `multipart_parser_init` has made
for `boundary`. -/
def execute (boundary buf : Bytes) (s : σ) : Option ℕ × σ :=
  settings.executeFrom (cString boundary) buf 0 buf (.init (cString boundary)) s

end MultipartSettings

end SimpleFlow
