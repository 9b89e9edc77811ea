import SimpleFlow.HttpConversation
import SimpleFlow.Library.LineFraming

/-!
# What a client reads

A client reads a response line by line up to the empty one and then as many bytes
as `Content-Length` says. It reads back what `gen_response` wrote, and behind it
the next response, as long as no handler breaks a line or sets its own
`Content-Length`.
-/

namespace SimpleFlow

open LineFraming LabelledSystem HttpConnection

/-- A number of decimal digits. -/
def readNumber (digits : Bytes) : ℕ := digits.foldl (fun n c ↦ 10 * n + (c.toNat - 48)) 0

/-- A response as a client has read it. -/
structure Received where
  statusLine : Bytes
  lines : List Bytes
  body : Bytes
  deriving DecidableEq, Repr

def contentLengthKey : Bytes := ascii "Content-Length: "

/-- What the first `Content-Length` says. -/
def contentLength (lines : List Bytes) : Option ℕ :=
  lines.findSome? fun line ↦
    if contentLengthKey <+: line then some (readNumber (line.drop contentLengthKey.length))
    else none

/-- A response and the bytes behind it. -/
def readResponse (bytes : Bytes) : Option (Received × Bytes) := do
  let (statusLine, rest) ← readLine CR LF bytes
  let (lines, rest) ← readLines CR LF rest.length rest
  let length ← contentLength lines
  if length ≤ rest.length then
    return (⟨statusLine, lines, rest.take length⟩, rest.drop length)
  else none

/-- `n` responses and nothing behind them. -/
def readResponses : (n : ℕ) → Bytes → Option (List Received)
  | 0, bytes => if bytes = [] then some [] else none
  | n + 1, bytes => do
      let (r, rest) ← readResponse bytes
      let rs ← readResponses n rest
      return r :: rs

/-! ## The numbers -/

theorem mem_digits {n : ℕ} {c : Char} (hc : c ∈ (toString n).toList) :
    48 ≤ c.toNat ∧ c.toNat ≤ 57 := by
  rw [Nat.toString_eq_repr, Nat.toList_repr] at hc
  exact Char.isDigit_iff_toNat.mp (Nat.isDigit_of_mem_toDigits (by decide) (by decide) hc)

theorem readNumber_decimal (n : ℕ) : readNumber (decimal n) = n := by
  have hfold : ∀ (cs : List Char) (init : ℕ), (∀ c ∈ cs, 48 ≤ c.toNat ∧ c.toNat ≤ 57) →
      (cs.map fun c ↦ UInt8.ofNat c.toNat).foldl (fun n c ↦ 10 * n + (c.toNat - 48)) init =
        Nat.ofDigitChars 10 cs init := by
    intro cs
    induction cs with
    | nil => exact fun init _ ↦ by simp
    | cons c cs ih =>
        intro init hcs
        have hc : (UInt8.ofNat c.toNat).toNat = c.toNat := by
          have hle := (hcs c List.mem_cons_self).2
          rw [UInt8.toNat_ofNat']
          omega
        rw [List.map_cons, List.foldl_cons, hc, Nat.ofDigitChars_cons,
          ih _ fun d hd ↦ hcs d (List.mem_cons_of_mem c hd)]
        rfl
  have hdigits : (toString n).toList = Nat.toDigits 10 n := by
    rw [Nat.toString_eq_repr, Nat.toList_repr]
  calc readNumber (decimal n) = Nat.ofDigitChars 10 (toString n).toList 0 :=
        hfold (toString n).toList 0 fun c hc ↦ mem_digits hc
    _ = n := by rw [hdigits, Nat.ofDigitChars_ten_toDigits]

theorem LF_notMem_decimal (n : Int) : LF ∉ decimal n := by
  have hdigits : ∀ k : ℕ, LF ∉ ascii (toString k) := by
    intro k hmem
    obtain ⟨c, hc, heq⟩ := List.mem_map.mp hmem
    obtain ⟨hge, hle⟩ := mem_digits hc
    have hnat := congrArg UInt8.toNat heq
    rw [UInt8.toNat_ofNat'] at hnat
    have hLF : LF.toNat = 10 := rfl
    omega
  cases n with
  | ofNat k => exact hdigits k
  | negSucc k =>
      have hminus : LF ∉ ascii "-" := by decide
      simp only [decimal, List.mem_append, not_or]
      exact ⟨hminus, hdigits (k + 1)⟩

/-! ## One response -/

namespace Reply

variable (r : Reply)

/-- No line is broken, and `Content-Length` is left to `gen_response`. -/
structure Clean (r : Reply) : Prop where
  msg : LF ∉ r.codeMsg.msg
  headers : ∀ h ∈ r.headers, LF ∉ h.1 ∧ LF ∉ h.2
  length : r.hasHead (ascii "Content-Length") = false

def statusLine (httpVersion : Bytes) : Bytes :=
  httpVersion ++ ascii " " ++ decimal r.codeMsg.statusCode ++ ascii " " ++ r.codeMsg.msg

/-- The lines between the status line and the empty one. -/
def lines (isKeepalive : Bool) : List Bytes :=
  (ascii "Server: ehttp/" ++ ascii "1.0.4") ::
    ((if r.hasHead (ascii "Content-Type") then []
      else [ascii "Content-Type: application/json; charset=UTF-8"]) ++
    (contentLengthKey ++ decimal r.body.length) ::
    (if isKeepalive then ascii "Connection: Keep-Alive" else ascii "Connection: close") ::
    r.headers.map fun h ↦ h.1 ++ ascii ": " ++ h.2)

/-- What a client reads of the response. -/
def received (httpVersion : Bytes) (isKeepalive : Bool) : Received :=
  ⟨r.statusLine httpVersion, r.lines isKeepalive, r.body⟩

instance : Decidable r.Clean :=
  decidable_of_iff (LF ∉ r.codeMsg.msg ∧ (∀ h ∈ r.headers, LF ∉ h.1 ∧ LF ∉ h.2) ∧
    r.hasHead (ascii "Content-Length") = false)
    ⟨fun h ↦ ⟨h.1, h.2.1, h.2.2⟩, fun h ↦ ⟨h.msg, h.headers, h.length⟩⟩

variable {r} {httpVersion : Bytes} {isKeepalive : Bool}

theorem genBytes_eq (hlength : r.hasHead (ascii "Content-Length") = false) :
    Response.genBytes r httpVersion isKeepalive =
      terminated CR LF (r.statusLine httpVersion) ++
        ((r.lines isKeepalive).flatMap (terminated CR LF) ++
          (terminated CR LF [] ++ r.body)) := by
  have hheaders : r.headers.flatMap (fun h ↦ h.1 ++ ascii ": " ++ h.2 ++ crlf) =
      (r.headers.map fun h ↦ h.1 ++ ascii ": " ++ h.2).flatMap (terminated CR LF) := by
    rw [List.flatMap_map]
    rfl
  simp only [Response.genBytes, hheaders, hlength, lines, statusLine]
  cases r.hasHead (ascii "Content-Type") <;> cases isKeepalive <;>
    simp [terminated, crlf, contentLengthKey]

theorem contentLength_lines : contentLength (r.lines isKeepalive) = some r.body.length := by
  have hserver : ¬contentLengthKey <+: ascii "Server: ehttp/" ++ ascii "1.0.4" := by decide
  have htype : ¬contentLengthKey <+: ascii "Content-Type: application/json; charset=UTF-8" := by
    decide
  have hkey : contentLengthKey <+: contentLengthKey ++ decimal r.body.length :=
    List.prefix_append _ _
  have hnumber : readNumber (decimal r.body.length) = r.body.length := readNumber_decimal _
  cases hhead : r.hasHead (ascii "Content-Type") <;>
    simp [contentLength, lines, hhead, hserver, htype, hkey, hnumber]

theorem Clean.lines (h : r.Clean) : ∀ line ∈ r.lines isKeepalive, line ≠ [] ∧ LF ∉ line := by
  have hclosed : ∀ line ∈ [ascii "Server: ehttp/" ++ ascii "1.0.4",
      ascii "Content-Type: application/json; charset=UTF-8", ascii "Connection: Keep-Alive",
      ascii "Connection: close"], line ≠ [] ∧ LF ∉ line := by decide
  have hkey : LF ∉ contentLengthKey := by decide
  have hcolon : LF ∉ ascii ": " := by decide
  intro line hline
  rcases List.mem_cons.mp hline with rfl | hline
  · exact hclosed _ (by simp)
  rcases List.mem_append.mp hline with htype | hline
  · split at htype
    · cases htype
    · obtain rfl := List.mem_singleton.mp htype
      exact hclosed _ (by simp)
  rcases List.mem_cons.mp hline with rfl | hline
  · refine ⟨by simp [contentLengthKey, ascii], ?_⟩
    rw [List.mem_append, not_or]
    exact ⟨hkey, LF_notMem_decimal _⟩
  rcases List.mem_cons.mp hline with rfl | hline
  · cases isKeepalive <;> exact hclosed _ (by simp)
  · obtain ⟨head, hhead, rfl⟩ := List.mem_map.mp hline
    obtain ⟨hname, hvalue⟩ := h.headers head hhead
    refine ⟨by simp [ascii], ?_⟩
    simp only [List.mem_append, not_or]
    exact ⟨⟨hname, hcolon⟩, hvalue⟩

theorem Clean.statusLine (h : r.Clean) (hversion : LF ∉ httpVersion) :
    LF ∉ r.statusLine httpVersion := by
  have hblank : LF ∉ ascii " " := by decide
  simp only [Reply.statusLine, List.mem_append, not_or]
  exact ⟨⟨⟨⟨hversion, hblank⟩, LF_notMem_decimal _⟩, hblank⟩, h.msg⟩

end Reply

theorem length_le_flatMap_terminated (lines : List Bytes) :
    lines.length ≤ (lines.flatMap (terminated CR LF)).length := by
  induction lines with
  | nil => exact Nat.le_refl _
  | cons line lines ih =>
      simp only [List.length_cons, List.flatMap_cons, List.length_append, terminated]
      omega

/-- What `gen_response` has written is read back, whatever comes behind it. -/
theorem readResponse_genBytes {r : Reply} {httpVersion : Bytes} {isKeepalive : Bool}
    (h : r.Clean) (hversion : LF ∉ httpVersion) (rest : Bytes) :
    readResponse (Response.genBytes r httpVersion isKeepalive ++ rest) =
      some (r.received httpVersion isKeepalive, rest) := by
  have hne : CR ≠ LF := by decide
  let behind := (r.lines isKeepalive).flatMap (terminated CR LF) ++
    (terminated CR LF [] ++ (r.body ++ rest))
  have hbytes : Response.genBytes r httpVersion isKeepalive ++ rest =
      terminated CR LF (r.statusLine httpVersion) ++ behind := by
    rw [Reply.genBytes_eq h.length]
    simp [behind]
  have hroom : (r.lines isKeepalive).length < behind.length := by
    have hle := length_le_flatMap_terminated (r.lines isKeepalive)
    simp only [behind, List.length_append, terminated, List.length_cons]
    omega
  have hfirst := readLine_append hne (h.statusLine hversion) behind
  have hlines : readLines CR LF behind.length behind =
      some (r.lines isKeepalive, r.body ++ rest) :=
    readLines_append hne h.lines (r.body ++ rest) hroom
  rw [hbytes]
  simp [readResponse, hfirst, hlines, Reply.contentLength_lines, Reply.received]

/-! ## A whole conversation -/

theorem readResponses_flatMap {α : Type} {response : α → Bytes} {received : α → Received}
    {items : List α} (hitems : ∀ x ∈ items, ∀ rest,
      readResponse (response x ++ rest) = some (received x, rest)) :
    readResponses items.length (items.flatMap response) = some (items.map received) := by
  induction items with
  | nil => rfl
  | cons x items ih =>
      have hx := hitems x List.mem_cons_self (items.flatMap response)
      have hrest := ih fun y hy ↦ hitems y (List.mem_cons_of_mem x hy)
      simp [readResponses, hx, hrest]

namespace Visit

variable {Ω : Type} (w : HttpEpollWatcher Ω) (v : Visit Ω)

/-- What the handler answers. -/
def reply : Reply := w.handleRequest v.ω v.request .new

/-- What the client is to read. -/
def received : Received := (reply w v).received v.request.line.httpVersion true

variable {w v}

theorem Served.LF_notMem_version (h : v.Served w) : LF ∉ v.request.line.httpVersion := by
  have hversion : v.request.line.httpVersion = _ := (v.message.describes_of_ok h.ok).version
  have hversions : LF ∉ ascii "HTTP/1.0" ∧ LF ∉ ascii "HTTP/1.1" := by decide
  rw [hversion]
  split
  · exact List.not_mem_nil
  · simp only [HttpParser.version]
    split
    · exact hversions.1
    · split
      · exact hversions.2
      · exact List.not_mem_nil

theorem Served.readResponse (h : v.Served w) (hclean : (reply w v).Clean) (rest : Bytes) :
    readResponse (v.response w ++ rest) = some (received w v, rest) := by
  rw [Visit.response, HttpEpollWatcher.response, h.isKeepalive]
  exact readResponse_genBytes hclean h.LF_notMem_version rest

end Visit

end SimpleFlow
