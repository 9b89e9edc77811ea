import SimpleFlow.FlowHandler
import SimpleFlow.Library.KeyValues

/-!
# Query strings

`RequestParam::parse_query_url` reads `key=value` pairs separated by `&`, and
`CurlUtils::post` writes them. The two loops of `getline` calls are the library
split, so what one writes the other reads back exactly when no `&` and no `=` is
in a key or a value: neither side escapes anything. `unescape` is what a handler
may apply to a value afterwards.
-/

namespace SimpleFlow

open KeyValues

/-- The bytes of a literal of the source. -/
def ascii (s : String) : Bytes := s.toList.map fun c ↦ UInt8.ofNat c.toNat

def ampersand : UInt8 := 38

def equalsSign : UInt8 := 61

def questionMark : UInt8 := 63

def percent : UInt8 := 37

def plus : UInt8 := 43

def space : UInt8 := 32

theorem getline_of_not_good {ss : StringStream} (h : ss.good = false) (delim : UInt8) :
    getline ss delim = ([], { ss with failbit := true }) := by
  simp only [getline, h, Bool.false_eq_true, if_false]

theorem getline_passes_le (ss : StringStream) (delim : UInt8) :
    (getline ss delim).2.passes ≤ ss.passes := by
  cases h : ss.good with
  | true => exact Nat.le_of_lt (getline_passes_lt h delim)
  | false =>
      rw [getline_of_not_good h]
      simp [StringStream.passes, StringStream.good]

theorem passes_ofString_le (s : Bytes) : (StringStream.ofString s).passes ≤ s.length + 1 :=
  StringStream.passes_le _

theorem getline_passes_of_good {ss : StringStream} {n : ℕ} (hg : ss.good = true)
    (h : ss.passes ≤ n + 1) (delim : UInt8) : (getline ss delim).2.passes ≤ n :=
  Nat.le_of_lt_succ (Nat.lt_of_lt_of_le (getline_passes_lt hg delim) h)

/-- The inner loop of `parse_query_url`, on one `key_value`. -/
def keyValueLoop : (n : ℕ) → (ss : StringStream) → ss.passes ≤ n → List (Bytes × Bytes)
  | 0, _, _ => []
  | n + 1, ss, h =>
      if hg : ss.good = true then
        let key := (getline ss equalsSign).1
        let value := (getline (getline ss equalsSign).2 equalsSign).1
        (key, value) :: keyValueLoop n (getline (getline ss equalsSign).2 equalsSign).2
          (Nat.le_trans (getline_passes_le _ equalsSign)
            (getline_passes_of_good hg h equalsSign))
      else []

/-- The pairs that `parse_query_url` inserts for one `key_value`. -/
def parseKeyValue (keyValue : Bytes) : List (Bytes × Bytes) :=
  keyValueLoop (keyValue.length + 1) (.ofString keyValue) (passes_ofString_le keyValue)

/-- The outer loop of `parse_query_url`. -/
def queryLoop : (n : ℕ) → (ss : StringStream) → ss.passes ≤ n → List (Bytes × Bytes)
  | 0, _, _ => []
  | n + 1, ss, h =>
      if hg : ss.good = true then
        parseKeyValue (getline ss ampersand).1 ++
          queryLoop n (getline ss ampersand).2 (getline_passes_of_good hg h ampersand)
      else []

/-- The multimap of a `RequestParam`, in the order of the insertions: only
`find` and `equal_range` look at it, and both keep to that order in a key. -/
structure RequestParam where
  params : List (Bytes × Bytes)
  deriving DecidableEq, Repr

namespace RequestParam

def empty : RequestParam := ⟨[]⟩

def addParamPair (r : RequestParam) (key value : Bytes) : RequestParam :=
  ⟨r.params ++ [(key, value)]⟩

/-- `RequestParam::parse_query_url` -/
def parseQueryUrl (r : RequestParam) (queryUrl : Bytes) : RequestParam :=
  ⟨r.params ++ queryLoop (queryUrl.length + 1) (.ofString queryUrl) (passes_ofString_le queryUrl)⟩

/-- `RequestParam::get_param` -/
def getParam (r : RequestParam) (name : Bytes) : Bytes :=
  match r.params.find? fun p ↦ p.1 = name with
  | none => []
  | some p => p.2

/-- `RequestParam::get_params` -/
def getParams (r : RequestParam) (name : Bytes) : List Bytes :=
  (r.params.filter fun p ↦ p.1 = name).map Prod.snd

end RequestParam

/-- The loop of `CurlUtils::post` over its map, given in the order of its keys. -/
def postFields : ℕ → List (Bytes × Bytes) → Bytes
  | _, [] => []
  | i, (key, value) :: params =>
      (if i ≠ 0 then [ampersand] else []) ++ key ++ [equalsSign] ++ value ++
        postFields (i + 1) params

/-- The string `post_url` that `CurlUtils::post` builds. -/
def CurlUtils.postUrl (params : List (Bytes × Bytes)) : Bytes := postFields 0 params

/-! ## `unescape` -/

def ishex (c : UInt8) : Bool :=
  (97 ≤ c && c ≤ 102) || (65 ≤ c && c ≤ 70) || (48 ≤ c && c ≤ 57)

/-- The value of a hexadecimal digit, as `strtol` reads it. -/
def hexDigit (c : UInt8) : ℕ :=
  if 97 ≤ c then c.toNat - 87 else if 65 ≤ c then c.toNat - 55 else c.toNat - 48

/-- `(unsigned char) strtol(temp.c_str(), &ptr, 16)` on two hexadecimal digits. -/
def hexByte (high low : UInt8) : UInt8 := UInt8.ofNat (16 * hexDigit high + hexDigit low)

/-- `unescape`. Behind the last byte the source reads the `\0` that ends the
string, which is no hexadecimal digit. -/
def unescape : Bytes → Bytes
  | [] => []
  | [c] => [if c = plus then space else c]
  | [c, d] => (if c = plus then space else c) :: unescape [d]
  | c :: high :: low :: rest =>
      if c = percent ∧ ishex high = true ∧ ishex low = true then
        hexByte high low :: unescape rest
      else (if c = plus then space else c) :: unescape (high :: low :: rest)

/-! ## What the loops compute -/

theorem keyValueLoop_of_not_good {ss : StringStream} (hg : ss.good = false) (n : ℕ)
    (h : ss.passes ≤ n) : keyValueLoop n ss h = [] := by
  cases n with
  | zero => rfl
  | succ n => simp [keyValueLoop, hg]

theorem keyValueLoop_of_good {ss : StringStream} (hg : ss.good = true) (n : ℕ)
    (h : ss.passes ≤ n) : keyValueLoop n ss h = twos (ss.rest.splitOn equalsSign) := by
  induction n using Nat.strongRecOn generalizing ss with
  | ind n ih =>
      cases n with
      | zero =>
          rw [StringStream.passes_of_good hg] at h
          omega
      | succ n =>
          by_cases hkey : equalsSign ∈ ss.rest
          · obtain ⟨key, back, heq, hnot⟩ := List.eq_append_cons_of_mem hkey
            have hget := getline_of_append_cons hg heq hnot
            have hgood : (getline ss equalsSign).2.good = true := by rw [hget]; rfl
            have hrest : (getline ss equalsSign).2.rest = back := by rw [hget]
            by_cases hvalue : equalsSign ∈ back
            · -- both `getline` calls stop at a `=`
              obtain ⟨value, rest, heq', hnot'⟩ := List.eq_append_cons_of_mem hvalue
              have hget' := getline_of_append_cons hgood (hrest.trans heq') hnot'
              have hgood' :
                  (getline (getline ss equalsSign).2 equalsSign).2.good = true := by
                rw [hget']; rfl
              simp only [keyValueLoop, hg, dif_pos]
              rw [ih n (Nat.lt_succ_self n) hgood']
              rw [hget', hget, heq, heq', List.splitOn_append_cons_self_of_not_mem hnot,
                List.splitOn_append_cons_self_of_not_mem hnot']
              rfl
            · -- the value is the last field
              have hget' := getline_of_notMem hgood (hrest ▸ hvalue)
              have hend :
                  (getline (getline ss equalsSign).2 equalsSign).2.good = false := by
                rw [hget']; rfl
              simp only [keyValueLoop, hg, dif_pos]
              rw [keyValueLoop_of_not_good hend, hget', hget, heq,
                List.splitOn_append_cons_self_of_not_mem hnot, List.splitOn_eq_singleton hvalue]
              rfl
          · -- the key is the last field, and the second call finds nothing
            have hget := getline_of_notMem hg hkey
            have hend : (getline ss equalsSign).2.good = false := by rw [hget]; rfl
            have hget' := getline_of_not_good hend equalsSign
            have hend' : (getline (getline ss equalsSign).2 equalsSign).2.good = false := by
              rw [hget']
              simp [StringStream.good]
            simp only [keyValueLoop, hg, dif_pos]
            rw [keyValueLoop_of_not_good hend', hget', hget, List.splitOn_eq_singleton hkey]
            rfl

theorem parseKeyValue_eq (keyValue : Bytes) :
    parseKeyValue keyValue = ofField equalsSign keyValue :=
  keyValueLoop_of_good rfl _ _

theorem queryLoop_of_not_good {ss : StringStream} (hg : ss.good = false) (n : ℕ)
    (h : ss.passes ≤ n) : queryLoop n ss h = [] := by
  cases n with
  | zero => rfl
  | succ n => simp [queryLoop, hg]

theorem queryLoop_of_good {ss : StringStream} (hg : ss.good = true) (n : ℕ)
    (h : ss.passes ≤ n) : queryLoop n ss h = pairs ampersand equalsSign ss.rest := by
  induction n generalizing ss with
  | zero =>
      rw [StringStream.passes_of_good hg] at h
      omega
  | succ n ih =>
      simp only [queryLoop, hg, dif_pos, parseKeyValue_eq]
      by_cases hfield : ampersand ∈ ss.rest
      · obtain ⟨keyValue, rest, heq, hnot⟩ := List.eq_append_cons_of_mem hfield
        have hget := getline_of_append_cons hg heq hnot
        have hgood : (getline ss ampersand).2.good = true := by rw [hget]; rfl
        rw [ih hgood, hget, pairs, pairs, heq, List.splitOn_append_cons_self_of_not_mem hnot,
          List.flatMap_cons]
      · have hget := getline_of_notMem hg hfield
        have hend : (getline ss ampersand).2.good = false := by rw [hget]; rfl
        rw [queryLoop_of_not_good hend, hget, pairs, List.splitOn_eq_singleton hfield,
          List.append_nil, List.flatMap_singleton]

/-- `parse_query_url` inserts the pairs of the library. -/
theorem RequestParam.parseQueryUrl_params (r : RequestParam) (queryUrl : Bytes) :
    (r.parseQueryUrl queryUrl).params = r.params ++ pairs ampersand equalsSign queryUrl := by
  rw [parseQueryUrl, queryLoop_of_good rfl]
  rfl

theorem postFields_succ (i : ℕ) (params : List (Bytes × Bytes)) :
    postFields (i + 1) params =
      params.flatMap fun p ↦ ampersand :: field equalsSign p := by
  induction params generalizing i with
  | nil => rfl
  | cons p params ih => simp [postFields, ih, field]

/-- `CurlUtils::post` writes what the library's `render` writes. -/
theorem CurlUtils.postUrl_eq (params : List (Bytes × Bytes)) :
    CurlUtils.postUrl params = render ampersand equalsSign params := by
  cases params with
  | nil => rfl
  | cons p params =>
      have hrest : ([ampersand].intercalate (field equalsSign p ::
          params.map (field equalsSign))) =
          field equalsSign p ++ params.flatMap fun q ↦ ampersand :: field equalsSign q := by
        induction params generalizing p with
        | nil => simp
        | cons q params ih =>
            rw [List.map_cons, List.intercalate_cons_cons, ih q]
            simp
      rw [render, List.map_cons, hrest]
      simp [CurlUtils.postUrl, postFields, postFields_succ, field]

end SimpleFlow
