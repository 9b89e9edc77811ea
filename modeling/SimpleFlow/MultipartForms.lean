import SimpleFlow.MultipartBody
import SimpleFlow.RequestFields

/-!
# A multipart form

A form that a browser sends as `multipart/form-data` ends up as one `FileItem`
for each of its fields, in their order, with the name, the name of the file, its
type and the data. The names go through `ss_split_str` on `;` and on `=`, so
neither may be in one of them.
-/

namespace SimpleFlow

open Request

/-! ## `ss_split_str` -/

/-- The pieces without an empty one at the end. -/
def dropEmptyLast : List Bytes → List Bytes
  | [] => []
  | [piece] => if piece = [] then [] else [piece]
  | piece :: rest => piece :: dropEmptyLast rest

theorem dropEmptyLast_cons {rest : List Bytes} (piece : Bytes) (hne : rest ≠ []) :
    dropEmptyLast (piece :: rest) = piece :: dropEmptyLast rest := by
  cases rest with
  | nil => exact absurd rfl hne
  | cons _ _ => rfl

theorem ssSplitLoop_of_not_good {ss : StringStream} (hg : ss.good = false) (s : UInt8) (n : ℕ)
    (h : ss.passes ≤ n) : ssSplitLoop s n ss h = [] := by
  cases n with
  | zero => rfl
  | succ n => simp [ssSplitLoop, hg]

theorem ssSplitLoop_of_good {s : UInt8} {ss : StringStream} (hg : ss.good = true) (n : ℕ)
    (h : ss.passes ≤ n) : ssSplitLoop s n ss h = dropEmptyLast (ss.rest.splitOn s) := by
  induction n generalizing ss with
  | zero =>
      rw [StringStream.passes_of_good hg] at h
      omega
  | succ n ih =>
      simp only [ssSplitLoop, hg, dif_pos]
      by_cases hs : s ∈ ss.rest
      · obtain ⟨front, back, heq, hnot⟩ := List.eq_append_cons_of_mem hs
        have hget := getline_of_append_cons hg heq hnot
        have hgood : (getline ss s).2.good = true := by rw [hget]; rfl
        rw [ih hgood, hget, heq, List.splitOn_append_cons_self_of_not_mem hnot,
          dropEmptyLast_cons front (List.splitOn_ne_nil s back)]
        simp
      · have hget := getline_of_notMem hg hs
        have hend : (getline ss s).2.good = false := by rw [hget]; rfl
        rw [ssSplitLoop_of_not_good hend, hget, List.splitOn_eq_singleton hs]
        simp [dropEmptyLast]

theorem ssSplitStr_eq (input : Bytes) (s : UInt8) :
    ssSplitStr input s = dropEmptyLast (input.splitOn s) := by
  unfold ssSplitStr
  split
  · rename_i hempty
    rw [List.isEmpty_iff.mp hempty]
    simp [dropEmptyLast]
  · exact ssSplitLoop_of_good rfl _ _

theorem ssSplitStr_of_notMem {input : Bytes} {s : UInt8} (hne : input ≠ []) (hs : s ∉ input) :
    ssSplitStr input s = [input] := by
  rw [ssSplitStr_eq, List.splitOn_eq_singleton hs]
  simp [dropEmptyLast, hne]

theorem ssSplitStr_append_cons {front back : Bytes} {s : UInt8} (hs : s ∉ front) :
    ssSplitStr (front ++ s :: back) s = front :: ssSplitStr back s := by
  rw [ssSplitStr_eq, ssSplitStr_eq, List.splitOn_append_cons_self_of_not_mem hs,
    dropEmptyLast_cons front (List.splitOn_ne_nil s back)]

/-! ## The fields of a form -/

structure FormField where
  name : Bytes
  filename : Option Bytes
  contentType : Option Bytes
  data : Bytes
  deriving DecidableEq, Repr

def quoted (value : Bytes) : Bytes := quote :: (value ++ [quote])

theorem quoted_ne_nil (value : Bytes) : quoted value ≠ [] := by simp [quoted]

theorem notMem_quoted {c : UInt8} {value : Bytes} (hc : c ≠ quote) (h : c ∉ value) :
    c ∉ quoted value := by
  simp [quoted, hc, h]

namespace FormField

variable (field : FormField)

/-- The value of `Content-Disposition`. -/
def disposition : Bytes :=
  ascii "form-data; name=" ++ quoted field.name ++
    match field.filename with
    | none => []
    | some filename => ascii "; filename=" ++ quoted filename

def headers : List (Bytes × Bytes) :=
  (ascii "Content-Disposition", field.disposition) ::
    match field.contentType with
    | none => []
    | some contentType => [(ascii "Content-Type", contentType)]

def part : Part := ⟨field.headers, field.data⟩

/-- What the server makes of the field. -/
def item : FileItem where
  isFile := field.filename.isSome
  parseState := true
  contentType := field.contentType.getD []
  name := field.name
  filename := field.filename.getD []
  data := field.data

/-- `value` gets through `ss_split_str` and stays in its line. -/
def Nameable (value : Bytes) : Prop :=
  CR ∉ value ∧ semicolon ∉ value ∧ equalsSign ∉ value

instance (value : Bytes) : Decidable (Nameable value) :=
  inferInstanceAs (Decidable (_ ∧ _ ∧ _))

structure Sendable (boundary : Bytes) (field : FormField) : Prop where
  name : Nameable field.name
  filename : ∀ value ∈ field.filename, Nameable value
  contentType : ∀ value ∈ field.contentType, CR ∉ value ∧ value.head? ≠ some space
  data : ¬MultipartParser.delimiter boundary <:+: field.data

instance (boundary : Bytes) : Decidable (field.Sendable boundary) :=
  decidable_of_iff (Nameable field.name ∧ (∀ value ∈ field.filename, Nameable value) ∧
    (∀ value ∈ field.contentType, CR ∉ value ∧ value.head? ≠ some space) ∧
    ¬MultipartParser.delimiter boundary <:+: field.data)
    ⟨fun h ↦ ⟨h.1, h.2.1, h.2.2.1, h.2.2.2⟩, fun h ↦ ⟨h.name, h.filename, h.contentType, h.data⟩⟩

variable {field}

theorem CR_notMem_disposition (hname : Nameable field.name)
    (hfilename : ∀ value ∈ field.filename, Nameable value) : CR ∉ field.disposition := by
  have hquoted := notMem_quoted (by decide : CR ≠ quote) hname.1
  have hfirst : CR ∉ ascii "form-data; name=" := by decide
  simp only [disposition, List.mem_append, not_or]
  refine ⟨⟨hfirst, hquoted⟩, ?_⟩
  cases hfile : field.filename with
  | none => exact List.not_mem_nil
  | some filename =>
      have hsecond : CR ∉ ascii "; filename=" := by decide
      have hvalue := hfilename filename (by rw [hfile]; rfl)
      simp only [List.mem_append, not_or]
      exact ⟨hsecond, notMem_quoted (by decide) hvalue.1⟩

theorem Sendable.writable {boundary : Bytes} (h : field.Sendable boundary) :
    field.part.Writable boundary := by
  have hname : ∀ c ∈ ascii "Content-Disposition", MultipartParser.isFieldChar c = true :=
    List.all_eq_true.mp (by decide)
  have htypeName : ∀ c ∈ ascii "Content-Type", MultipartParser.isFieldChar c = true :=
    List.all_eq_true.mp (by decide)
  have hdisposition : CR ∉ field.disposition ∧ field.disposition.head? ≠ some space := by
    refine ⟨CR_notMem_disposition h.name h.filename, ?_⟩
    simp [disposition, ascii]
    decide
  have hheaders : ∀ x ∈ field.headers,
      (∀ c ∈ x.1, MultipartParser.isFieldChar c = true) ∧ CR ∉ x.2 ∧ x.2.head? ≠ some space := by
    intro x hx
    rcases List.mem_cons.mp hx with rfl | hx
    · exact ⟨hname, hdisposition⟩
    · cases htype : field.contentType with
      | none =>
          rw [htype] at hx
          exact absurd hx List.not_mem_nil
      | some contentType =>
          rw [htype] at hx
          obtain rfl := List.mem_singleton.mp hx
          exact ⟨htypeName, h.contentType contentType (by rw [htype]; rfl)⟩
  exact ⟨fun x hx ↦ (hheaders x hx).1, fun x hx ↦ (hheaders x hx).2, h.data⟩

end FormField

theorem ssParseDispositionValue_quoted (key : Bytes) {value : Bytes} (hkey : equalsSign ∉ key)
    (hvalue : equalsSign ∉ value) :
    ssParseDispositionValue (key ++ equalsSign :: quoted value) = .ok value := by
  have hquoted : equalsSign ∉ quoted value := notMem_quoted (by decide) hvalue
  rw [ssParseDispositionValue, ssSplitStr_append_cons hkey,
    ssSplitStr_of_notMem (quoted_ne_nil value) hquoted]
  cases value with
  | nil => simp [quoted]
  | cons c value =>
      simp [quoted]

theorem ssParseMultiDisposition_eq {field : FormField} {item : FileItem}
    (hname : FormField.Nameable field.name)
    (hfilename : ∀ value ∈ field.filename, FormField.Nameable value) :
    ssParseMultiDisposition field.disposition item =
      (some 0, { item with
        name := field.name
        isFile := field.filename.isSome || item.isFile
        filename := field.filename.getD item.filename }) := by
  have hfirst : semicolon ∉ ascii "form-data" := by decide
  have hpair : ∀ key value : Bytes, semicolon ∉ key → FormField.Nameable value →
      semicolon ∉ key ++ equalsSign :: quoted value := by
    intro key value hkey hvalue
    rw [List.mem_append, List.mem_cons, not_or, not_or]
    exact ⟨hkey, by decide, notMem_quoted (by decide) hvalue.2.1⟩
  have hname' := hpair (ascii " name") field.name (by decide) hname
  have hread := ssParseDispositionValue_quoted (ascii " name") (by decide) hname.2.2
  cases hfile : field.filename with
  | none =>
      have hbytes : field.disposition =
          ascii "form-data" ++ semicolon :: (ascii " name" ++ equalsSign :: quoted field.name) := by
        simp [FormField.disposition, hfile, ascii, semicolon, equalsSign]
      rw [ssParseMultiDisposition, hbytes, ssSplitStr_append_cons hfirst,
        ssSplitStr_of_notMem (by simp) hname']
      simp only [hread]
      simp
  | some filename =>
      have hvalue := hfilename filename (by rw [hfile]; rfl)
      have hfile' := hpair (ascii " filename") filename (by decide) hvalue
      have hread' :=
        ssParseDispositionValue_quoted (ascii " filename") (by decide) hvalue.2.2
      have hbytes : field.disposition =
          ascii "form-data" ++ semicolon :: ((ascii " name" ++ equalsSign :: quoted field.name) ++
            semicolon :: (ascii " filename" ++ equalsSign :: quoted filename)) := by
        simp [FormField.disposition, hfile, ascii, semicolon, equalsSign]
      rw [ssParseMultiDisposition, hbytes, ssSplitStr_append_cons hfirst,
        ssSplitStr_append_cons hname', ssSplitStr_of_notMem (by simp) hfile']
      simp only [hread, hread']
      simp

/-! ## The callbacks for a field -/

namespace Request

variable {req : Request} {items : List FileItem} {item : FileItem}

/-- The request while a part is read, with `item` for it. -/
def reading (req : Request) (items : List FileItem) (item : FileItem) : Request :=
  req.withItems (items ++ [item])

theorem onLastItem_reading (whenEmpty : Int) (f : FileItem → Answer × FileItem) :
    (req.reading items item).onLastItem whenEmpty f =
      ((f item).1, req.reading items (f item).2) := by
  simp [reading, onLastItem, withItems]

theorem deliver_cons {call : MultipartCall} {calls : List MultipartCall} {u : Request}
    (h : mpSettings.on req call = (some 0, u)) :
    mpSettings.deliver (call :: calls) req = mpSettings.deliver calls u := by
  simp [MultipartSettings.deliver, h]

theorem deliver_partData (pieces : List Bytes) (calls : List MultipartCall) :
    mpSettings.deliver (pieces.map .partData ++ calls) (req.reading items item) =
      mpSettings.deliver calls
        (req.reading items { item with data := item.data ++ pieces.flatten }) := by
  induction pieces generalizing item with
  | nil => simp
  | cons piece pieces ih =>
      have hpiece : mpSettings.on (req.reading items item) (.partData piece) =
          (some 0, req.reading items { item with data := item.data ++ piece }) := by
        simp only [mpSettings, ssOnMultipartData]
        split
        · rename_i hempty
          rw [List.length_eq_zero_iff.mp hempty, List.append_nil]
        · rw [onLastItem_reading]
      rw [List.map_cons, List.cons_append, deliver_cons hpiece, ih]
      simp

theorem deliver_disposition {field : FormField} (hname : FormField.Nameable field.name)
    (hfilename : ∀ value ∈ field.filename, FormField.Nameable value)
    (calls : List MultipartCall) :
    mpSettings.deliver (.headerField (ascii "Content-Disposition") ::
        .headerValue field.disposition :: calls) (req.withItems items) =
      mpSettings.deliver calls (req.reading items
        { FileItem.new with
          parseState := false
          name := field.name
          isFile := field.filename.isSome
          filename := field.filename.getD [] }) := by
  have hfield : mpSettings.on (req.withItems items) (.headerField (ascii "Content-Disposition")) =
      (some 0, req.reading items { FileItem.new with parseState := false }) := by
    simp only [mpSettings, ssOnMultipartName, if_true]
    rfl
  rw [deliver_cons hfield]
  apply deliver_cons
  simp only [mpSettings, ssOnMultipartValue, onLastItem_reading, Bool.false_eq_true, if_false,
    ssParseMultiDisposition_eq hname hfilename]
  simp [FileItem.new]

theorem deliver_contentType (contentType : Bytes) (calls : List MultipartCall) :
    mpSettings.deliver (.headerField (ascii "Content-Type") :: .headerValue contentType :: calls)
        (req.reading items item) =
      mpSettings.deliver calls
        (req.reading items { item with parseState := true, contentType := contentType }) := by
  have hne : ascii "Content-Type" ≠ ascii "Content-Disposition" := by decide
  have hfield : mpSettings.on (req.reading items item) (.headerField (ascii "Content-Type")) =
      (some 0, req.reading items { item with parseState := true }) := by
    simp only [mpSettings, ssOnMultipartName, if_neg hne, if_true, onLastItem_reading]
  rw [deliver_cons hfield]
  apply deliver_cons
  simp only [mpSettings, ssOnMultipartValue, onLastItem_reading, if_true]

/-- The callbacks for a field leave one more item. -/
theorem deliver_field {boundary : Bytes} {field : FormField} (h : field.Sendable boundary)
    {pieces : List Bytes} (hpieces : pieces.flatten = field.data) (calls : List MultipartCall) :
    mpSettings.deliver (field.part.calls pieces ++ calls) (req.withItems items) =
      mpSettings.deliver calls (req.withItems (items ++ [field.item])) := by
  have hbegin : mpSettings.on (req.withItems items) .partDataBegin =
      (some 0, req.withItems items) := rfl
  have hcomplete : ∀ item, mpSettings.on (req.reading items item) .headersComplete =
      (some 0, req.reading items item) := fun _ ↦ rfl
  have hend : ∀ item, mpSettings.on (req.reading items item) .partDataEnd =
      (some 0, req.reading items { item with parseState := true }) := fun item ↦ by
    simp only [mpSettings, ssOnMultipartDataOver, onLastItem_reading]
  have hrest : ∀ item, mpSettings.deliver
      (.headersComplete :: (pieces.map .partData ++ (.partDataEnd :: calls)))
        (req.reading items item) =
      mpSettings.deliver calls (req.reading items
        { item with data := item.data ++ field.data, parseState := true }) := by
    intro item
    rw [deliver_cons (hcomplete item), deliver_partData, deliver_cons (hend _), hpieces]
  have hcalls : field.part.calls pieces ++ calls = .partDataBegin ::
      (.headerField (ascii "Content-Disposition") :: .headerValue field.disposition ::
        ((match field.contentType with
          | none => []
          | some contentType =>
              [.headerField (ascii "Content-Type"), .headerValue contentType]) ++
          (.headersComplete :: (pieces.map .partData ++ (.partDataEnd :: calls))))) := by
    simp only [Part.calls, FormField.part, FormField.headers]
    cases field.contentType <;> simp
  rw [hcalls, deliver_cons hbegin, deliver_disposition h.name h.filename]
  cases htype : field.contentType with
  | none =>
      rw [List.nil_append, hrest]
      simp [reading, FormField.item, FileItem.new, htype]
  | some contentType =>
      rw [List.cons_append, List.cons_append, List.nil_append, deliver_contentType, hrest]
      simp [reading, FormField.item, FileItem.new, htype]

theorem deliver_tells (req : Request) {boundary : Bytes} {fields : List FormField}
    {calls : List MultipartCall}
    (hfields : ∀ field ∈ fields, field.Sendable boundary)
    (htells : Tells (fields.map FormField.part) calls) (items : List FileItem) :
    mpSettings.deliver calls (req.withItems items) =
      (some 0, (req.withItems (items ++ fields.map FormField.item)).ssOnMultipartBodyEnd.2) := by
  induction fields generalizing calls items with
  | nil =>
      cases htells with
      | nil =>
          rw [List.map_nil, List.append_nil]
          rfl
  | cons field fields ih =>
      cases htells with
      | cons hpieces hrest =>
          rw [deliver_field (hfields field List.mem_cons_self) hpieces,
            ih (fun x hx ↦ hfields x (List.mem_cons_of_mem field hx)) hrest]
          simp

end Request

/-! ## A form from the client to the handler -/

namespace HttpMessage

/-- The message is a `POST` of `fields`, with `token` for their boundary. -/
structure Uploads (m : HttpMessage) (token epilogue : Bytes) (fields : List FormField) : Prop where
  method : m.parser.method = ascii "POST"
  contentType : m.header (ascii "Content-Type") = ascii "multipart/form-data; boundary=" ++ token
  contentLength : m.header (ascii "Content-Length") ≠ []
  body : m.body = Part.encodeAll (ascii "--" ++ token) epilogue (fields.map FormField.part)

variable {m : HttpMessage} {token epilogue : Bytes} {fields : List FormField}

theorem filled_items : m.filled.body.fileItems = [] := by
  simp only [filled, withBody]
  split <;> rw [listed_body]

theorem withItems_filled : m.filled.withItems [] = m.filled := by
  simp only [withItems, ← m.filled_items]

namespace Uploads

theorem multipart (h : m.Uploads token epilogue fields) : m.Multipart := by
  rw [Multipart, h.contentType, contains, decide_eq_true_iff]
  exact ⟨[], ascii "; boundary=" ++ token, by simp [ascii]⟩

theorem formParams_filled (h : m.Uploads token epilogue fields) :
    m.filled.formParams = m.filled := by
  have hne : m.filled.getHeader (ascii "Content-Type") ≠
      ascii "application/x-www-form-urlencoded" := by
    rw [filled_getHeader, h.contentType]
    simp [ascii]
  rw [formParams, if_neg fun hurl ↦ hne hurl.1]

theorem ssParseMultipartData_filled (h : m.Uploads token epilogue fields) (hne : token ≠ [])
    (hnul : 0 ∉ token) (htoken : FormField.Nameable token) (hfields : fields ≠ [])
    (hsendable : ∀ field ∈ fields, field.Sendable (ascii "--" ++ token)) :
    m.filled.ssParseMultipartData =
      (some 0, (m.filled.withItems (fields.map FormField.item)).ssOnMultipartBodyEnd.2) := by
  have hraw : m.filled.body.rawString =
      Part.encodeAll (ascii "--" ++ token) epilogue (fields.map FormField.part) := by
    rw [filled_rawString, h.body]
  have hempty : m.filled.body.rawString.isEmpty = false := by
    rw [hraw]
    simp [Part.encodeAll, hne]
  have htype : m.filled.getHeader (ascii "Content-Type") =
      ascii "multipart/form-data" ++ semicolon :: (ascii " boundary" ++ equalsSign :: token) := by
    rw [filled_getHeader, h.contentType]
    simp [ascii, semicolon, equalsSign]
  have hsecond : semicolon ∉ ascii " boundary" ++ equalsSign :: token := by
    have hkey : semicolon ∉ ascii " boundary" := by decide
    rw [List.mem_append, List.mem_cons, not_or, not_or]
    exact ⟨hkey, by decide, htoken.2.1⟩
  have hCR : CR ∉ ascii "--" ++ token := by
    have hhyphens : CR ∉ ascii "--" := by decide
    rw [List.mem_append, not_or]
    exact ⟨hhyphens, htoken.1⟩
  have hnul' : 0 ∉ ascii "--" ++ token := by
    have hhyphens : 0 ∉ ascii "--" := by decide
    rw [List.mem_append, not_or]
    exact ⟨hhyphens, hnul⟩
  have hwritable : ∀ part ∈ fields.map FormField.part, part.Writable (ascii "--" ++ token) := by
    intro part hpart
    obtain ⟨field, hfield, rfl⟩ := List.mem_map.mp hpart
    exact (hsendable field hfield).writable
  obtain ⟨calls, q, htells, hreads⟩ := MultipartParser.reads_encodeAll epilogue
    (by simp [hne]) hCR (by simpa using hfields) hwritable
  have hdeliver := deliver_tells m.filled hsendable htells []
  rw [withItems_filled, List.nil_append] at hdeliver
  have hexecute := mpSettings.execute_of_reads hnul' hreads hdeliver
  rw [ssParseMultipartData, hempty, htype, ssSplitStr_append_cons (by decide),
    ssSplitStr_of_notMem (by simp) hsecond]
  simp only [Bool.false_eq_true, if_false]
  rw [ssSplitStr_append_cons (by decide), ssSplitStr_of_notMem hne htoken.2.2]
  simp only [hraw, hexecute]
  simp

end Uploads

end HttpMessage

theorem RequestBody.parseMultiParams_params (body : RequestBody) :
    body.parseMultiParams.reqParams.params =
      body.reqParams.params ++ body.fileItems.map fun item ↦ (item.name, item.data) := by
  have hfold : ∀ (items : List FileItem) (r : RequestParam),
      (items.foldl (fun r item ↦ r.addParamPair item.name item.data) r).params =
        r.params ++ items.map fun item ↦ (item.name, item.data) := by
    intro items
    induction items with
    | nil => simp
    | cons item items ih =>
        intro r
        rw [List.foldl_cons, ih]
        simp [RequestParam.addParamPair]
  exact hfold body.fileItems body.reqParams

end SimpleFlow
