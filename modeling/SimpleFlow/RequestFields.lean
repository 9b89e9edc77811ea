import SimpleFlow.RequestReads

/-!
# What a handler sees of a message

Of a message that was received in any number of reads, a handler sees the URL,
the method, the parameters of the URL, for each name the last header with that
name, and the body. The method and the parameters are set at the first header
only: without any header a `POST` is let through, and with some but without
`Content-Length` it never gets an answer.
-/

namespace SimpleFlow

open KeyValues Request

/-- The version that `ss_on_header_field` notes. -/
def HttpParser.version (p : HttpParser) : Bytes :=
  if p.httpMajor = 1 ∧ p.httpMinor = 0 then ascii "HTTP/1.0"
  else if p.httpMajor = 1 ∧ p.httpMinor = 1 then ascii "HTTP/1.1"
  else []

namespace HttpMessage

variable (m : HttpMessage)

/-- The value of the last header with that name, in any case. -/
def header (name : Bytes) : Bytes :=
  ((m.headers.filter fun h ↦ ssStrTolower h.1 = ssStrTolower name).getLast?.map Prod.snd).getD []

/-- The pairs behind the first `?` of the URL, up to a second one. -/
def query : List (Bytes × Bytes) :=
  match m.url.dropWhile (· != questionMark) with
  | [] => []
  | _ :: rest => pairs ampersand equalsSign (rest.takeWhile (· != questionMark))

/-- A `POST` that has headers, but no `Content-Length`. -/
def Unsized : Prop :=
  m.headers ≠ [] ∧ m.parser.method = ascii "POST" ∧ m.header (ascii "Content-Length") = []

def Multipart : Prop :=
  contains (ascii "multipart/form-data") (m.header (ascii "Content-Type")) = true

/-- The pairs of a posted form. -/
def posted : List (Bytes × Bytes) :=
  if m.header (ascii "Content-Type") = ascii "application/x-www-form-urlencoded" ∧ m.body ≠ [] then
    pairs ampersand equalsSign m.body
  else []

/-- `req` is what a handler gets for the message. -/
structure Describes (req : Request) : Prop where
  url : req.line.requestUrl = m.url
  method : req.line.method = if m.headers = [] then [] else m.parser.method
  version : req.line.httpVersion = if m.headers = [] then [] else m.parser.version
  params : req.line.param.params = if m.headers = [] then [] else m.query
  header : ∀ name, req.getHeader name = m.header name
  body : req.body.rawString = m.body
  posted : ¬m.Multipart → req.body.reqParams.params = m.posted

variable {m} in
theorem Describes.resize {req : Request} (h : m.Describes req) (n : ℕ) :
    m.Describes (req.resize n) :=
  ⟨h.url, h.method, h.version, h.params, h.header, h.body, h.posted⟩

instance : Decidable m.Unsized :=
  inferInstanceAs (Decidable (_ ∧ _ ∧ _))

instance : Decidable m.Multipart :=
  inferInstanceAs (Decidable (_ = _))

end HttpMessage

/-! ## The headers -/

namespace Request

variable {p : HttpParser} {req : Request}

theorem addHeader_headers (req : Request) (name value key : Bytes) :
    (req.addHeader name value).headers key =
      if key = ssStrTolower name then value else req.headers key :=
  Function.update_apply req.headers (ssStrTolower name) value key

theorem foldl_addHeader_headers (headers : List (Bytes × Bytes)) (req : Request) (key : Bytes) :
    (headers.foldl (fun r h ↦ r.addHeader h.1 h.2) req).headers key =
      ((headers.filter fun h ↦ ssStrTolower h.1 = key).getLast?.map Prod.snd).getD
        (req.headers key) := by
  induction headers using List.reverseRecOn with
  | nil => rfl
  | append_singleton headers h ih =>
      rw [List.foldl_append, List.filter_append, List.foldl_cons, List.foldl_nil,
        addHeader_headers]
      by_cases hkey : ssStrTolower h.1 = key
      · simp [hkey]
      · rw [if_neg fun heq ↦ hkey heq.symm, ih]
        simp [hkey]

theorem foldl_withHeader (headers : List (Bytes × Bytes)) (hpart : req.parsePart ≠ .reqLine)
    (hlast : req.lastWasValue = true) :
    headers.foldl (withHeader p) req =
      { req with
        headerFields := req.headerFields ++ headers.map Prod.fst
        headerValues := req.headerValues ++ headers.map Prod.snd } := by
  induction headers generalizing req with
  | nil => simp
  | cons h headers ih =>
      let u : Request :=
        { req with
          headerFields := req.headerFields ++ [h.1]
          headerValues := req.headerValues ++ [h.2] }
      have hone : req.withHeader p h = u := by
        simp only [withHeader, if_neg hpart, ← hlast, u]
      have hrest : headers.foldl (withHeader p) u =
          { u with
            headerFields := u.headerFields ++ headers.map Prod.fst
            headerValues := u.headerValues ++ headers.map Prod.snd } :=
        ih hpart hlast
      rw [List.foldl_cons, hone, hrest]
      simp [u]

end Request

namespace HttpMessage

variable (m : HttpMessage)

/-- The request when the line is over, which it is at the first header. -/
def begun : Request :=
  if m.headers = [] then Request.new.withUrl m.url
  else (Request.new.withUrl m.url).lineOver m.parser

theorem headed_eq :
    m.headed =
      { m.begun with
        headerFields := m.headers.map Prod.fst
        headerValues := m.headers.map Prod.snd } := by
  obtain ⟨p, url, headers, body⟩ := m
  cases headers with
  | nil => rfl
  | cons h headers =>
      have hfirst : (Request.new.withUrl url).withHeader p h =
          { (Request.new.withUrl url).lineOver p with
            headerFields := [h.1]
            headerValues := [h.2] } := rfl
      simp only [headed, begun, List.foldl_cons, hfirst, reduceCtorEq, if_false]
      rw [foldl_withHeader headers (by simp [lineOver]) rfl]
      rfl

/-- The request when `on_headers_complete` is through. -/
def listed : Request :=
  let req := m.headers.foldl (fun r h ↦ r.addHeader h.1 h.2) m.headed
  { req with headerFields := req.headerFields.map ssStrTolower, parsePart := .reqHeadOver }

theorem begun_url : m.begun.line.requestUrl = m.url := by
  simp only [begun]
  split
  · rfl
  · simp only [lineOver, RequestLine.parseRequestUrlParams]
    split <;> rfl

theorem begun_method :
    m.begun.line.method = if m.headers = [] then [] else m.parser.method := by
  simp only [begun]
  split
  · rfl
  · simp only [lineOver, RequestLine.parseRequestUrlParams]
    split <;> rfl

theorem begun_version :
    m.begun.line.httpVersion = if m.headers = [] then [] else m.parser.version := by
  have hempty : ∀ line : RequestLine,
      line.parseRequestUrlParams.httpVersion = line.httpVersion := by
    intro line
    simp only [RequestLine.parseRequestUrlParams]
    split <;> rfl
  simp only [begun]
  split
  · rfl
  · simp only [lineOver, HttpParser.version, hempty]
    rfl

theorem parseRequestUrlParams_params (line : RequestLine) (hurl : line.requestUrl = m.url)
    (hparams : line.param.params = []) : line.parseRequestUrlParams.param.params = m.query := by
  have hget : ∀ rest : Bytes, getline ⟨rest, false, false⟩ questionMark =
      (rest.takeWhile (· != questionMark),
        match rest.dropWhile (· != questionMark) with
        | [] => ⟨[], true, (rest.takeWhile (· != questionMark)).isEmpty⟩
        | _ :: rest => ⟨rest, false, false⟩) := by
    intro rest
    have hgood : (⟨rest, false, false⟩ : StringStream).good = true := rfl
    rw [getline, if_pos hgood]
    cases rest.dropWhile (· != questionMark) <;> rfl
  simp only [RequestLine.parseRequestUrlParams, StringStream.ofString, hurl, hget, query]
  cases m.url.dropWhile (· != questionMark) with
  | nil => exact hparams
  | cons _ rest =>
      simp [StringStream.good, RequestParam.parseQueryUrl_params, hparams, hget]

theorem begun_params :
    m.begun.line.param.params = if m.headers = [] then [] else m.query := by
  simp only [begun]
  split
  · rfl
  · exact parseRequestUrlParams_params m _ rfl rfl

theorem headed_frame :
    m.headed.line = m.begun.line ∧ m.headed.body = ⟨[], .empty, []⟩ ∧
      m.headed.headers = fun _ ↦ [] := by
  rw [headed_eq]
  refine ⟨rfl, ?_, ?_⟩
  · simp only [begun]
    split <;> rfl
  · simp only [begun]
    split <;> rfl

theorem listed_line : m.listed.line = m.begun.line :=
  ((foldl_addHeader_frame m.headers m.headed).2.1).trans m.headed_frame.1

theorem listed_body : m.listed.body = ⟨[], .empty, []⟩ :=
  ((foldl_addHeader_frame m.headers m.headed).2.2).trans m.headed_frame.2.1

theorem listed_getHeader (name : Bytes) : m.listed.getHeader name = m.header name := by
  have hlookup := foldl_addHeader_headers m.headers m.headed (ssStrTolower name)
  rw [m.headed_frame.2.2] at hlookup
  exact hlookup

theorem unsized_iff :
    m.Unsized ↔ m.listed.line.method = ascii "POST" ∧
      m.listed.getHeader (ascii "Content-Length") = [] := by
  rw [listed_line, begun_method, listed_getHeader, Unsized]
  by_cases hnil : m.headers = []
  · simp only [hnil, ne_eq, not_true_eq_false, false_and, if_true, false_iff]
    exact fun h ↦ absurd h.1 (by decide)
  · simp [hnil]

theorem ssOnHeadersComplete_eq :
    m.headed.ssOnHeadersComplete =
      if m.Unsized then (some (-1), { m.listed with parseErr := parseLenRequired })
      else (some 0, m.listed) := by
  have hfields : m.headed.headerFields = m.headers.map Prod.fst := by rw [headed_eq]
  have hvalues : m.headed.headerValues = m.headers.map Prod.snd := by rw [headed_eq]
  have hzip : m.headed.headerFields.zip m.headed.headerValues = m.headers :=
    (List.zip_of_prod hfields.symm hvalues.symm).symm
  have hlength : m.headed.headerFields.length = m.headed.headerValues.length := by
    rw [hfields, hvalues, List.length_map, List.length_map]
  rw [ssOnHeadersComplete, if_neg (not_not.mpr hlength), hzip]
  by_cases hunsized : m.Unsized
  · rw [if_pos hunsized]
    exact if_pos (m.unsized_iff.mp hunsized)
  · rw [if_neg hunsized]
    exact if_neg (hunsized ∘ m.unsized_iff.mpr)

/-- The request when the body is there. -/
def filled : Request := m.listed.withBody m.body

theorem filled_rawString : m.filled.body.rawString = m.body := by
  simp only [filled, withBody, listed_body]
  split
  · rename_i hnil
    rw [hnil, listed_body]
  · simp

theorem filled_frame :
    m.filled.line = m.begun.line ∧ m.filled.headers = m.listed.headers ∧
      m.filled.body.reqParams = .empty := by
  simp only [filled, withBody]
  split
  · exact ⟨m.listed_line, rfl, by rw [listed_body]⟩
  · exact ⟨m.listed_line, rfl, by rw [listed_body]⟩

theorem filled_getHeader (name : Bytes) : m.filled.getHeader name = m.header name := by
  rw [getHeader, m.filled_frame.2.1]
  exact m.listed_getHeader name

/-- What comes of a message. -/
theorem outcome_eq :
    m.outcome =
      if m.Unsized then
        (some (.failed .headersComplete), { m.listed with parseErr := parseLenRequired })
      else if m.filled.ssOnMessageComplete.1 ≠ some 0 then
        (some (.of .messageComplete m.filled.ssOnMessageComplete.1),
          m.filled.ssOnMessageComplete.2)
      else (none, m.filled.ssOnMessageComplete.2) := by
  have hbefore := m.whole.execute_before
  rw [ssOnHeadersComplete_eq] at hbefore
  rw [outcome, Cut.callbacks]
  by_cases hunsized : m.Unsized
  · simp only [if_pos hunsized] at hbefore ⊢
    rw [if_pos (by decide)] at hbefore
    rw [execute_append_of_failed (by rw [hbefore]), hbefore]
    rfl
  · simp only [if_neg hunsized] at hbefore ⊢
    rw [if_neg (by decide)] at hbefore
    rw [execute_append (by rw [hbefore]), hbefore]
    rfl

theorem formParams_params : m.filled.formParams.body.reqParams.params = m.posted := by
  simp only [formParams, filled_getHeader, filled_rawString, posted, m.filled_frame.2.2]
  split
  · exact RequestParam.parseQueryUrl_params .empty m.body
  · rw [m.filled_frame.2.2]
    rfl

theorem ssOnMessageComplete_kept (req : Request) (hok : req.ssOnMessageComplete.1 = some 0) :
    req.ssOnMessageComplete.2.kept = req.kept := by
  have hparsed := formParams_parseMultipart_kept req
  simp only [ssOnMessageComplete] at hok ⊢
  split at hok
  · rename_i hmulti
    rw [if_pos hmulti, ← hparsed]
    cases hanswer : req.formParams.ssParseMultipartData.1 with
    | none => simp [hanswer] at hok
    | some parseRet =>
        obtain rfl : parseRet = 0 := by simpa [hanswer] using hok
        rfl
  · rename_i hmulti
    rw [if_neg hmulti]
    exact formParams_kept req

theorem describes_of_ok (hok : m.outcome.1 = none) : m.Describes m.outcome.2 := by
  have hunsized : ¬m.Unsized := by
    intro h
    rw [outcome_eq, if_pos h] at hok
    cases hok
  have hzero : m.filled.ssOnMessageComplete.1 = some 0 := by
    by_contra hne
    rw [outcome_eq, if_neg hunsized, if_pos hne] at hok
    cases hok
  have hend : m.outcome.2 = m.filled.ssOnMessageComplete.2 := by
    rw [outcome_eq, if_neg hunsized, if_neg (not_not.mpr hzero)]
  have hkept := ssOnMessageComplete_kept m.filled hzero
  rw [← hend] at hkept
  have hline : m.outcome.2.line = m.begun.line :=
    (congrArg Prod.fst hkept).trans m.filled_frame.1
  have hheaders : m.outcome.2.headers = m.filled.headers := congrArg (fun k ↦ k.2.1) hkept
  have hbody : m.outcome.2.body.rawString = m.filled.body.rawString :=
    congrArg (fun k ↦ k.2.2.1) hkept
  refine ⟨?_, ?_, ?_, ?_, ?_, ?_, ?_⟩
  · rw [hline, begun_url]
  · rw [hline, begun_method]
  · rw [hline, begun_version]
  · rw [hline, begun_params]
  · intro name
    rw [getHeader, hheaders]
    exact m.filled_getHeader name
  · rw [hbody, filled_rawString]
  · intro hmulti
    rw [Multipart, ← filled_getHeader] at hmulti
    have hplain : m.filled.ssOnMessageComplete.2.body = m.filled.formParams.body := by
      simp only [ssOnMessageComplete, if_neg hmulti]
    rw [hend, hplain, formParams_params]

theorem outcome_ok (hmulti : ¬m.Multipart) (hsized : ¬m.Unsized) : m.outcome.1 = none := by
  rw [Multipart, ← filled_getHeader] at hmulti
  rw [outcome_eq, if_neg hsized]
  simp [ssOnMessageComplete, hmulti]

end HttpMessage

/-- In whatever pieces a message comes and in however many reads: all reads but
the last ask for more, and the last answers 0 and leaves the request that says
what the message says, the same as in one piece; or some read is answered with an
error, which closes the connection; or an exception leaves the last one, which
ends the process. A message that is no multipart form fails only as a `POST` that
has headers, but no `Content-Length`. -/
theorem received_in_pieces {m : HttpMessage} (r : ReadsOf m) :
    (m.outcome.1 = none →
      Request.new.parseReads r.reads = (some 0, m.outcome.2.resize (totalSize r.reads)) ∧
        m.Describes m.outcome.2 ∧
        ∀ done rest, r.reads = done ++ rest → rest ≠ [] →
          (Request.new.parseReads done).1 = some needMoreStatus) ∧
    (∀ call, m.outcome.1 = some (.failed call) →
      ∃ answer < 0, (Request.new.parseReads r.reads).1 = some answer) ∧
    (m.outcome.1 = some .thrown → (Request.new.parseReads r.reads).1 = none) ∧
    (m.Unsized → m.outcome.1 = some (.failed .headersComplete)) ∧
    (¬m.Multipart → ¬m.Unsized → m.outcome.1 = none) := by
  refine ⟨fun hok ↦ ?_, fun call ↦ r.parseReads_of_failed, r.parseReads_of_thrown,
    fun hunsized ↦ ?_, m.outcome_ok⟩
  · obtain ⟨hreads, hmore⟩ := r.parseReads_of_ok hok
    exact ⟨hreads, m.describes_of_ok hok, hmore⟩
  · rw [HttpMessage.outcome_eq, if_pos hunsized]

/-- The first read ends inside the name of a header. -/
theorem received_in_pieces_two :
    let m : HttpMessage :=
      ⟨⟨ascii "GET", 1, 1⟩, ascii "/a?x=1", [(ascii "Host", ascii "h")], []⟩
    let first : Parsing :=
      ⟨m.parser, 23, [.url (ascii "/a?x=1"), .headerField (ascii "Ho")], true, false⟩
    let second : Parsing :=
      ⟨m.parser, 9, [.headerField (ascii "st"), .headerValue (ascii "h"), .headersComplete,
        .messageComplete], true, true⟩
    m.outcome.1 = none ∧
      Request.new.parseReads [first, second] = (some 0, m.outcome.2.resize 32) ∧
      m.Describes m.outcome.2 := by
  intro m first second
  let cut : Cut m :=
    { urls := [ascii "/a?x=1"]
      headers := [([ascii "Ho", ascii "st"], [ascii "h"])]
      bodies := []
      url_eq := by decide
      headers_eq := by decide
      headers_ne := by decide
      body_eq := rfl
      bodies_ne := by decide }
  let r : ReadsOf m :=
    { cut := cut
      reads := [first, second]
      parses := by decide
      callbacks_eq := by decide
      last_ne := by decide
      size_le := by decide }
  have hok : m.outcome.1 = none := (received_in_pieces r).2.2.2.2 (by decide) (by decide)
  obtain ⟨hreads, hdescribes, -⟩ := (received_in_pieces r).1 hok
  exact ⟨hok, hreads, hdescribes⟩

end SimpleFlow
