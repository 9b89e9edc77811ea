import SimpleFlow.HttpRequest

/-!
# A request does not depend on where it is cut

The bytes of a request come in reads, and `http_parser_execute` may cut the URL,
a header or the body wherever a read ends. `_last_was_value` puts the pieces of
a header together, so the callbacks of a message leave the request that its
uncut callbacks leave.
-/

namespace SimpleFlow

/-- A message as `http_parser` understands it. -/
structure HttpMessage where
  parser : HttpParser
  url : Bytes
  headers : List (Bytes × Bytes)
  body : Bytes
  deriving DecidableEq, Repr

/-- The pieces in which a message is announced. Of each name and each value there
is at least one, which may be empty; the body comes in pieces that are not. -/
structure Cut (m : HttpMessage) where
  urls : List Bytes
  headers : List (List Bytes × List Bytes)
  bodies : List Bytes
  url_eq : urls.flatten = m.url
  headers_eq : headers.map (fun h ↦ (h.1.flatten, h.2.flatten)) = m.headers
  headers_ne : ∀ h ∈ headers, h.1 ≠ [] ∧ h.2 ≠ []
  body_eq : bodies.flatten = m.body
  bodies_ne : ∀ body ∈ bodies, body ≠ []

def headerCallbacks (h : List Bytes × List Bytes) : List ParserCallback :=
  h.1.map .headerField ++ h.2.map .headerValue

namespace Cut

variable {m : HttpMessage} (cut : Cut m)

/-- The callbacks before the end of the message. -/
def before : List ParserCallback :=
  cut.urls.map .url ++ (cut.headers.flatMap headerCallbacks ++
    (.headersComplete :: cut.bodies.map .body))

def callbacks : List ParserCallback := cut.before ++ [.messageComplete]

end Cut

/-- The message in one piece. -/
def HttpMessage.whole (m : HttpMessage) : Cut m where
  urls := [m.url]
  headers := m.headers.map fun h ↦ ([h.1], [h.2])
  bodies := if m.body = [] then [] else [m.body]
  url_eq := by simp
  headers_eq := by simp [Function.comp_def]
  headers_ne := by
    intro h hh
    obtain ⟨x, -, rfl⟩ := List.mem_map.mp hh
    exact ⟨by simp, by simp⟩
  body_eq := by split <;> simp_all
  bodies_ne := by
    intro body hbody
    split at hbody
    · cases hbody
    · rename_i hne
      rwa [List.mem_singleton.mp hbody]

namespace Request

variable {p : HttpParser} {req : Request} {calls calls' : List ParserCallback}

theorem execute_cons {call : ParserCallback} {u : Request} (h : req.settings p call = (some 0, u)) :
    execute p (call :: calls) req = execute p calls u := by
  simp [execute, h]

theorem execute_cons_of_failed {call : ParserCallback} {ret : Answer} {u : Request}
    (h : req.settings p call = (ret, u)) (hne : ret ≠ some 0) :
    execute p (call :: calls) req = (some (.of call ret), u) := by
  simp [execute, h, hne]

theorem execute_append (h : (execute p calls req).1 = none) :
    execute p (calls ++ calls') req = execute p calls' (execute p calls req).2 := by
  induction calls generalizing req with
  | nil => rfl
  | cons call calls ih =>
      simp only [List.cons_append, execute] at h ⊢
      split at h
      · cases h
      · rename_i hzero
        simp only [if_neg hzero]
        exact ih h

theorem execute_append_of_failed {stop : Stop} (h : (execute p calls req).1 = some stop) :
    execute p (calls ++ calls') req = execute p calls req := by
  induction calls generalizing req with
  | nil => cases h
  | cons c calls ih =>
      simp only [List.cons_append, execute] at h ⊢
      split at h
      · rename_i hne
        simp only [if_pos hne]
      · rename_i hzero
        simp only [if_neg hzero]
        exact ih h

/-! ## The pieces of each part -/

def withUrl (req : Request) (url : Bytes) : Request :=
  { req with line := { req.line with requestUrl := req.line.requestUrl ++ url } }

theorem execute_urls (urls : List Bytes) (req : Request) :
    execute p (urls.map .url) req = (none, req.withUrl urls.flatten) := by
  induction urls generalizing req with
  | nil => simp [execute, withUrl]
  | cons url urls ih =>
      have hurl : req.settings p (.url url) = (some 0, req.withUrl url) := rfl
      rw [List.map_cons, execute_cons hurl, ih]
      simp [withUrl]

/-- The request after a header that came in one piece. -/
def withHeader (p : HttpParser) (req : Request) (h : Bytes × Bytes) : Request :=
  let req := if req.parsePart = .reqLine then req.lineOver p else req
  { req with
    headerFields := req.headerFields ++ [h.1]
    headerValues := req.headerValues ++ [h.2]
    lastWasValue := true }

theorem appendToLast_concat (s last : Bytes) (strings : List Bytes) :
    appendToLast s (strings ++ [last]) = strings ++ [last ++ s] := by
  induction strings with
  | nil => rfl
  | cons first rest ih =>
      cases hrest : rest ++ [last] with
      | nil => simp at hrest
      | cons second others => simp only [List.cons_append, hrest, appendToLast, ← ih]

theorem execute_fields (fields : List Bytes) {strings : List Bytes} {last : Bytes}
    (hpart : req.parsePart ≠ .reqLine) (hlast : req.lastWasValue = false)
    (hstrings : req.headerFields = strings ++ [last]) :
    execute p (fields.map .headerField) req =
      (none, { req with headerFields := strings ++ [last ++ fields.flatten] }) := by
  induction fields generalizing req last with
  | nil => simp only [List.map_nil, execute, List.flatten_nil, List.append_nil, ← hstrings]
  | cons field fields ih =>
      let u : Request := { req with headerFields := strings ++ [last ++ field] }
      have hfield : req.settings p (.headerField field) = (some 0, u) := by
        simp only [settings, ssOnHeaderField, hpart, if_false, hlast, Bool.false_eq_true, hstrings,
          appendToLast_concat, u]
      have hrest : execute p (fields.map .headerField) u =
          (none, { u with headerFields := strings ++ [last ++ field ++ fields.flatten] }) :=
        ih hpart hlast rfl
      rw [List.map_cons, execute_cons hfield, hrest]
      simp [u]

theorem execute_values (values : List Bytes) {strings : List Bytes} {last : Bytes}
    (hlast : req.lastWasValue = true) (hstrings : req.headerValues = strings ++ [last]) :
    execute p (values.map .headerValue) req =
      (none, { req with headerValues := strings ++ [last ++ values.flatten] }) := by
  induction values generalizing req last with
  | nil => simp only [List.map_nil, execute, List.flatten_nil, List.append_nil, ← hstrings]
  | cons value values ih =>
      let u : Request := { req with headerValues := strings ++ [last ++ value] }
      have hvalue : req.settings p (.headerValue value) = (some 0, u) := by
        simp only [settings, ssOnHeaderValue, hlast, Bool.true_eq_false, if_false, hstrings,
          appendToLast_concat, u]
      have hrest : execute p (values.map .headerValue) u =
          (none, { u with headerValues := strings ++ [last ++ value ++ values.flatten] }) :=
        ih hlast rfl
      rw [List.map_cons, execute_cons hvalue, hrest]
      simp [u]

/-- However a header is cut, it is the header in one piece. -/
theorem execute_header {h : List Bytes × List Bytes} (hne : h.1 ≠ [] ∧ h.2 ≠ [])
    (hlast : req.lastWasValue = true) :
    execute p (headerCallbacks h) req = (none, req.withHeader p (h.1.flatten, h.2.flatten)) := by
  obtain ⟨_ | ⟨field, fields⟩, _ | ⟨value, values⟩⟩ := h
  · exact absurd rfl hne.1
  · exact absurd rfl hne.1
  · exact absurd rfl hne.2
  · let u := if req.parsePart = .reqLine then req.lineOver p else req
    have hu : u.parsePart ≠ .reqLine ∧ u.lastWasValue = true := by
      simp only [u]
      split
      · exact ⟨by simp [lineOver], hlast⟩
      · rename_i hpart
        exact ⟨hpart, hlast⟩
    let v : Request := { u with headerFields := u.headerFields ++ [field], lastWasValue := false }
    let w : Request :=
      { v with headerFields := u.headerFields ++ [field ++ fields.flatten] }
    let x : Request := { w with headerValues := w.headerValues ++ [value], lastWasValue := true }
    have hfield : req.settings p (.headerField field) = (some 0, v) := by
      show (if u.lastWasValue = true then _ else _) = _
      rw [if_pos hu.2]
    have hfields : execute p (fields.map .headerField) v = (none, w) :=
      execute_fields fields hu.1 rfl rfl
    have hvalue : w.settings p (.headerValue value) = (some 0, x) := rfl
    have hvalues : execute p (values.map .headerValue) x =
        (none, { x with headerValues := w.headerValues ++ [value ++ values.flatten] }) :=
      execute_values values rfl rfl
    rw [headerCallbacks, List.map_cons, List.map_cons, List.cons_append, execute_cons hfield,
      execute_append (by rw [hfields]), hfields, execute_cons hvalue, hvalues]
    simp [withHeader, x, w, v, u]

theorem execute_headers {headers : List (List Bytes × List Bytes)}
    (hne : ∀ h ∈ headers, h.1 ≠ [] ∧ h.2 ≠ []) (hlast : req.lastWasValue = true) :
    execute p (headers.flatMap headerCallbacks) req =
      (none, (headers.map fun h ↦ (h.1.flatten, h.2.flatten)).foldl (withHeader p) req) := by
  induction headers generalizing req with
  | nil => rfl
  | cons h headers ih =>
      have hheader := execute_header (p := p) (hne h List.mem_cons_self) hlast
      rw [List.flatMap_cons, execute_append (by rw [hheader]), hheader]
      exact ih (fun x hx ↦ hne x (List.mem_cons_of_mem h hx)) rfl

/-- The request after a body that came in one piece. -/
def withBody (req : Request) (body : Bytes) : Request :=
  if body = [] then req
  else
    let rawString := req.body.rawString ++ body
    { req with body := { req.body with rawString := rawString }, parsePart := .reqBody }

theorem execute_bodies {bodies : List Bytes} (hne : ∀ body ∈ bodies, body ≠ []) :
    execute p (bodies.map .body) req = (none, req.withBody bodies.flatten) := by
  induction bodies generalizing req with
  | nil => rfl
  | cons body bodies ih =>
      have hbody := hne body List.mem_cons_self
      have hone : req.settings p (.body body) = (some 0, req.withBody body) := by
        simp only [settings, ssOnBody, withBody, if_neg hbody]
      rw [List.map_cons, execute_cons hone, ih fun x hx ↦ hne x (List.mem_cons_of_mem body hx)]
      by_cases hrest : bodies.flatten = []
      · simp [withBody, hbody, hrest]
      · simp [withBody, hbody, hrest]

end Request

open Request

namespace HttpMessage

/-- The request when the headers are there. -/
def headed (m : HttpMessage) : Request :=
  m.headers.foldl (withHeader m.parser) (Request.new.withUrl m.url)

/-- Why the callbacks end before the end of the message, if they do, and the
request that they leave. -/
def outcome (m : HttpMessage) : Option Stop × Request :=
  execute m.parser m.whole.callbacks Request.new

end HttpMessage

namespace Cut

variable {m : HttpMessage} (cut : Cut m)

theorem execute_before_headers :
    execute m.parser (cut.urls.map .url ++ cut.headers.flatMap headerCallbacks) Request.new =
      (none, m.headed) := by
  rw [execute_append (by rw [execute_urls]), execute_urls,
    execute_headers cut.headers_ne rfl, cut.headers_eq, cut.url_eq]
  rfl

theorem execute_before :
    execute m.parser cut.before Request.new =
      if m.headed.ssOnHeadersComplete.1 ≠ some 0 then
        (some (.of .headersComplete m.headed.ssOnHeadersComplete.1), m.headed.ssOnHeadersComplete.2)
      else (none, m.headed.ssOnHeadersComplete.2.withBody m.body) := by
  have hfirst := cut.execute_before_headers
  have hsplit : cut.before = cut.urls.map .url ++ cut.headers.flatMap headerCallbacks ++
      (.headersComplete :: cut.bodies.map .body) := by
    simp [before]
  rw [hsplit, execute_append (by rw [hfirst]), hfirst]
  have hcomplete : m.headed.settings m.parser .headersComplete = m.headed.ssOnHeadersComplete := rfl
  split
  · rename_i hne
    exact execute_cons_of_failed hcomplete hne
  · rename_i hzero
    have hok : m.headed.settings m.parser .headersComplete =
        (some 0, m.headed.ssOnHeadersComplete.2) := by
      rw [hcomplete, ← not_not.mp hzero]
    rw [execute_cons hok, execute_bodies cut.bodies_ne, cut.body_eq]

/-- However the message is cut, the same callback fails or none does, and it
leaves the same request. -/
theorem execute_callbacks : execute m.parser cut.callbacks Request.new = m.outcome := by
  have hbefore : execute m.parser cut.before Request.new =
      execute m.parser m.whole.before Request.new := by
    rw [execute_before, execute_before]
  rw [HttpMessage.outcome, callbacks, callbacks]
  cases hfailed : (execute m.parser cut.before Request.new).1 with
  | none =>
      rw [execute_append hfailed, execute_append (by rw [← hbefore, hfailed]), hbefore]
  | some stop =>
      rw [execute_append_of_failed hfailed,
        execute_append_of_failed (by rw [← hbefore, hfailed]), hbefore]

end Cut

end SimpleFlow
