import SimpleFlow.MultipartParser
import Mathlib.Logic.Function.Basic

/-!
# Requests

`Request` of the HTTP server: the callbacks that `http_parser_execute` makes and
what they leave in the request, down to the parameters of a form. What
`http_parser_execute` makes of the bytes it is given comes from outside: the
callbacks for them and whether it takes them all.
-/

namespace SimpleFlow

/-! ## String helpers -/

/-- `ss_str_tolower` -/
def ssStrTolower (input : Bytes) : Bytes :=
  input.map fun c ↦ if 65 ≤ c ∧ c ≤ 90 then c + 32 else c

/-- The loop of `ss_split_str`. It ends when `getline` has extracted nothing. -/
def ssSplitLoop (s : UInt8) : (n : ℕ) → (ss : StringStream) → ss.passes ≤ n → List Bytes
  | 0, _, _ => []
  | n + 1, ss, h =>
      if hg : ss.good = true then
        if (getline ss s).2.failbit then []
        else
          (getline ss s).1 :: ssSplitLoop s n (getline ss s).2 (getline_passes_of_good hg h s)
      else []

/-- `ss_split_str` -/
def ssSplitStr (input : Bytes) (s : UInt8) : List Bytes :=
  if input.isEmpty then []
  else ssSplitLoop s (input.length + 1) (.ofString input) (passes_ofString_le input)

/-! ## The parts of a request -/

/-- The values of `_parse_part`. -/
inductive ParsePart where
  | reqLine
  | reqHead
  | reqBody
  | reqOver
  | reqHeadOver
  deriving DecidableEq, Repr

def needMoreStatus : Int := 1

def parseLenRequired : Int := 2

def parseMultipartErr : Int := -3

def maxReqSize : ℕ := 10485760

structure RequestLine where
  param : RequestParam
  method : Bytes
  requestUrl : Bytes
  httpVersion : Bytes
  deriving DecidableEq, Repr

namespace RequestLine

def empty : RequestLine := ⟨.empty, [], [], []⟩

/-- `RequestLine::get_request_uri` -/
def getRequestUri (line : RequestLine) : Bytes :=
  (getline (.ofString line.requestUrl) questionMark).1

/-- `RequestLine::parse_request_url_params` -/
def parseRequestUrlParams (line : RequestLine) : RequestLine :=
  let ss := (getline (.ofString line.requestUrl) questionMark).2
  if ss.good then { line with param := line.param.parseQueryUrl (getline ss questionMark).1 }
  else line

end RequestLine

/-- `FileItem`; its `_parse_state` is a `bool`, true for every state but
`PARSE_MULTI_DISPOSITION`. -/
structure FileItem where
  isFile : Bool
  parseState : Bool
  contentType : Bytes
  name : Bytes
  filename : Bytes
  data : Bytes
  deriving DecidableEq, Repr

def FileItem.new : FileItem := ⟨false, false, [], [], [], []⟩

structure RequestBody where
  rawString : Bytes
  reqParams : RequestParam
  fileItems : List FileItem
  deriving DecidableEq, Repr

/-- `RequestBody::parse_multi_params` -/
def RequestBody.parseMultiParams (body : RequestBody) : RequestBody :=
  let params := body.fileItems.foldl (fun r item ↦ r.addParamPair item.name item.data)
    body.reqParams
  { body with reqParams := params }

/-- A `Request`. `headers` is the map that `get_header` reads, empty where no
header of the name was stored. -/
structure Request where
  lastWasValue : Bool
  headerFields : List Bytes
  headerValues : List Bytes
  parsePart : ParsePart
  parseErr : Int
  line : RequestLine
  headers : Bytes → Bytes
  totalReqSize : ℕ
  body : RequestBody

namespace Request

def new : Request :=
  ⟨true, [], [], .reqLine, 0, .empty, fun _ ↦ [], 0, ⟨[], .empty, []⟩⟩

/-- `Request::get_header` -/
def getHeader (req : Request) (name : Bytes) : Bytes := req.headers (ssStrTolower name)

/-- `Request::add_header`; it turns the name into lower case in place. -/
def addHeader (req : Request) (name value : Bytes) : Request :=
  { req with headers := Function.update req.headers (ssStrTolower name) value }

/-- `Request::get_param` -/
def getParam (req : Request) (name : Bytes) : Bytes :=
  if req.line.method = ascii "GET" then req.line.param.getParam name
  else if req.line.method = ascii "POST" then req.body.reqParams.getParam name
  else []

/-- `Request::get_params` -/
def getParams (req : Request) (name : Bytes) : List Bytes :=
  if req.line.method = ascii "GET" then req.line.param.getParams name
  else if req.line.method = ascii "POST" then req.body.reqParams.getParams name
  else []

/-- `Request::get_unescape_param`. Its comment, that it does the same as
`get_param`, is out of date. -/
def getUnescapeParam (req : Request) (name : Bytes) : Bytes :=
  if (req.getParam name).isEmpty then req.getParam name else unescape (req.getParam name)

end Request

/-! ## The callbacks of the multipart parser -/

def quote : UInt8 := 34

def semicolon : UInt8 := 59

/-- `ss_parse_disposition_value`: the output, or the answer when it is not 0. -/
def ssParseDispositionValue (input : Bytes) : Except Answer Bytes :=
  match ssSplitStr input equalsSign with
  | [_, output] =>
      if output = [quote, quote] then .ok []
      -- `substr(1, ..)` of an empty string throws `std::out_of_range`
      else if output = [] then .error none
      else if ((output.drop 1).take (output.length - 2)).isEmpty then .error (some (-1))
      else .ok ((output.drop 1).take (output.length - 2))
  | _ => .error (some (-1))

example : ssParseDispositionValue (ascii "name==") = .error none := by decide

/-- `ss_parse_multi_disposition` -/
def ssParseMultiDisposition (input : Bytes) (item : FileItem) : Answer × FileItem :=
  match ssSplitStr input semicolon with
  | _ :: second :: rest =>
      match ssParseDispositionValue second with
      | .error ret => (ret, item)
      | .ok fieldname =>
          let item := { item with name := fieldname }
          match rest with
          | [] => (some 0, item)
          | third :: _ =>
              let item := { item with isFile := true }
              match ssParseDispositionValue third with
              | .error ret => (ret, item)
              | .ok filename => (some 0, { item with filename := filename })
  | _ => (some (-1), item)

namespace Request

variable (req : Request)

def withItems (items : List FileItem) : Request :=
  { req with body := { req.body with fileItems := items } }

/-- The last of `_file_items`, changed by `f`; `whenEmpty` is answered when
there is none. -/
def onLastItem (whenEmpty : Int) (f : FileItem → Answer × FileItem) : Answer × Request :=
  match req.body.fileItems.getLast? with
  | none => (some whenEmpty, req)
  | some item => ((f item).1, req.withItems (req.body.fileItems.dropLast ++ [(f item).2]))

/-- `ss_on_multipart_name` -/
def ssOnMultipartName (s : Bytes) : Answer × Request :=
  if s = ascii "Content-Disposition" then
    (some 0, req.withItems (req.body.fileItems ++ [{ FileItem.new with parseState := false }]))
  else if s = ascii "Content-Type" then
    req.onLastItem 1 fun item ↦ (some 0, { item with parseState := true })
  else (some 0, req)

/-- `ss_on_multipart_value` -/
def ssOnMultipartValue (s : Bytes) : Answer × Request :=
  req.onLastItem (-1) fun item ↦
    if item.parseState then (some 0, { item with contentType := s })
    else ssParseMultiDisposition s item

/-- `ss_on_multipart_data` -/
def ssOnMultipartData (bytes : Bytes) : Answer × Request :=
  if bytes.length = 0 then (some 0, req)
  else req.onLastItem 1 fun item ↦ (some 0, { item with data := item.data ++ bytes })

/-- `ss_on_multipart_data_over`: `PARSE_MULTI_OVER` is kept as true. -/
def ssOnMultipartDataOver : Answer × Request :=
  req.onLastItem 1 fun item ↦ (some 0, { item with parseState := true })

/-- `ss_on_multipart_body_end` -/
def ssOnMultipartBodyEnd : Answer × Request :=
  (some 0, { req with body := req.body.parseMultiParams })

/-- The `mp_settings` of `ss_parse_multipart_data`. -/
def mpSettings : MultipartSettings Request where
  on := fun req call ↦
    match call with
    | .headerField bytes => req.ssOnMultipartName bytes
    | .headerValue bytes => req.ssOnMultipartValue bytes
    | .partData bytes => req.ssOnMultipartData bytes
    | .partDataEnd => req.ssOnMultipartDataOver
    | .bodyEnd => req.ssOnMultipartBodyEnd
    | .partDataBegin | .headersComplete => (some 0, req)

/-- `ss_parse_multipart_data`. Where the boundary cannot be read off the header
it returns the 0 that `ss_split_str` has answered. -/
def ssParseMultipartData : Answer × Request :=
  if req.body.rawString.isEmpty then (some 0, req)
  else
    match ssSplitStr (req.getHeader (ascii "Content-Type")) semicolon with
    | [_, second] =>
        match ssSplitStr second equalsSign with
        | [_, token] =>
            let result := mpSettings.execute (ascii "--" ++ token) req.body.rawString req
            (result.1.map fun parsed ↦ if parsed ≠ req.body.rawString.length then -1 else 0,
              result.2)
        | _ => (some 0, req)
    | _ => (some 0, req)

end Request

/-! ## The callbacks of `http_parser` -/

/-- What the callbacks read of the `http_parser`. -/
structure HttpParser where
  method : Bytes
  httpMajor : ℕ
  httpMinor : ℕ
  deriving DecidableEq, Repr

inductive ParserCallback where
  | url (bytes : Bytes)
  | headerField (bytes : Bytes)
  | headerValue (bytes : Bytes)
  | headersComplete
  | body (bytes : Bytes)
  | messageComplete
  deriving DecidableEq, Repr

/-- `strings[strings.size() - 1] += s` -/
def appendToLast (s : Bytes) : List Bytes → List Bytes
  | [] => []
  | [last] => [last ++ s]
  | first :: rest => first :: appendToLast s rest

/-- `_params.find("multipart/form-data") != npos` on a header. -/
def contains (pattern text : Bytes) : Bool := decide (pattern <:+: text)

namespace Request

variable (p : HttpParser) (req : Request)

/-- `ss_on_url` -/
def ssOnUrl (buf : Bytes) : Answer × Request :=
  (some 0, { req with line := { req.line with requestUrl := req.line.requestUrl ++ buf } })

/-- What `ss_on_header_field` does at the first header. -/
def lineOver : Request :=
  let line := RequestLine.parseRequestUrlParams { req.line with method := p.method }
  let version :=
    if p.httpMajor = 1 ∧ p.httpMinor = 0 then ascii "HTTP/1.0"
    else if p.httpMajor = 1 ∧ p.httpMinor = 1 then ascii "HTTP/1.1"
    else line.httpVersion
  { req with line := { line with httpVersion := version }, parsePart := .reqHead }

/-- `ss_on_header_field` -/
def ssOnHeaderField (buf : Bytes) : Answer × Request :=
  let req := if req.parsePart = .reqLine then req.lineOver p else req
  if req.lastWasValue then
    (some 0, { req with headerFields := req.headerFields ++ [buf], lastWasValue := false })
  else (some 0, { req with headerFields := appendToLast buf req.headerFields })

/-- `ss_on_header_value` -/
def ssOnHeaderValue (buf : Bytes) : Answer × Request :=
  if req.lastWasValue = false then
    (some 0, { req with headerValues := req.headerValues ++ [buf], lastWasValue := true })
  else
    (some 0, { req with headerValues := appendToLast buf req.headerValues, lastWasValue := true })

/-- `ss_on_headers_complete` -/
def ssOnHeadersComplete : Answer × Request :=
  if req.headerFields.length ≠ req.headerValues.length then (some (-1), req)
  else
    let req := (req.headerFields.zip req.headerValues).foldl (fun r h ↦ r.addHeader h.1 h.2) req
    let fields := req.headerFields.map ssStrTolower
    let req := { req with headerFields := fields, parsePart := .reqHeadOver }
    if req.line.method = ascii "POST" ∧ req.getHeader (ascii "Content-Length") = [] then
      (some (-1), { req with parseErr := parseLenRequired })
    else (some 0, req)

/-- `ss_on_body` -/
def ssOnBody (buf : Bytes) : Answer × Request :=
  let rawString := req.body.rawString ++ buf
  (some 0, { req with body := { req.body with rawString := rawString }, parsePart := .reqBody })

/-- The body parameters, as `ss_on_message_complete` reads them. -/
def formParams : Request :=
  if req.getHeader (ascii "Content-Type") = ascii "application/x-www-form-urlencoded" ∧
      req.body.rawString ≠ [] then
    let params := req.body.reqParams.parseQueryUrl req.body.rawString
    { req with body := { req.body with reqParams := params } }
  else req

/-- `ss_on_message_complete` -/
def ssOnMessageComplete : Answer × Request :=
  let ctHeader := req.getHeader (ascii "Content-Type")
  let req := req.formParams
  if contains (ascii "multipart/form-data") ctHeader then
    let parsed := req.ssParseMultipartData
    match parsed.1 with
    | none => (none, parsed.2)
    | some parseRet =>
        let parseErr := if parseRet ≠ 0 then parseMultipartErr else parsed.2.parseErr
        (some parseRet, { parsed.2 with parseErr := parseErr, parsePart := .reqOver })
  else (some 0, { req with parsePart := .reqOver })

/-- The `_settings` of a request. -/
def settings : ParserCallback → Answer × Request
  | .url bytes => req.ssOnUrl bytes
  | .headerField bytes => req.ssOnHeaderField p bytes
  | .headerValue bytes => req.ssOnHeaderValue bytes
  | .headersComplete => req.ssOnHeadersComplete
  | .body bytes => req.ssOnBody bytes
  | .messageComplete => req.ssOnMessageComplete

end Request

/-! ## `Request::parse_request` -/

/-- What `http_parser_execute` makes of a buffer of `size` bytes: its callbacks,
and whether it takes all bytes when each of them answers 0. If
`on_message_complete` fails it has taken all when the message ends the buffer;
if another callback fails it has not. -/
structure Parsing where
  parser : HttpParser
  size : ℕ
  callbacks : List ParserCallback
  complete : Bool
  endsBuffer : Bool
  deriving DecidableEq, Repr

/-- Why `http_parser_execute` ends before its last callback: one does not answer
0, or an exception leaves one. -/
inductive Stop where
  | failed (call : ParserCallback)
  | thrown
  deriving DecidableEq, Repr

/-- What a callback that does not answer 0 comes to. -/
def Stop.of (call : ParserCallback) : Answer → Stop
  | some _ => .failed call
  | none => .thrown

/-- `nparsed == read_size`, when it ends as `stop` says. -/
def Parsing.tookAll (x : Parsing) : Option Stop → Bool
  | none => x.complete
  | some (.failed .messageComplete) => x.endsBuffer
  | some _ => false

namespace Request

/-- The callbacks until one does not answer 0: what that one comes to, if there
is one, and the request. -/
def execute (p : HttpParser) : List ParserCallback → Request → Option Stop × Request
  | [], req => (none, req)
  | call :: calls, req =>
      let called := req.settings p call
      if called.1 ≠ some 0 then (some (.of call called.1), called.2)
      else execute p calls called.2

/-- `Request::parse_request`. Nothing catches the exception: it ends the process. -/
def parseRequest (req : Request) (x : Parsing) : Answer × Request :=
  let req := { req with totalReqSize := req.totalReqSize + x.size }
  if maxReqSize < req.totalReqSize then (some (-1), req)
  else
    let result := execute x.parser x.callbacks req
    let req := result.2
    if result.1 = some .thrown then (none, req)
    else if x.tookAll result.1 = false then (some (-1), req)
    else if req.parseErr ≠ 0 then (some req.parseErr, req)
    else if req.parsePart ≠ .reqOver then (some needMoreStatus, req)
    else (some 0, req)

end Request

end SimpleFlow
