import SimpleFlow.HttpRequest
import SimpleFlow.EpollSocket

/-!
# Responses and the HTTP watcher

`Response` of the HTTP server, and `HttpEpollWatcher`: `on_readable` parses what
has come and has the request handled, `on_writeable` sends the response in pieces
of one buffer. What the handlers answer comes from outside, and so does what
`recv` and `send` do.
-/

namespace SimpleFlow

/-! ## `_res_bytes` -/

/-- A `std::stringstream` with the position that it is read from. -/
structure ResBytes where
  str : Bytes
  pos : ℕ
  eofbit : Bool
  failbit : Bool
  deriving DecidableEq, Repr

namespace ResBytes

def new : ResBytes := ⟨[], 0, false, false⟩

variable (s : ResBytes)

def good : Bool := !s.eofbit && !s.failbit

/-- `<<` -/
def write (bytes : Bytes) : ResBytes :=
  if s.good then { s with str := s.str ++ bytes } else s

/-- `read(buffer, n)`: the bytes that `gcount()` counts. -/
def read (n : ℕ) : Bytes × ResBytes :=
  if s.good then
    let bytes := (s.str.drop s.pos).take n
    let short := decide (bytes.length < n)
    (bytes, ⟨s.str, s.pos + bytes.length, short, short⟩)
  else ([], { s with failbit := true })

def clear : ResBytes := { s with eofbit := false, failbit := false }

/-- `(int) tellg()` -/
def tellg : Int := if s.good then (s.pos : Int).bmod 4294967296 else -1

/-- `seekg(pos)` -/
def seekg (pos : Int) : ResBytes :=
  let s := { s with eofbit := false }
  if s.failbit then s
  else if 0 ≤ pos ∧ pos ≤ s.str.length then { s with pos := pos.toNat }
  else { s with failbit := true }

end ResBytes

/-! ## `Response` -/

structure CodeMsg where
  statusCode : Int
  msg : Bytes
  deriving DecidableEq, Repr

def statusOk : CodeMsg := ⟨200, ascii "OK"⟩

def statusNotFound : CodeMsg := ⟨404, ascii "Not Found"⟩

def statusMethodNotAllowed : CodeMsg := ⟨405, ascii "Method Not Allowed"⟩

def statusLengthRequired : CodeMsg := ⟨411, ascii "Length Required"⟩

/-- An integer as `<<` writes it. -/
def decimal : Int → Bytes
  | .ofNat n => ascii (toString n)
  | .negSucc n => ascii "-" ++ ascii (toString (n + 1))

/-- `m[name] = value` in a map that is listed in the order of its keys. -/
def setKey (name value : Bytes) : List (Bytes × Bytes) → List (Bytes × Bytes)
  | [] => [(name, value)]
  | h :: rest =>
      if name = h.1 then (name, value) :: rest
      else if name < h.1 then (name, value) :: h :: rest
      else h :: setKey name value rest

/-- What a handler sets of a response: `_code_msg`, `_headers` and `_body`. -/
structure Reply where
  codeMsg : CodeMsg
  headers : List (Bytes × Bytes)
  body : Bytes
  deriving DecidableEq, Repr

namespace Reply

def new : Reply := ⟨statusOk, [], []⟩

/-- `Response::set_head` -/
def setHead (r : Reply) (name value : Bytes) : Reply :=
  { r with headers := setKey name value r.headers }

/-- `Response::set_body`, with what `FastWriter::write` has made of the value. -/
def setBody (r : Reply) (written : Bytes) : Reply := { r with body := written }

def hasHead (r : Reply) (name : Bytes) : Bool := r.headers.any fun h ↦ h.1 = name

end Reply

def crlf : Bytes := [CR, LF]

structure Response where
  reply : Reply
  isWrited : Bool
  resBytes : ResBytes
  deriving DecidableEq, Repr

namespace Response

def new : Response := ⟨.new, false, .new⟩

/-- What `gen_response` writes. -/
def genBytes (r : Reply) (httpVersion : Bytes) (isKeepalive : Bool) : Bytes :=
  httpVersion ++ ascii " " ++ decimal r.codeMsg.statusCode ++ ascii " " ++ r.codeMsg.msg ++ crlf ++
    (ascii "Server: ehttp/" ++ ascii "1.0.4" ++ crlf) ++
    (if r.hasHead (ascii "Content-Type") then []
      else ascii "Content-Type: application/json; charset=UTF-8" ++ crlf) ++
    (if r.hasHead (ascii "Content-Length") then []
      else ascii "Content-Length: " ++ decimal r.body.length ++ crlf) ++
    ((if isKeepalive then ascii "Connection: Keep-Alive" else ascii "Connection: close") ++ crlf) ++
    r.headers.flatMap (fun h ↦ h.1 ++ ascii ": " ++ h.2 ++ crlf) ++ crlf ++ r.body

/-- `Response::gen_response` -/
def genResponse (res : Response) (httpVersion : Bytes) (isKeepalive : Bool) : Response :=
  { res with resBytes := res.resBytes.write (genBytes res.reply httpVersion isKeepalive) }

/-- `Response::readsome`: the answer, the bytes and the response. Its comment has
the two answers the other way round; `on_writeable` goes by these. -/
def readsome (res : Response) (bufferSize : ℕ) : Int × Bytes × Response :=
  let result := res.resBytes.read bufferSize
  (if result.2.eofbit then 0 else needMoreStatus, result.1, { res with resBytes := result.2 })

/-- `Response::rollback` -/
def rollback (res : Response) (num : Int) : Int × Response :=
  let s := if res.resBytes.eofbit then res.resBytes.clear else res.resBytes
  let s := s.seekg (s.tellg - num)
  (if s.good then 0 else -1, { res with resBytes := s })

end Response

/-! ## `HttpContext` -/

structure HttpContext where
  req : Request
  res : Response

namespace HttpContext

def new : HttpContext := ⟨.new, .new⟩

/-- `strcasecmp(s, t) == 0` -/
def strcasecmpEq (s t : Bytes) : Bool :=
  decide (ssStrTolower (cString s) = ssStrTolower (cString t))

def isKeepalive (hc : HttpContext) : Bool :=
  strcasecmpEq (hc.req.getHeader (ascii "Connection")) (ascii "keep-alive")

end HttpContext

/-! ## Resources -/

/-- The names of an `HttpMethod` in the order of its `std::set`; nothing reads its
codes. -/
structure HttpMethod where
  names : List Bytes
  deriving DecidableEq, Repr

/-- `HttpMethod::get_names_str` -/
def HttpMethod.getNamesStr (hm : HttpMethod) : Bytes := (ascii ", ").intercalate hm.names

/-- A `Resource`. What a handler answers may depend on anything, here `Ω`; a json
handler answers with what `FastWriter` writes of the value it has filled in. -/
structure Resource (Ω : Type) where
  method : HttpMethod
  handlerPtr : Option (Ω → Request → Reply → Reply)
  jsonPtr : Option (Ω → Request → Bytes)
  jh : Option (Ω → Request → Bytes)

structure HttpEpollWatcher (Ω : Type) where
  resourceMap : Bytes → Option (Resource Ω)

/-- `SS_WRITE_BUFFER_SIZE` -/
def ssWriteBufferSize : ℕ := 4096

/-- What `recv` does: it fails, the peer has closed, or it stores bytes of which
`http_parser_execute` makes this. -/
inductive HttpRecv where
  | failed (eintr : Bool)
  | closed
  | got (x : Parsing)
  deriving DecidableEq, Repr

/-- What `send` does: it fails, or the socket takes a first part. -/
inductive Send where
  | failed
  | took (count : ℕ)
  deriving DecidableEq, Repr

namespace HttpEpollWatcher

variable {Ω : Type} (w : HttpEpollWatcher Ω)

/-- `HttpEpollWatcher::handle_request` -/
def handleRequest (ω : Ω) (req : Request) (r : Reply) : Reply :=
  match w.resourceMap req.line.getRequestUri with
  | none => { r with codeMsg := statusNotFound, body := statusNotFound.msg }
  | some resource =>
      if req.line.method ∉ resource.method.names then
        let r := { r with codeMsg := statusMethodNotAllowed }
        let r := r.setHead (ascii "Allow") resource.method.getNamesStr
        { r with body := [] }
      else
        match resource.jsonPtr, resource.handlerPtr, resource.jh with
        | some jsonPtr, _, _ => r.setBody (jsonPtr ω req)
        | none, some handlerPtr, _ => handlerPtr ω req r
        | none, none, some jh => r.setBody (jh ω req)
        | none, none, none => r

/-- `HttpEpollWatcher::on_readable`. An exception out of `parse_request` leaves
it, too. -/
def onReadable (ω : Ω) (hc : HttpContext) (recv : HttpRecv) : Answer × HttpContext :=
  match recv with
  | .failed true => (some readContinue, hc)
  | .failed false | .closed => (some readClose, hc)
  | .got x =>
      let answer := (hc.req.parseRequest x).1
      let hc := { hc with req := (hc.req.parseRequest x).2 }
      match answer with
      | none => (none, hc)
      | some ret =>
          if ret < 0 then (some readClose, hc)
          else if ret = needMoreStatus then (some readContinue, hc)
          else if ret = parseLenRequired then
            let r := { hc.res.reply with codeMsg := statusLengthRequired }
            let r := { r with body := statusLengthRequired.msg }
            (some readOver, { hc with res := { hc.res with reply := r } })
          else
            let r := w.handleRequest ω hc.req hc.res.reply
            (some readOver, { hc with res := { hc.res with reply := r } })

/-- `HttpEpollWatcher::on_writeable`: the answer, the context and what the socket
has taken; `none` when `send` cannot do that. -/
def onWriteable (hc : HttpContext) (send : Send) : Option (WriteRet × HttpContext × Bytes) :=
  let isKeepalive := hc.isKeepalive
  let res :=
    if hc.res.isWrited then hc.res
    else { hc.res.genResponse hc.req.line.httpVersion isKeepalive with isWrited := true }
  let (ret, buffer, res) := res.readsome ssWriteBufferSize
  if buffer.length = 0 then some (.close, { hc with res := res }, [])
  else
    match send with
    | .failed => some (.close, { hc with res := res }, [])
    | .took nwrite =>
        if buffer.length < nwrite then none
        else
          let res :=
            if nwrite < buffer.length then (res.rollback (buffer.length - nwrite)).2 else res
          if ret = needMoreStatus then some (.again, { hc with res := res }, buffer.take nwrite)
          else if isKeepalive = true ∧ 0 < nwrite then some (.alive, .new, buffer.take nwrite)
          else some (.close, { hc with res := res }, buffer.take nwrite)

end HttpEpollWatcher

end SimpleFlow
