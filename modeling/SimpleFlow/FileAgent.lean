import SimpleFlow.FileReader
import SimpleFlow.Library.LabelledSystem

/-!
# The loop of `FileAgent::start_watch`

The loop is a system with a program counter. A step stops wherever the file
system or the handler is consulted, so anything may happen outside between the
construction of a stream and the read from it, between the two reads, before
the `stat`, and before a refused chunk is presented again.
-/

namespace SimpleFlow

/-- `int req_size = 4096` -/
def reqSize : ℕ := 4096

def intMax : Int := 2147483647

/-- `_flow_handler` and `_run_time_limit` -/
structure FileAgent (σ : Type) where
  flowHandler : FlowHandler σ
  runTimeLimit : Int

/-- The constructor followed by `set_flow_handler`. -/
def FileAgent.new {σ : Type} (H : FlowHandler σ) : FileAgent σ := ⟨H, -1⟩

def FileAgent.setRunTimeLimit {σ : Type} (a : FileAgent σ) (limit : Int) : FileAgent σ :=
  { a with runTimeLimit := limit }

/-- Where `start_watch` is. A file is named by its inode number. A fault inside
`do_handle` and an overflow of `run_time` end the run. -/
inductive Pc where
  | head
  | firstOpened (file : ℕ)
  | secondOpen
  | secondOpened (file : ℕ)
  | check
  | handle
  | done
  | faulted (f : Fault)
  | overflowed
  deriving DecidableEq, Repr

/-- The file that the stream of the current `read` has open. -/
def Pc.file : Pc → Option ℕ
  | .firstOpened file => some file
  | .secondOpened file => some file
  | _ => none

/-- One `do_handle` call that returned, and where the bytes in the buffer were
read: the file and the position of the first of them. -/
structure Call where
  file : ℕ
  pos : ℕ
  buffer : Bytes
  size : Int
  answer : Int
  deriving DecidableEq, Repr

def Call.bytes (c : Call) : Bytes := c.buffer.take c.size.toNat

/-- The locals of `start_watch` with its reader and its handler. `source` and
`calls` record, for the proofs, where the buffer was filled and the calls of
`do_handle` that have returned. -/
structure Watch (σ : Type) where
  pc : Pc
  reader : FileReader
  reqBuffer : Bytes
  readSize : Int
  retryStatus : Bool
  runTime : Int
  handler : σ
  source : ℕ × ℕ
  calls : List Call

/-- What the outside answers at a stop: the file a stream opened or none, what
the opened file holds when it is read, the inode `stat` reports or none, and
the moment at which the handler is called. -/
inductive Obs where
  | opened (file : Option ℕ)
  | data (content : Bytes)
  | stat (ino : Option ℕ)
  | call
  deriving DecidableEq, Repr

namespace Watch

variable {σ : Type}

/-- The locals before the first pass. Nothing initialises `run_time`. -/
def start (reader : FileReader) (runTime : Int) (handler : σ) : Watch σ where
  pc := .head
  reader := reader
  reqBuffer := List.replicate reqSize 0
  readSize := 0
  retryStatus := false
  runTime := runTime
  handler := handler
  source := (0, 0)
  calls := []

/-- `bzero(req_buffer,req_size)` -/
def bzero (s : Watch σ) : Watch σ := { s with reqBuffer := List.replicate reqSize 0 }

/-- The end of `file_reader.read(req_buffer, req_size, read_size)`: on to the
handler when it returned 0, to `next` otherwise. -/
def finishRead (s : Watch σ) (file : ℕ) (content : Option Bytes) (next : Pc) : Watch σ :=
  let r := s.reader.read content s.reqBuffer reqSize s.readSize
  { s with
    reader := r.reader
    reqBuffer := r.buffer
    readSize := r.readSize
    source := if r.ret = 0 then (file, s.reader.offset.toNat) else s.source
    pc := if r.ret = 0 then .handle else next }

/-- The construction of the stream in `read`. -/
def openStream (s : Watch σ) (file : Option ℕ) (opened : ℕ → Pc) (next : Pc) : Watch σ :=
  match file with
  | none => s.finishRead 0 none next
  | some file => { s with pc := opened file }

/-- The call that is about to be made, with the answer it will get. -/
def callWith (s : Watch σ) (answer : Int) : Call :=
  ⟨s.source.1, s.source.2, s.reqBuffer, s.readSize, answer⟩

def chunk (s : Watch σ) : Bytes := s.reqBuffer.take s.readSize.toNat

/-- What follows an accepted chunk. The run-time counter is touched only under
a limit. -/
def accepted (s : Watch σ) (limit : Int) : Watch σ :=
  if 0 < limit then
    if s.runTime = intMax then { s with retryStatus := false, pc := .overflowed }
    else
      { s with
        retryStatus := false
        runTime := s.runTime + 1
        pc := if limit ≤ s.runTime + 1 then .done else .head }
  else { s with retryStatus := false, pc := .head }

end Watch

namespace FileAgent

variable {σ : Type} (a : FileAgent σ)

/-- `int n = _flow_handler->do_handle(req_buffer, read_size)` and the rest of
the pass. -/
def callHandler (s : Watch σ) : Watch σ :=
  match a.flowHandler.doHandle s.handler s.reqBuffer s.readSize with
  | .error f => { s with pc := .faulted f }
  | .ok (n, h) =>
      let s' := { s with handler := h, calls := s.calls ++ [s.callWith n] }
      if n < 0 then { s' with retryStatus := true, pc := .head } else s'.accepted a.runTimeLimit

/-- `FileAgent::start_watch`, one stop to the next. -/
def step (s : Watch σ) (o : Obs) : Option (Watch σ) :=
  match s.pc, o with
  | .head, .opened file =>
      if s.retryStatus then none else some (s.bzero.openStream file .firstOpened .secondOpen)
  | .firstOpened file, .data content => some (s.finishRead file (some content) .secondOpen)
  | .secondOpen, .opened file => some (s.openStream file .secondOpened .check)
  | .secondOpened file, .data content => some (s.finishRead file (some content) .check)
  | .check, .stat ino => some { s with reader := (s.reader.checkAndReset ino).2, pc := .head }
  | .handle, .call => some (a.callHandler s)
  | .head, .call => if s.retryStatus then some (a.callHandler s) else none
  | _, _ => none

/-- `start_watch` with anything at all outside. -/
def loop : LabelledSystem (Watch σ) Obs := ⟨a.step⟩

end FileAgent

end SimpleFlow
