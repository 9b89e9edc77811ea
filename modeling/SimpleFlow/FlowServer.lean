import SimpleFlow.FlowHandler
import SimpleFlow.Library.LabelledSystem
import Mathlib.Logic.Function.Basic

/-!
# The flow server

`FlowServer::start` runs the event loop of `EpollSocket` with a
`FlowEpollWatcher` and a pool of worker threads. The loop, every worker, the
clients and the kernel take their steps in any order; an `Act` names whose step
is next and carries what the system calls answer. Between two steps of one
thread lies every point at which another thread can see or change something:
the epoll set, the queue of tasks, the sockets, and the handler.

`stop_epoll` is never called, so the status stays `S_RUN`; idle clients are
never evicted; contexts are named by `_id` and their other fields are only
read where clients are evicted or listed.
-/

namespace SimpleFlow

/-- `SS_READ_BUFFER_SIZE` -/
def ssReadBufferSize : ℕ := 4096

/-- `READ_OVER` -/
def readOver : Int := 0

/-- `READ_CONTINUE` -/
def readContinue : Int := 1

/-- `READ_CLOSE` -/
def readClose : Int := -1

/-- `m_task_size_limit` of the pool that the server builds for itself. -/
def taskSizeLimit : Int := -1

/-! ## `FlowEpollWatcher` -/

/-- What `recv` does: it fails, with `EINTR` or otherwise, or stores bytes,
none at the end of the stream. -/
inductive Recv where
  | failed (eintr : Bool)
  | got (bytes : Bytes) (hle : bytes.length ≤ ssReadBufferSize)
  deriving DecidableEq

namespace Recv

def readSize : Recv → Int
  | .failed _ => -1
  | .got bytes _ => bytes.length

/-- `errno == EINTR` -/
def eintr : Recv → Bool
  | .failed eintr => eintr
  | .got _ _ => false

def bytes : Recv → Bytes
  | .failed _ => []
  | .got bytes _ => bytes

/-- `read_buffer`, which `memset` cleared before. -/
def readBuffer (r : Recv) : Bytes :=
  r.bytes ++ (List.replicate ssReadBufferSize 0).drop r.bytes.length

end Recv

/-- How `on_readable` ends: with an answer of its own or with a call of
`do_handle`, whose answer it returns. -/
inductive Readable where
  | answer (ret : Int)
  | call (buffer : Bytes) (size : Int)
  deriving DecidableEq

/-- `FlowEpollWatcher::on_readable` after its `recv` -/
def onReadable (r : Recv) : Readable :=
  if r.readSize = -1 ∧ r.eintr = true then .answer readContinue
  else if r.readSize = -1 ∨ r.readSize = 0 then .answer readClose
  else .call r.readBuffer r.readSize

def okBytes : Bytes := [79, 75]

/-! ## The state -/

/-- What epoll waits for on a descriptor, always together with `EPOLLONESHOT`. -/
inductive Interest where
  | input
  | output
  deriving DecidableEq, Repr

/-- A connection: whether it is in `_eclients`, what it is armed for, what its
client has sent, how much of that `recv` has returned, and what the server has
put on the wire. -/
structure Conn where
  registered : Bool
  armed : Option Interest
  sent : Bytes
  received : ℕ
  wire : Bytes
  deriving DecidableEq, Repr

namespace Conn

def none : Conn := ⟨false, Option.none, [], 0, []⟩

/-- `epoll_ctl` with one interest and `EPOLLONESHOT`, when it succeeds. -/
def arm (k : Conn) (i : Interest) (ok : Bool) : Conn := if ok then { k with armed := some i } else k

/-- `close_and_release` -/
def close (k : Conn) : Conn := { k with registered := false, armed := Option.none }

end Conn

/-- An entry of the `events` array: a listening socket, or a connection with
the bits `EPOLLIN` and `EPOLLOUT`. -/
inductive Event where
  | listen
  | conn (client : ℕ) (epollin epollout : Bool)
  deriving DecidableEq, Repr

def Event.client : Event → Option ℕ
  | .listen => none
  | .conn client _ _ => some client

/-- Where the event loop is: in `epoll_wait`, between two events, or inside
`handle_accept_event` before its `epoll_ctl`, inside `handle_writeable_event`
before its `send` or before its `epoll_ctl`. -/
inductive LoopPc where
  | waiting
  | handling
  | adding (client : ℕ)
  | writing (client : ℕ)
  | written (client : ℕ)
  deriving DecidableEq, Repr

def LoopPc.client : LoopPc → Option ℕ
  | .waiting => none
  | .handling => none
  | .adding client => some client
  | .writing client => some client
  | .written client => some client

/-- Where a pool thread is: without a task, before `recv`, before `do_handle`,
after `on_readable` has returned, or past `handle_readable_event` but still
inside `read_func`. -/
inductive Worker where
  | idle
  | reading (client : ℕ)
  | calling (client : ℕ) (buffer : Bytes) (size : Int)
  | answered (client : ℕ) (ret : Int)
  | finishing (client : ℕ)
  | faulted (client : ℕ) (f : Fault)
  deriving DecidableEq, Repr

def Worker.client : Worker → Option ℕ
  | .idle => none
  | .reading client => some client
  | .calling client _ _ => some client
  | .answered client _ => some client
  | .finishing client => some client
  | .faulted client _ => some client

structure Handled where
  client : ℕ
  bytes : Bytes
  answer : Option Int
  deriving DecidableEq, Repr

/-- The server and its clients. `accepted` is `g_client_id`; `calls` records
for the proofs the calls of `do_handle` in their order. -/
structure Server (σ : Type) where
  handler : σ
  accepted : ℕ
  conns : ℕ → Conn
  loop : LoopPc
  events : List Event
  tasks : List ℕ
  workers : List Worker
  calls : List Handled

/-- `FlowServer::start`: the handler, `backlog`, which is also `max_events`,
and the number of cores, which is the size of the pool. -/
structure FlowServer (σ : Type) where
  flowHandler : FlowHandler σ
  backlog : ℕ
  coreSize : ℕ

def Server.start {σ : Type} (v : FlowServer σ) (handler : σ) : Server σ where
  handler := handler
  accepted := 0
  conns := fun _ ↦ .none
  loop := .waiting
  events := []
  tasks := []
  workers := List.replicate v.coreSize .idle
  calls := []

/-! ## The steps -/

/-- A client sends; `epoll_wait` stores an event or returns; the loop handles
the next event (`ok` is the outcome of an `accept`), calls `epoll_ctl`, `send`s
some of its two bytes (none when `send` answers -1), or is through with its
events; a pool thread takes a task, calls `recv`, calls the handler, acts on
the answer (`ok` is the outcome of its `epoll_ctl`), or ends its task. -/
inductive Act where
  | sends (client : ℕ) (bytes : Bytes)
  | ready (e : Event)
  | wake
  | dispatch (ok : Bool)
  | ctl (ok : Bool)
  | send (taken : ℕ)
  | again
  | pick (w : ℕ)
  | recv (w : ℕ) (r : Recv)
  | call (w : ℕ)
  | settle (w : ℕ) (ok : Bool)
  | finish (w : ℕ)
  deriving DecidableEq

namespace Act

def connect : List Act := [.ready .listen, .wake, .dispatch true, .ctl true, .again]

/-- A client sends, and the loop queues the task that will read it. -/
def queue (client : ℕ) (bytes : Bytes) : List Act :=
  [.sends client bytes, .ready (.conn client true false), .wake, .dispatch true, .again]

/-- The first thread takes a task, receives, calls the handler and acts on its
answer. -/
def serve (bytes : Bytes) (hle : bytes.length ≤ ssReadBufferSize) : List Act :=
  [.pick 0, .recv 0 (.got bytes hle), .call 0, .settle 0 true]

end Act

namespace Server

variable {σ : Type}

def withConn (s : Server σ) (client : ℕ) (k : Conn) : Server σ :=
  { s with conns := Function.update s.conns client k }

def withWorker (s : Server σ) (w : ℕ) (x : Worker) : Server σ :=
  { s with workers := s.workers.set w x }

/-- `ThreadPool::add_task` -/
def addTask (limit : Int) (tasks : List ℕ) (client : ℕ) : Option (List ℕ) :=
  if 0 < limit ∧ limit < (tasks.length : Int) then none else some (tasks ++ [client])

/-- What an event may say of a connection: it is armed, and the bits are among
those it is armed for. Errors and hang-ups are reported with neither bit. -/
def mayReport (s : Server σ) : Event → Bool
  | .listen => true
  | .conn client epollin epollout =>
      match (s.conns client).armed with
      | none => false
      | some .input => !epollout
      | some .output => !epollin

/-- `EPOLLONESHOT`: a reported connection is not armed any more. -/
def report (s : Server σ) (e : Event) : Server σ :=
  let s := { s with events := s.events ++ [e] }
  match e with
  | .listen => s
  | .conn client _ _ => s.withConn client { s.conns client with armed := none }

/-- `handle_event` -/
def handleEvent (s : Server σ) (ok : Bool) : Event → Server σ
  | .listen =>
      -- `handle_accept_event` up to `epoll_ctl`
      if ok then
        let client := s.accepted + 1
        { s.withConn client { s.conns client with registered := true } with
          accepted := client
          loop := .adding client }
      else s
  | .conn client epollin epollout =>
      if epollin then
        -- `multi_thread_handle_read_event`
        match addTask taskSizeLimit s.tasks client with
        | some tasks => { s with tasks := tasks }
        | none => s.withConn client (s.conns client).close
      else if epollout then { s with loop := .writing client }
      else s

/-- The `epoll_ctl` of the event loop, and what follows when it fails: a new
connection is closed, an old one is left as it is. -/
def loopCtl (s : Server σ) (ok : Bool) : Option (Server σ) :=
  match s.loop with
  | .adding client =>
      let k := s.conns client
      some { s.withConn client (if ok then k.arm .input true else k.close) with loop := .handling }
  | .written client =>
      -- `on_writeable` answers `WRITE_CONN_ALIVE` whatever `send` did
      some { s.withConn client ((s.conns client).arm .input ok) with loop := .handling }
  | _ => none

/-- `on_readable` after `recv` in the thread `w`. -/
def received (s : Server σ) (w client : ℕ) (r : Recv) : Server σ :=
  let k := s.conns client
  let s := s.withConn client { k with received := k.received + r.bytes.length }
  match onReadable r with
  | .answer ret => s.withWorker w (.answered client ret)
  | .call buffer size => s.withWorker w (.calling client buffer size)

/-- `recv` returns the next bytes of the stream. -/
def mayReceive (s : Server σ) (client : ℕ) (r : Recv) : Bool :=
  r.bytes.isPrefixOf ((s.conns client).sent.drop (s.conns client).received)

/-- `handle_readable_event` after `on_readable` has returned `ret`. -/
def settled (s : Server σ) (w client : ℕ) (ret : Int) (ok : Bool) : Server σ :=
  let k := s.conns client
  let s := s.withWorker w (.finishing client)
  if ret = readClose then s.withConn client k.close
  else if ret = readContinue then s.withConn client (k.arm .input ok)
  else if ret = readOver then s.withConn client (k.arm .output ok)
  else s

end Server

namespace FlowServer

open Server

variable {σ : Type} (v : FlowServer σ)

/-- `do_handle` in the thread `w`. -/
def handle (s : Server σ) (w client : ℕ) (buffer : Bytes) (size : Int) : Server σ :=
  match v.flowHandler.doHandle s.handler buffer size with
  | .error f =>
      { s.withWorker w (.faulted client f) with
        calls := s.calls ++ [⟨client, buffer.take size.toNat, none⟩] }
  | .ok (ret, h) =>
      { s.withWorker w (.answered client ret) with
        handler := h
        calls := s.calls ++ [⟨client, buffer.take size.toNat, some ret⟩] }

/-- One step of a client, of the kernel, of the event loop or of a thread. -/
def step (s : Server σ) : Act → Option (Server σ)
  | .sends client bytes =>
      let k := s.conns client
      some (s.withConn client { k with sent := k.sent ++ bytes })
  | .ready e =>
      if s.loop = .waiting ∧ s.events.length < v.backlog ∧ s.mayReport e = true then
        some (s.report e)
      else none
  | .wake => if s.loop = .waiting then some { s with loop := .handling } else none
  | .dispatch ok =>
      match s.loop, s.events with
      | .handling, e :: events => some ({ s with events := events }.handleEvent ok e)
      | _, _ => none
  | .ctl ok => s.loopCtl ok
  | .send taken =>
      match s.loop with
      | .writing client =>
          let k := s.conns client
          some { s.withConn client { k with wire := k.wire ++ okBytes.take taken } with
            loop := .written client }
      | _ => none
  | .again => if s.loop = .handling ∧ s.events = [] then some { s with loop := .waiting } else none
  | .pick w =>
      match s.workers[w]?, s.tasks with
      | some .idle, client :: tasks =>
          some ({ s with tasks := tasks }.withWorker w (.reading client))
      | _, _ => none
  | .recv w r =>
      match s.workers[w]? with
      | some (.reading client) =>
          if s.mayReceive client r = true then some (s.received w client r) else none
      | _ => none
  | .call w =>
      match s.workers[w]? with
      | some (.calling client buffer size) => some (v.handle s w client buffer size)
      | _ => none
  | .settle w ok =>
      match s.workers[w]? with
      | some (.answered client ret) => some (s.settled w client ret ok)
      | _ => none
  | .finish w =>
      match s.workers[w]? with
      | some (.finishing _) => some (s.withWorker w .idle)
      | _ => none

/-- The server with any number of clients, under any scheduling. -/
def system : LabelledSystem (Server σ) Act := ⟨v.step⟩

/-- The steps of the server with the state each of them needs. -/
inductive Taken (s : Server σ) : Act → Server σ → Prop
  | sends (client : ℕ) (bytes : Bytes) :
      Taken s (.sends client bytes)
        (s.withConn client { s.conns client with sent := (s.conns client).sent ++ bytes })
  | ready (e : Event) (hloop : s.loop = .waiting) (hroom : s.events.length < v.backlog)
      (hmay : s.mayReport e = true) : Taken s (.ready e) (s.report e)
  | wake (hloop : s.loop = .waiting) : Taken s .wake { s with loop := .handling }
  | dispatch (ok : Bool) (e : Event) (events : List Event) (hloop : s.loop = .handling)
      (hevents : s.events = e :: events) :
      Taken s (.dispatch ok) ({ s with events := events }.handleEvent ok e)
  | ctl (ok : Bool) (client : ℕ) (k : Conn) (hclient : s.loop.client = some client)
      (hk : s.loop = .adding client ∧
          k = (if ok then (s.conns client).arm .input true else (s.conns client).close) ∨
        s.loop = .written client ∧ k = (s.conns client).arm .input ok) :
      Taken s (.ctl ok) { s.withConn client k with loop := .handling }
  | send (taken client : ℕ) (hloop : s.loop = .writing client) :
      Taken s (.send taken)
        { s.withConn client
            { s.conns client with wire := (s.conns client).wire ++ okBytes.take taken } with
          loop := .written client }
  | again (hloop : s.loop = .handling) (hevents : s.events = []) :
      Taken s .again { s with loop := .waiting }
  | pick (w client : ℕ) (tasks : List ℕ) (hw : s.workers[w]? = some .idle)
      (htasks : s.tasks = client :: tasks) :
      Taken s (.pick w) ({ s with tasks := tasks }.withWorker w (.reading client))
  | recv (w client : ℕ) (r : Recv) (hw : s.workers[w]? = some (.reading client))
      (hmay : s.mayReceive client r = true) : Taken s (.recv w r) (s.received w client r)
  | call (w client : ℕ) (buffer : Bytes) (size : Int)
      (hw : s.workers[w]? = some (.calling client buffer size)) :
      Taken s (.call w) (v.handle s w client buffer size)
  | settle (w client : ℕ) (ret : Int) (ok : Bool)
      (hw : s.workers[w]? = some (.answered client ret)) :
      Taken s (.settle w ok) (s.settled w client ret ok)
  | finish (w client : ℕ) (hw : s.workers[w]? = some (.finishing client)) :
      Taken s (.finish w) (s.withWorker w .idle)

theorem taken_of_step {s t : Server σ} {a : Act} (h : v.step s a = some t) : v.Taken s a t := by
  unfold step at h
  split at h
  · obtain rfl := Option.some.inj h
    exact .sends _ _
  · split at h
    · rename_i hready
      obtain rfl := Option.some.inj h
      exact .ready _ hready.1 hready.2.1 hready.2.2
    · simp at h
  · split at h
    · rename_i hloop
      obtain rfl := Option.some.inj h
      exact .wake hloop
    · simp at h
  · split at h
    · rename_i hloop hevents
      obtain rfl := Option.some.inj h
      exact .dispatch _ _ _ hloop hevents
    · simp at h
  · unfold loopCtl at h
    split at h
    · rename_i client hloop
      obtain rfl := Option.some.inj h
      exact .ctl _ client _ (by rw [hloop]; rfl) (.inl ⟨hloop, rfl⟩)
    · rename_i client hloop
      obtain rfl := Option.some.inj h
      exact .ctl _ client _ (by rw [hloop]; rfl) (.inr ⟨hloop, rfl⟩)
    · simp at h
  · split at h
    · rename_i hloop
      obtain rfl := Option.some.inj h
      exact .send _ _ hloop
    · simp at h
  · split at h
    · rename_i hloop
      obtain rfl := Option.some.inj h
      exact .again hloop.1 hloop.2
    · simp at h
  · split at h
    · rename_i hw htasks
      obtain rfl := Option.some.inj h
      exact .pick _ _ _ hw htasks
    · simp at h
  · split at h
    · rename_i hw
      split at h
      · rename_i hmay
        obtain rfl := Option.some.inj h
        exact .recv _ _ _ hw hmay
      · simp at h
    · simp at h
  · split at h
    · rename_i hw
      obtain rfl := Option.some.inj h
      exact .call _ _ _ _ hw
    · simp at h
  · split at h
    · rename_i hw
      obtain rfl := Option.some.inj h
      exact .settle _ _ _ _ hw
    · simp at h
  · split at h
    · rename_i hw
      obtain rfl := Option.some.inj h
      exact .finish _ _ hw
    · simp at h

end FlowServer

end SimpleFlow
