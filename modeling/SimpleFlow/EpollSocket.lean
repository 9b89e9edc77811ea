import SimpleFlow.FlowServer

/-!
# The event loop of `EpollSocket`, for any watcher

The loop owns a table of contexts, one for each connection, which are created
when a connection is accepted and deleted by `close_and_release`. Pool threads
and the event loop hold pointers to them at the same time. What the watcher
answers is part of the step that asks it, so the results hold for every watcher
that answers one of the documented codes of `on_writeable`.

Other threads may call `stop_epoll` at any time, and idle clients are evicted
when `set_client_max_idle_time` was called. A pointer is the `_id` of its
context, which no other context ever has; the table says whether the context
still exists.
-/

namespace SimpleFlow

/-- `_ctx_status`: 0, `CONTEXT_READING` and `CONTEXT_READ_OVER`. -/
inductive CtxStatus where
  | fresh
  | reading
  | readOver
  deriving DecidableEq, Repr

structure EpollContext where
  ctxStatus : CtxStatus
  lastInteractTime : ℕ
  deriving DecidableEq, Repr

/-- `_status` -/
inductive EpollSocketStatus where
  | run
  | rejectConn
  | stop
  deriving DecidableEq, Repr

/-- `WRITE_CONN_ALIVE`, `WRITE_CONN_CLOSE` and `WRITE_CONN_CONTINUE` -/
inductive WriteRet where
  | alive
  | close
  | again
  deriving DecidableEq, Repr

/-- Where `close_and_release` is after `remove_client`, with the lock given back:
before it reads `_clients`; before it reads `_status`, with what it has found;
before it stores `S_STOP`; before it deletes the context. -/
inductive Release where
  | counting
  | testing (empty : Bool)
  | storing
  | deleting
  deriving DecidableEq, Repr

/-- Where the event loop is: before the test of `_status`, in `epoll_wait`,
between two events, before `accept`, inside `handle_accept_event` before
`epoll_ctl`, inside `handle_writeable_event` before or after `on_writeable`,
inside `close_and_release` before or after `remove_client`, inside
`clear_idle_clients` with the clients it has yet to close, or past the loop.
Where a client is closed, the list holds the idle clients that come after it;
there is none when it is an event that closes it. -/
inductive EpollLoop where
  | checking
  | waiting
  | handling
  | accepting
  | adding (client : ℕ)
  | writing (client : ℕ)
  | written (client : ℕ) (ret : WriteRet)
  | closing (client : ℕ) (removeEvs : Option (List ℕ))
  | releasing (client : ℕ) (removeEvs : Option (List ℕ)) (r : Release)
  | evicting (removeEvs : List ℕ)
  | ended (ret : Int)
  deriving DecidableEq, Repr

/-- Where the loop goes on after `close_and_release`. -/
def EpollLoop.back : Option (List ℕ) → EpollLoop
  | none => .handling
  | some removeEvs => .evicting removeEvs

/-- Where a pool thread is: without a task, in `handle_readable_event` before
or after `on_readable`, in `close_and_release` before or after `remove_client`,
or past `handle_readable_event`, where `event.data.ptr` may be `NULL` by now. -/
inductive EpollWorker where
  | idle
  | reading (client : ℕ)
  | answered (client : ℕ) (ret : Int)
  | closing (client : ℕ)
  | releasing (client : ℕ) (r : Release)
  | finishing (client : ℕ)
  | closed
  deriving DecidableEq, Repr

/-- `contexts` is the heap, `created` is `g_client_id`, and `armed` is the epoll
set with what each connection is waited for. -/
structure Epoll where
  contexts : ℕ → Option EpollContext
  created : ℕ
  eclients : List ℕ
  clients : Int
  status : EpollSocketStatus
  armed : ℕ → Option Interest
  loop : EpollLoop
  events : List Event
  tasks : List ℕ
  workers : List EpollWorker

/-- `_max_events`, `_max_idle_sec`, the limit of the pool and its size. -/
structure EpollSocket where
  maxEvents : ℕ
  maxIdleSec : Int
  taskSizeLimit : Int
  poolSize : ℕ

namespace Epoll

/-- The socket when `start_event_loop` begins. -/
def start (v : EpollSocket) : Epoll where
  contexts := fun _ ↦ none
  created := 0
  eclients := []
  clients := 0
  status := .run
  armed := fun _ ↦ none
  loop := .checking
  events := []
  tasks := []
  workers := List.replicate v.poolSize .idle

def withContext (s : Epoll) (client : ℕ) (k : Option EpollContext) : Epoll :=
  { s with contexts := Function.update s.contexts client k }

def withArmed (s : Epoll) (client : ℕ) (i : Option Interest) : Epoll :=
  { s with armed := Function.update s.armed client i }

def withWorker (s : Epoll) (w : ℕ) (x : EpollWorker) : Epoll :=
  { s with workers := s.workers.set w x }

/-- `epoll_ctl` with one interest and `EPOLLONESHOT` -/
def rearm (s : Epoll) (client : ℕ) (i : Interest) (ok : Bool) : Epoll :=
  if ok then s.withArmed client (some i) else s

/-- What an event may say of a connection that is armed. -/
def mayReport (s : Epoll) : Event → Bool
  | .listen => true
  | .conn client epollin epollout =>
      match s.armed client with
      | none => false
      | some .input => !epollout
      | some .output => !epollin

/-- `EPOLLONESHOT`: a reported connection is not armed any more. -/
def report (s : Epoll) (e : Event) : Epoll :=
  let s := { s with events := s.events ++ [e] }
  match e with
  | .listen => s
  | .conn client _ _ => s.withArmed client none

/-- `multi_thread_handle_read_event` -/
def multiThreadHandleReadEvent (s : Epoll) (limit : Int) (client now : ℕ) : Epoll :=
  let s := s.withContext client ((s.contexts client).map fun _ ↦ ⟨.reading, now⟩)
  match Server.addTask limit s.tasks client with
  | some tasks => { s with tasks := tasks }
  | none => { s with loop := .closing client none }

/-- `update_interact_time` -/
def updateInteractTime (s : Epoll) (client now : ℕ) : Epoll :=
  s.withContext client ((s.contexts client).map fun k ↦ { k with lastInteractTime := now })

/-- The status after the test of `handle_event`. `_client_lock` keeps `_clients`
from the test to the store, and whatever `_status` becomes meanwhile is overwritten. -/
def nextStatus (s : Epoll) : EpollSocketStatus :=
  if s.clients = 0 ∧ s.status = .rejectConn then .stop else s.status

/-- `handle_accept_event` up to `epoll_ctl`; `ok` is the outcome of `accept`. -/
def handleAcceptEvent (s : Epoll) (ok : Bool) (now : ℕ) : Epoll :=
  if ok then
    let client := s.created + 1
    { s.withContext client (some ⟨.fresh, now⟩) with
      created := client
      eclients := s.eclients ++ [client]
      clients := s.clients + 1
      loop := .adding client }
  else { s with loop := .handling }

/-- `handle_event` up to `handle_accept_event` -/
def handleEvent (s : Epoll) (limit : Int) (now : ℕ) : Event → Epoll
  | .listen =>
      -- the connection is accepted whatever the status is
      { s with status := s.nextStatus, loop := .accepting }
  | .conn client epollin epollout =>
      if epollin then s.multiThreadHandleReadEvent limit client now
      else if epollout then { s.updateInteractTime client now with loop := .writing client }
      else s

/-- The `epoll_ctl` of the event loop, where there is one. -/
def loopCtl (s : Epoll) (ok : Bool) : Option Epoll :=
  match s.loop with
  | .adding client =>
      if ok then some { s.withArmed client (some .input) with loop := .handling }
      else some { s with loop := .closing client none }
  | .written client ret =>
      match ret with
      | .close => some { s with loop := .closing client none }
      | .again => some { s.rearm client .output ok with loop := .handling }
      | .alive =>
          if s.status = .rejectConn then some { s with loop := .closing client none }
          else some { s.rearm client .input ok with loop := .handling }
  | _ => none

/-- `close_and_release` up to `remove_client` -/
def unregister (s : Epoll) (client : ℕ) : Epoll :=
  { s.withArmed client none with
    eclients := s.eclients.erase client
    clients := s.clients - 1 }

/-- What `close_and_release` does next, after `remove_client`. -/
def release (s : Epoll) (client : ℕ) : Release → Epoll
  | .counting | .testing _ => s
  | .storing => { s with status := .stop }
  | .deleting => s.withContext client none

/-- Where `close_and_release` is then, if it has not returned. -/
def nextRelease (s : Epoll) : Release → Option Release
  | .counting => some (.testing (decide (s.clients = 0)))
  | .testing empty => some (if empty = true ∧ s.status = .rejectConn then .storing else .deleting)
  | .storing => some .deleting
  | .deleting => none

/-- The clients that `clear_idle_clients` takes for idle. -/
def idleClients (s : Epoll) (maxIdleSec : Int) (now : ℕ) : List ℕ :=
  s.eclients.filter fun client ↦
    match s.contexts client with
    | some k => decide ((k.lastInteractTime : Int) ≤ now - maxIdleSec ∧ k.ctxStatus ≠ .reading)
    | none => false

/-- `handle_readable_event` after `on_readable` has answered `ret` -/
def settled (s : Epoll) (w client : ℕ) (ret : Int) (ok : Bool) : Epoll :=
  if ret = readClose then s.withWorker w (.closing client)
  else
    let s := s.withWorker w (.finishing client)
    if ret = readContinue then s.rearm client .input ok
    else if ret = readOver then s.rearm client .output ok
    else s

end Epoll

namespace EpollSocket

/-- The loop tests `_status`; `epoll_wait` stores an event, returns, or fails;
the loop handles the next event, accepts a connection, calls `epoll_ctl`, asks
`on_writeable`, goes on in `close_and_release`, looks for idle clients, and takes
the next one of them. Any thread may call `stop_epoll`. A pool thread takes a task, asks
`on_readable`, acts on the answer, goes on in `close_and_release`, and ends its
task. -/
inductive Act where
  | check
  | ready (e : Event)
  | wake
  | failed (eintr : Bool)
  | dispatch (now : ℕ)
  | accept (ok : Bool) (now : ℕ)
  | ctl (ok : Bool)
  | write (ret : WriteRet)
  | close
  | release
  | sweep (now : ℕ)
  | evict
  | stop
  | pick (w : ℕ)
  | read (w : ℕ) (ret : Int)
  | settle (w : ℕ) (ok : Bool)
  | workerClose (w : ℕ)
  | workerRelease (w : ℕ)
  | finish (w : ℕ)
  deriving DecidableEq, Repr

open Epoll

variable (v : EpollSocket)

/-- `clear_idle_clients` up to its `unlock` -/
def clearIdleClients (s : Epoll) (now : ℕ) : Epoll :=
  if v.maxIdleSec ≤ 0 then { s with loop := .checking }
  else { s with loop := .evicting (s.idleClients v.maxIdleSec now) }

/-- The next step of the event loop. -/
def loopStep (s : Epoll) : Act → Option Epoll
  | .check =>
      if s.loop = .checking then
        some { s with loop := if s.status = .stop then .ended 0 else .waiting }
      else none
  | .ready e =>
      if s.loop = .waiting ∧ s.events.length < v.maxEvents ∧ s.mayReport e = true then
        some (s.report e)
      else none
  | .wake => if s.loop = .waiting then some { s with loop := .handling } else none
  | .failed eintr =>
      if s.loop = .waiting ∧ s.events = [] then
        some { s with loop := if eintr then .checking else .ended (-1) }
      else none
  | .dispatch now =>
      match s.loop, s.events with
      | .handling, e :: events =>
          some ({ s with events := events }.handleEvent v.taskSizeLimit now e)
      | _, _ => none
  | .accept ok now => if s.loop = .accepting then some (s.handleAcceptEvent ok now) else none
  | .ctl ok => s.loopCtl ok
  | .write ret =>
      match s.loop with
      | .writing client => some { s with loop := .written client ret }
      | _ => none
  | .close =>
      match s.loop with
      | .closing client removeEvs =>
          some { s.unregister client with loop := .releasing client removeEvs .counting }
      | _ => none
  | .release =>
      match s.loop with
      | .releasing client removeEvs r =>
          match s.nextRelease r with
          | some r' => some { s.release client r with loop := .releasing client removeEvs r' }
          | none => some { s.release client r with loop := EpollLoop.back removeEvs }
      | _ => none
  | .sweep now =>
      if s.loop = .handling ∧ s.events = [] then some (v.clearIdleClients s now) else none
  | .evict =>
      match s.loop with
      | .evicting [] => some { s with loop := .checking }
      | .evicting (client :: removeEvs) => some { s with loop := .closing client (some removeEvs) }
      | _ => none
  | _ => none

/-- The next step of the pool thread `w`. -/
def workerStep (s : Epoll) (w : ℕ) (x : EpollWorker) : Act → Option Epoll
  | .pick _ =>
      match x, s.tasks with
      | .idle, client :: tasks => some ({ s with tasks := tasks }.withWorker w (.reading client))
      | _, _ => none
  | .read _ ret =>
      match x with
      | .reading client => some (s.withWorker w (.answered client ret))
      | _ => none
  | .settle _ ok =>
      match x with
      | .answered client ret => some (s.settled w client ret ok)
      | _ => none
  | .workerClose _ =>
      match x with
      | .closing client => some ((s.unregister client).withWorker w (.releasing client .counting))
      | _ => none
  | .workerRelease _ =>
      match x with
      | .releasing client r =>
          match s.nextRelease r with
          | some r' => some ((s.release client r).withWorker w (.releasing client r'))
          | none => some ((s.release client r).withWorker w .closed)
      | _ => none
  | .finish _ =>
      match x with
      | .finishing client =>
          -- `read_func` writes through `event.data.ptr`
          some ((s.withContext client ((s.contexts client).map fun k ↦
            { k with ctxStatus := .readOver })).withWorker w .idle)
      | .closed => some (s.withWorker w .idle)
      | _ => none
  | _ => none

def Act.worker : Act → Option ℕ
  | .pick w | .read w _ | .settle w _ | .workerClose w | .workerRelease w | .finish w => some w
  | _ => none

/-- One step of the event loop, of a pool thread, or of whoever stops the
socket. -/
def step (s : Epoll) (a : Act) : Option Epoll :=
  match a with
  | .stop => some { s with status := .rejectConn }
  | a =>
      match a.worker with
      | none => v.loopStep s a
      | some w =>
          match s.workers[w]? with
          | some x => workerStep s w x a
          | none => none

/-- The socket under any scheduling. -/
def system : LabelledSystem Epoll Act := ⟨v.step⟩

/-! ## The steps with what each of them needs -/

/-- The epoll set after a connection is armed or not. -/
def ArmedNext (s : Epoll) (client : ℕ) (armed : ℕ → Option Interest) : Prop :=
  armed = s.armed ∨ ∃ i, armed = Function.update s.armed client (some i)

inductive Taken (s : Epoll) : Act → Epoll → Prop
  | check (hloop : s.loop = .checking) :
      Taken s .check { s with loop := if s.status = .stop then .ended 0 else .waiting }
  | ready (e : Event) (hloop : s.loop = .waiting) (hroom : s.events.length < v.maxEvents)
      (hmay : s.mayReport e = true) : Taken s (.ready e) (s.report e)
  | wake (hloop : s.loop = .waiting) : Taken s .wake { s with loop := .handling }
  | failed (eintr : Bool) (hloop : s.loop = .waiting) (hevents : s.events = []) :
      Taken s (.failed eintr) { s with loop := if eintr then .checking else .ended (-1) }
  | knock (now : ℕ) (events : List Event) (hloop : s.loop = .handling)
      (hevents : s.events = .listen :: events) :
      Taken s (.dispatch now)
        { s with events := events, status := s.nextStatus, loop := .accepting }
  | refuse (now : ℕ) (hloop : s.loop = .accepting) :
      Taken s (.accept false now) { s with loop := .handling }
  | accept (now : ℕ) (hloop : s.loop = .accepting) :
      Taken s (.accept true now)
        { s.withContext (s.created + 1) (some ⟨.fresh, now⟩) with
          created := s.created + 1
          eclients := s.eclients ++ [s.created + 1]
          clients := s.clients + 1
          loop := .adding (s.created + 1) }
  | task (now client : ℕ) (epollout : Bool) (events : List Event)
      (hloop : s.loop = .handling) (hevents : s.events = .conn client true epollout :: events) :
      Taken s (.dispatch now)
        { s.withContext client ((s.contexts client).map fun _ ↦ ⟨.reading, now⟩) with
          tasks := s.tasks ++ [client]
          events := events }
  | full (now client : ℕ) (epollout : Bool) (events : List Event)
      (hloop : s.loop = .handling) (hevents : s.events = .conn client true epollout :: events) :
      Taken s (.dispatch now)
        { s.withContext client ((s.contexts client).map fun _ ↦ ⟨.reading, now⟩) with
          loop := .closing client none
          events := events }
  | writeable (now client : ℕ) (events : List Event) (hloop : s.loop = .handling)
      (hevents : s.events = .conn client false true :: events) :
      Taken s (.dispatch now)
        { s.updateInteractTime client now with loop := .writing client, events := events }
  | skip (now client : ℕ) (events : List Event) (hloop : s.loop = .handling)
      (hevents : s.events = .conn client false false :: events) :
      Taken s (.dispatch now) { s with events := events }
  | ctl (ok : Bool) (client : ℕ) {armed : ℕ → Option Interest}
      (hloop : s.loop = .adding client ∨ ∃ ret, s.loop = .written client ret)
      (harmed : ArmedNext s client armed) :
      Taken s (.ctl ok) { s with armed := armed, loop := .handling }
  | ctlClose (ok : Bool) (client : ℕ)
      (hloop : s.loop = .adding client ∨ ∃ ret, s.loop = .written client ret) :
      Taken s (.ctl ok) { s with loop := .closing client none }
  | write (ret : WriteRet) (client : ℕ) (hloop : s.loop = .writing client) :
      Taken s (.write ret) { s with loop := .written client ret }
  | close (client : ℕ) (removeEvs : Option (List ℕ)) (hloop : s.loop = .closing client removeEvs) :
      Taken s .close { s.unregister client with loop := .releasing client removeEvs .counting }
  | test (client : ℕ) (removeEvs : Option (List ℕ)) (r r' : Release)
      (hloop : s.loop = .releasing client removeEvs r) (hnext : s.nextRelease r = some r') :
      Taken s .release
        { s with
          status := if r = .storing then .stop else s.status
          loop := .releasing client removeEvs r' }
  | release (client : ℕ) (removeEvs : Option (List ℕ))
      (hloop : s.loop = .releasing client removeEvs .deleting) :
      Taken s .release { s.withContext client none with loop := EpollLoop.back removeEvs }
  | sweep (now : ℕ) (hloop : s.loop = .handling) (hevents : s.events = []) :
      Taken s (.sweep now) (v.clearIdleClients s now)
  | evict (client : ℕ) (removeEvs : List ℕ) (hloop : s.loop = .evicting (client :: removeEvs)) :
      Taken s .evict { s with loop := .closing client (some removeEvs) }
  | evicted (hloop : s.loop = .evicting []) : Taken s .evict { s with loop := .checking }
  | stop : Taken s .stop { s with status := .rejectConn }
  | pick (w client : ℕ) (tasks : List ℕ) (hw : s.workers[w]? = some .idle)
      (htasks : s.tasks = client :: tasks) :
      Taken s (.pick w) ({ s with tasks := tasks }.withWorker w (.reading client))
  | read (w client : ℕ) (ret : Int) (hw : s.workers[w]? = some (.reading client)) :
      Taken s (.read w ret) (s.withWorker w (.answered client ret))
  | settleClose (w client : ℕ) (ok : Bool) (ret : Int)
      (hw : s.workers[w]? = some (.answered client ret)) :
      Taken s (.settle w ok) (s.withWorker w (.closing client))
  | settle (w client : ℕ) (ok : Bool) (ret : Int) {armed : ℕ → Option Interest}
      (hw : s.workers[w]? = some (.answered client ret)) (harmed : ArmedNext s client armed) :
      Taken s (.settle w ok) { s.withWorker w (.finishing client) with armed := armed }
  | workerClose (w client : ℕ) (hw : s.workers[w]? = some (.closing client)) :
      Taken s (.workerClose w) ((s.unregister client).withWorker w (.releasing client .counting))
  | workerTest (w client : ℕ) (r r' : Release) (hw : s.workers[w]? = some (.releasing client r))
      (hnext : s.nextRelease r = some r') :
      Taken s (.workerRelease w)
        { s.withWorker w (.releasing client r') with
          status := if r = .storing then .stop else s.status }
  | workerRelease (w client : ℕ) (hw : s.workers[w]? = some (.releasing client .deleting)) :
      Taken s (.workerRelease w) ((s.withContext client none).withWorker w .closed)
  | finish (w client : ℕ) (hw : s.workers[w]? = some (.finishing client)) :
      Taken s (.finish w)
        ((s.withContext client ((s.contexts client).map fun k ↦
          { k with ctxStatus := .readOver })).withWorker w .idle)
  | finishClosed (w : ℕ) (hw : s.workers[w]? = some .closed) :
      Taken s (.finish w) (s.withWorker w .idle)

theorem taken_of_dispatch {s : Epoll} {now : ℕ} {e : Event} {events : List Event}
    (hloop : s.loop = .handling) (hevents : s.events = e :: events) :
    v.Taken s (.dispatch now)
      ({ s with events := events }.handleEvent v.taskSizeLimit now e) := by
  cases e with
  | listen => exact .knock now events hloop hevents
  | conn client epollin epollout =>
      cases epollin with
      | true =>
          cases hadd : Server.addTask v.taskSizeLimit s.tasks client with
          | none =>
              simp only [handleEvent, multiThreadHandleReadEvent, withContext, if_true, hadd]
              exact .full now client epollout events hloop hevents
          | some tasks =>
              obtain rfl : s.tasks ++ [client] = tasks := by
                unfold Server.addTask at hadd
                split at hadd
                · cases hadd
                · exact Option.some.inj hadd
              simp only [handleEvent, multiThreadHandleReadEvent, withContext, if_true, hadd]
              exact .task now client epollout events hloop hevents
      | false =>
          cases epollout with
          | true => exact .writeable now client events hloop hevents
          | false => exact .skip now client events hloop hevents

theorem taken_of_accept {s : Epoll} {ok : Bool} {now : ℕ} (hloop : s.loop = .accepting) :
    v.Taken s (.accept ok now) (s.handleAcceptEvent ok now) := by
  cases ok with
  | false => exact .refuse now hloop
  | true => exact .accept now hloop

/-- All but the last step of `close_and_release` leave the context alone. -/
theorem release_of_next {s : Epoll} {client : ℕ} {r r' : Release}
    (hnext : s.nextRelease r = some r') :
    s.release client r = { s with status := if r = .storing then .stop else s.status } := by
  cases r with
  | deleting => cases hnext
  | counting | testing empty | storing => rfl

theorem eq_deleting_of_next {s : Epoll} {r : Release} (hnext : s.nextRelease r = none) :
    r = .deleting := by
  cases r with
  | deleting => rfl
  | counting | testing empty | storing => cases hnext

theorem taken_of_release {s t : Epoll} (h : v.loopStep s .release = some t) :
    v.Taken s .release t := by
  simp only [loopStep] at h
  split at h
  · rename_i client removeEvs r hloop
    split at h
    · rename_i r' hnext
      obtain rfl := Option.some.inj h
      rw [release_of_next hnext]
      exact .test client removeEvs r r' hloop hnext
    · rename_i hnext
      obtain rfl := Option.some.inj h
      obtain rfl := eq_deleting_of_next hnext
      exact .release client removeEvs hloop
  · cases h

theorem taken_of_workerRelease {s t : Epoll} {w : ℕ} {x : EpollWorker}
    (hw : s.workers[w]? = some x) (h : workerStep s w x (.workerRelease w) = some t) :
    v.Taken s (.workerRelease w) t := by
  simp only [workerStep] at h
  split at h
  · rename_i client r
    split at h
    · rename_i r' hnext
      obtain rfl := Option.some.inj h
      rw [release_of_next hnext]
      exact .workerTest w client r r' hw hnext
    · rename_i hnext
      obtain rfl := Option.some.inj h
      obtain rfl := eq_deleting_of_next hnext
      exact .workerRelease w client hw
  · cases h

theorem taken_of_ctl {s t : Epoll} {ok : Bool} (h : s.loopCtl ok = some t) :
    v.Taken s (.ctl ok) t := by
  have hrearm : ∀ client i, ArmedNext s client (s.rearm client i ok).armed := by
    intro client i
    cases ok with
    | false => exact .inl rfl
    | true => exact .inr ⟨i, rfl⟩
  have hsame : ∀ client i, ({ s.rearm client i ok with loop := .handling } : Epoll) =
      { s with armed := (s.rearm client i ok).armed, loop := .handling } := by
    intro client i
    cases ok <;> rfl
  unfold loopCtl at h
  split at h
  · rename_i client hloop
    split at h
    · obtain rfl := Option.some.inj h
      exact .ctl ok client (.inl hloop) (.inr ⟨.input, rfl⟩)
    · obtain rfl := Option.some.inj h
      exact .ctlClose ok client (.inl hloop)
  · rename_i client ret hloop
    cases ret with
    | close =>
        obtain rfl := Option.some.inj h
        exact .ctlClose ok client (.inr ⟨_, hloop⟩)
    | again =>
        obtain rfl := Option.some.inj h
        rw [hsame]
        exact .ctl ok client (.inr ⟨_, hloop⟩) (hrearm client .output)
    | alive =>
        simp only at h
        split at h
        · obtain rfl := Option.some.inj h
          exact .ctlClose ok client (.inr ⟨_, hloop⟩)
        · obtain rfl := Option.some.inj h
          rw [hsame]
          exact .ctl ok client (.inr ⟨_, hloop⟩) (hrearm client .input)
  · cases h

theorem taken_of_settle {s : Epoll} {w client : ℕ} {ret : Int} {ok : Bool}
    (hw : s.workers[w]? = some (.answered client ret)) :
    v.Taken s (.settle w ok) (s.settled w client ret ok) := by
  unfold settled
  split
  · exact .settleClose w client ok ret hw
  · have hrearm : ∀ i, v.Taken s (.settle w ok)
        ((s.withWorker w (.finishing client)).rearm client i ok) := by
      intro i
      cases ok with
      | false => exact .settle w client false ret hw (.inl rfl)
      | true => exact .settle w client true ret hw (.inr ⟨i, rfl⟩)
    simp only
    split
    · exact hrearm .input
    · split
      · exact hrearm .output
      · exact .settle w client ok ret hw (.inl rfl)

theorem taken_of_loopStep {s t : Epoll} {a : Act} (h : v.loopStep s a = some t) :
    v.Taken s a t := by
  by_cases hrelease : a = .release
  · subst hrelease
    exact v.taken_of_release h
  unfold loopStep at h
  split at h
  · split at h
    · rename_i hloop
      obtain rfl := Option.some.inj h
      exact .check hloop
    · cases h
  · split at h
    · rename_i hready
      obtain rfl := Option.some.inj h
      exact .ready _ hready.1 hready.2.1 hready.2.2
    · cases h
  · split at h
    · rename_i hloop
      obtain rfl := Option.some.inj h
      exact .wake hloop
    · cases h
  · split at h
    · rename_i hfailed
      obtain rfl := Option.some.inj h
      exact .failed _ hfailed.1 hfailed.2
    · cases h
  · split at h
    · rename_i hloop hevents
      obtain rfl := Option.some.inj h
      exact v.taken_of_dispatch hloop hevents
    · cases h
  · split at h
    · rename_i hloop
      obtain rfl := Option.some.inj h
      exact v.taken_of_accept hloop
    · cases h
  · exact v.taken_of_ctl h
  · split at h
    · rename_i hloop
      obtain rfl := Option.some.inj h
      exact .write _ _ hloop
    · cases h
  · split at h
    · rename_i hloop
      obtain rfl := Option.some.inj h
      exact .close _ _ hloop
    · cases h
  · exact absurd rfl hrelease
  · split at h
    · rename_i hsweep
      obtain rfl := Option.some.inj h
      exact .sweep _ hsweep.1 hsweep.2
    · cases h
  · split at h
    · rename_i hloop
      obtain rfl := Option.some.inj h
      exact .evicted hloop
    · rename_i hloop
      obtain rfl := Option.some.inj h
      exact .evict _ _ hloop
    · cases h
  · cases h

theorem taken_of_workerStep {s t : Epoll} {a : Act} {w : ℕ} {x : EpollWorker}
    (hworker : a.worker = some w) (hw : s.workers[w]? = some x) (h : workerStep s w x a = some t) :
    v.Taken s a t := by
  by_cases hrelease : a = .workerRelease w
  · subst hrelease
    exact v.taken_of_workerRelease hw h
  unfold workerStep at h
  split at h
  all_goals try cases hworker
  · split at h
    · rename_i htasks
      obtain rfl := Option.some.inj h
      exact .pick _ _ _ hw htasks
    · cases h
  · split at h
    · obtain rfl := Option.some.inj h
      exact .read _ _ _ hw
    · cases h
  · split at h
    · obtain rfl := Option.some.inj h
      exact v.taken_of_settle hw
    · cases h
  · split at h
    · obtain rfl := Option.some.inj h
      exact .workerClose _ _ hw
    · cases h
  · exact absurd rfl hrelease
  · split at h
    · obtain rfl := Option.some.inj h
      exact .finish _ _ hw
    · obtain rfl := Option.some.inj h
      exact .finishClosed _ hw
    · cases h
  · cases h

theorem taken_of_step {s t : Epoll} {a : Act} (h : v.system.step s a = some t) :
    v.Taken s a t := by
  simp only [system, step] at h
  split at h
  · obtain rfl := Option.some.inj h
    exact .stop
  · split at h
    · exact v.taken_of_loopStep h
    · rename_i w hworker
      split at h
      · rename_i x hw
        exact v.taken_of_workerStep hworker hw h
      · cases h

end EpollSocket

end SimpleFlow
