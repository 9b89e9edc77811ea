import SimpleFlow.EpollSafety
import SimpleFlow.Library.Simulation

/-!
# The flow server runs on `EpollSocket`

A step of the flow server is a run of the socket that `FlowServer::start` sets
up: idle clients are never evicted, `stop_epoll` is never called, and
`FlowEpollWatcher` answers `WRITE_CONN_ALIVE` to every write. What holds along
every run of the socket so holds of the server with any handler.
-/

namespace SimpleFlow

/-- The socket of the server. -/
def FlowServer.epoll {σ : Type} (v : FlowServer σ) : EpollSocket :=
  ⟨v.backlog, 0, taskSizeLimit, v.coreSize⟩

def LoopPc.epoll : LoopPc → EpollLoop
  | .waiting => .waiting
  | .handling => .handling
  | .adding client => .adding client
  | .writing client => .writing client
  | .written client => .written client .alive

/-- A thread of the server and the same thread of the socket, which knows
whether `event.data.ptr` is `NULL`, but not how far `on_readable` has come. -/
inductive Worker.Same : Worker → EpollWorker → Prop
  | idle : Same .idle .idle
  | reading (client : ℕ) : Same (.reading client) (.reading client)
  | calling (client : ℕ) (buffer : Bytes) (size : Int) :
      Same (.calling client buffer size) (.reading client)
  | answered (client : ℕ) (ret : Int) : Same (.answered client ret) (.answered client ret)
  | finishing (client : ℕ) : Same (.finishing client) (.finishing client)
  | closed (client : ℕ) : Same (.finishing client) .closed
  | faulted (client : ℕ) (f : Fault) : Same (.faulted client f) (.reading client)

namespace Server

variable {σ : Type}

/-- The server and its socket. -/
structure Runs (s : Server σ) (u : Epoll) : Prop where
  placed : u.Placed
  created : u.created = s.accepted
  status : u.status = .run
  loop : u.loop = s.loop.epoll
  events : u.events = s.events
  tasks : u.tasks = s.tasks
  armed : ∀ c, u.armed c = (s.conns c).armed
  registered : ∀ c, c ∈ u.eclients ↔ (s.conns c).registered = true
  workers : ∀ w : ℕ, Option.Rel Worker.Same s.workers[w]? u.workers[w]?

/-- The steps of the socket that make up a step of the server. -/
def epollActs (v : FlowServer σ) (s : Server σ) : Act → List EpollSocket.Act
  | .sends _ _ => []
  | .ready e => [.ready e]
  | .wake => [.wake]
  | .dispatch ok =>
      match s.events with
      | .listen :: _ => [.dispatch 0, .accept ok 0]
      | _ => [.dispatch 0]
  | .ctl ok =>
      match s.loop, ok with
      | .adding _, false => [.ctl false, .close, .release, .release, .release]
      | _, _ => [.ctl ok]
  | .send _ => [.write .alive]
  | .again => [.sweep 0, .check]
  | .pick w => [.pick w]
  | .recv w r =>
      match onReadable r with
      | .answer ret => [.read w ret]
      | .call _ _ => []
  | .call w =>
      match s.workers[w]? with
      | some (.calling _ buffer size) =>
          match v.flowHandler.doHandle s.handler buffer size with
          | .ok (ret, _) => [.read w ret]
          | .error _ => []
      | _ => []
  | .settle w ok =>
      match s.workers[w]? with
      | some (.answered _ ret) =>
          if ret = readClose then
            [.settle w ok, .workerClose w, .workerRelease w, .workerRelease w, .workerRelease w]
          else [.settle w ok]
      | _ => []
  | .finish w => [.finish w]

variable {v : FlowServer σ} {s t : Server σ} {u u' : Epoll} {w client : ℕ}

theorem Runs.worker {x : Worker} (h : s.Runs u) (hw : s.workers[w]? = some x) :
    ∃ y, u.workers[w]? = some y ∧ x.Same y := by
  have hrel := h.workers w
  rw [hw] at hrel
  cases hu : u.workers[w]? with
  | none =>
      rw [hu] at hrel
      cases hrel
  | some y =>
      rw [hu] at hrel
      cases hrel with
      | some hsame => exact ⟨y, rfl, hsame⟩

theorem Runs.workers_set {x x' : Worker} {y y' : EpollWorker} (h : s.Runs u)
    (hx : s.workers[w]? = some x) (hy : u.workers[w]? = some y) (hsame : x'.Same y') (j : ℕ) :
    Option.Rel Worker.Same (s.workers.set w x')[j]? (u.workers.set w y')[j]? := by
  rw [Slots.set_getElem? hx, Slots.set_getElem? hy]
  split
  · exact .some hsame
  · exact h.workers j

theorem placed_of_epoll {as : List EpollSocket.Act} (h : u.Placed)
    (hrun : v.epoll.system.exec u as = some u') : u'.Placed :=
  LabelledSystem.exec_invariant
    (fun _ _ _ h hstep ↦ h.taken (.inl (Int.le_refl 0)) (v.epoll.taken_of_step hstep)) h hrun

theorem exec_singleton {a : EpollSocket.Act} (hstep : v.epoll.step u a = some u') :
    v.epoll.system.exec u [a] = some u' := by
  simp [LabelledSystem.exec, EpollSocket.system, hstep]

theorem exec_cons_of_step {a : EpollSocket.Act} {as : List EpollSocket.Act} {t t' : Epoll}
    (hstep : v.epoll.step u a = some t) (hrun : v.epoll.system.exec t as = some t') :
    v.epoll.system.exec u (a :: as) = some t' := by
  rw [LabelledSystem.exec_cons]
  simp [EpollSocket.system, hstep] at hrun ⊢
  exact hrun

theorem conns_withConn (k : Conn) (c : ℕ) :
    (s.withConn client k).conns c = if c = client then k else s.conns c := by
  simp [withConn, Function.update_apply]

/-- A step that leaves the connections of the socket as they are. -/
theorem Runs.withConn (client : ℕ) {k : Conn} (h : s.Runs u)
    (harmed : k.armed = (s.conns client).armed)
    (hregistered : k.registered = (s.conns client).registered) : (s.withConn client k).Runs u := by
  refine ⟨h.placed, h.created, h.status, h.loop, h.events, h.tasks, ?_, ?_, h.workers⟩
  · intro c
    rw [conns_withConn, h.armed c]
    split
    · rename_i hc
      rw [hc, harmed]
    · rfl
  · intro c
    rw [conns_withConn, h.registered c]
    split
    · rename_i hc
      rw [hc, hregistered]
    · rfl

theorem runs_ready {e : Event} (h : s.Runs u) (hloop : s.loop = .waiting)
    (hroom : s.events.length < v.backlog) (hmay : s.mayReport e = true) :
    ∃ u', v.epoll.system.exec u [.ready e] = some u' ∧ (s.report e).Runs u' := by
  have hwaiting : u.loop = .waiting := by rw [h.loop, hloop]; rfl
  have hmay' : u.mayReport e = true := by
    cases e with
    | listen => rfl
    | conn client epollin epollout =>
        simp only [Epoll.mayReport, mayReport, h.armed client] at hmay ⊢
        cases ha : (s.conns client).armed with
        | none => simp [ha] at hmay
        | some i => cases i <;> simpa [ha] using hmay
  have hrun : v.epoll.system.exec u [.ready e] = some (u.report e) := by
    apply exec_singleton
    simp [EpollSocket.step, EpollSocket.Act.worker, EpollSocket.loopStep, hwaiting, h.events, hmay',
      FlowServer.epoll, hroom]
  refine ⟨_, hrun, ?_⟩
  have hplaced := placed_of_epoll h.placed hrun
  cases e with
  | listen =>
      exact ⟨hplaced, h.created, h.status, h.loop, by simp [Epoll.report, report, h.events],
        h.tasks, h.armed, h.registered, h.workers⟩
  | conn client epollin epollout =>
      refine ⟨hplaced, h.created, h.status, h.loop,
        by simp [Epoll.report, Epoll.withArmed, report, Server.withConn, h.events], h.tasks, ?_, ?_,
        h.workers⟩
      · intro c
        by_cases hc : c = client <;>
          simp [Epoll.report, Epoll.withArmed, report, Server.withConn, hc, h.armed c]
      · intro c
        rw [show (u.report (.conn client epollin epollout)).eclients = u.eclients from rfl,
          h.registered c]
        by_cases hc : c = client <;> simp [report, Server.withConn, hc]

theorem runs_listen {ok : Bool} {events : List Event} (h : s.Runs u)
    (hloop : s.loop = .handling) (hevents : s.events = .listen :: events) :
    ∃ u', v.epoll.system.exec u [.dispatch 0, .accept ok 0] = some u' ∧
      ({ s with events := events }.handleEvent ok .listen).Runs u' := by
  have hhandling : u.loop = .handling := by rw [h.loop, hloop]; rfl
  have hhead : u.events = .listen :: events := by rw [h.events, hevents]
  let accepting : Epoll := { u with events := events, status := u.nextStatus, loop := .accepting }
  have hrun : v.epoll.system.exec u [.dispatch 0, .accept ok 0] =
      some (accepting.handleAcceptEvent ok 0) := by
    refine exec_cons_of_step (t := accepting) ?_ (exec_singleton rfl)
    simp [EpollSocket.step, EpollSocket.Act.worker, EpollSocket.loopStep, hhandling, hhead,
      Epoll.handleEvent, Epoll.nextStatus, accepting]
  refine ⟨_, hrun, ?_⟩
  have hplaced := placed_of_epoll h.placed hrun
  have hstay : u.nextStatus = .run := by simp [Epoll.nextStatus, h.status]
  have hwaits : EpollLoop.handling = s.loop.epoll := by rw [hloop]; rfl
  cases ok with
  | false =>
      exact ⟨hplaced, h.created, hstay, hwaits, rfl, h.tasks, h.armed, h.registered, h.workers⟩
  | true =>
      refine ⟨hplaced, by simp [Epoll.handleAcceptEvent, handleEvent, accepting, h.created],
        hstay, ?_, rfl, h.tasks, ?_, ?_, h.workers⟩
      · simp [Epoll.handleAcceptEvent, handleEvent, LoopPc.epoll, accepting, h.created]
      · intro c
        by_cases hc : c = s.accepted + 1 <;>
          simp [Epoll.handleAcceptEvent, Epoll.withContext, handleEvent, Server.withConn, accepting,
            hc, h.armed]
      · intro c
        simp only [Epoll.handleAcceptEvent, Epoll.withContext, handleEvent, if_true,
          List.mem_append, List.mem_singleton, Server.withConn, accepting, h.created]
        by_cases hc : c = s.accepted + 1
        · simp [hc]
        · simp [hc, h.registered c]

theorem runs_dispatch {ok : Bool} {e : Event} {events : List Event} (h : s.Runs u)
    (hloop : s.loop = .handling) (hevents : s.events = e :: events) :
    ∃ u', v.epoll.system.exec u (s.epollActs v (.dispatch ok)) = some u' ∧
      ({ s with events := events }.handleEvent ok e).Runs u' := by
  cases e with
  | listen =>
      simp only [epollActs, hevents]
      exact runs_listen h hloop hevents
  | conn client epollin epollout =>
      have hhandling : u.loop = .handling := by rw [h.loop, hloop]; rfl
      have hhead : u.events = .conn client epollin epollout :: events := by rw [h.events, hevents]
      have hrun : v.epoll.system.exec u [.dispatch 0] =
          some ({ u with events := events }.handleEvent taskSizeLimit 0
            (.conn client epollin epollout)) := by
        apply exec_singleton
        simp [EpollSocket.step, EpollSocket.Act.worker, EpollSocket.loopStep, hhandling, hhead,
          FlowServer.epoll]
      simp only [epollActs, hevents]
      refine ⟨_, hrun, ?_⟩
      have hplaced := placed_of_epoll h.placed hrun
      cases epollin with
      | true =>
          have hadd : ∀ tasks,
              Server.addTask taskSizeLimit tasks client = some (tasks ++ [client]) :=
            fun tasks ↦ if_neg (by simp [taskSizeLimit])
          simp only [Epoll.handleEvent, Epoll.multiThreadHandleReadEvent, handleEvent, if_true,
            Epoll.withContext, hadd] at hplaced ⊢
          exact ⟨hplaced, h.created, h.status, h.loop, rfl, by simp [h.tasks], h.armed,
            h.registered, h.workers⟩
      | false =>
          cases epollout with
          | true =>
              exact ⟨hplaced, h.created, h.status, rfl, rfl, h.tasks, h.armed, h.registered,
                h.workers⟩
          | false =>
              exact ⟨hplaced, h.created, h.status, h.loop, rfl, h.tasks, h.armed, h.registered,
                h.workers⟩

theorem not_mem_erase_of_placed {c : ℕ} (h : u.Placed) : c ∉ u.eclients.erase c := by
  intro hmem
  have hcount : 0 < (u.eclients.erase c).count c := List.count_pos_iff.mpr hmem
  have hlive := (h.sound c).live
  have hone := (h.sound c).one
  have htoken : (u.life c).tokens .registered = u.eclients.count c := rfl
  rw [List.count_erase_self] at hcount
  omega

/-- The connection is closed on both sides. -/
theorem registered_erase (h : s.Runs u) (client c : ℕ) :
    c ∈ u.eclients.erase client ↔
      ((s.withConn client (s.conns client).close).conns c).registered = true := by
  rw [conns_withConn]
  split
  · rename_i hc
    subst hc
    simp [Conn.close, not_mem_erase_of_placed h.placed]
  · rename_i hc
    rw [List.mem_erase_of_ne hc, h.registered c]

theorem armed_close (h : s.Runs u) (client c : ℕ) :
    Function.update u.armed client none c =
      ((s.withConn client (s.conns client).close).conns c).armed := by
  rw [conns_withConn, Function.update_apply]
  split
  · rfl
  · exact h.armed c

theorem armed_arm (h : s.Runs u) (client c : ℕ) (i : Interest) (ok : Bool) :
    (u.rearm client i ok).armed c =
      ((s.withConn client ((s.conns client).arm i ok)).conns c).armed := by
  rw [conns_withConn]
  cases ok with
  | false =>
      split
      · rename_i hc
        simpa [Epoll.rearm, hc] using h.armed client
      · exact h.armed c
  | true =>
      simp only [Epoll.rearm, Epoll.withArmed, if_true, Function.update_apply]
      split
      · rfl
      · exact h.armed c

theorem registered_arm (h : s.Runs u) (client c : ℕ) (i : Interest) (ok : Bool) :
    c ∈ u.eclients ↔
      ((s.withConn client ((s.conns client).arm i ok)).conns c).registered = true := by
  rw [conns_withConn, h.registered c]
  split
  · rename_i hc
    simp [hc]
  · rfl

/-- The connection is armed on both sides. -/
theorem runs_rearm {i : Interest} {ok : Bool} (h : s.Runs u)
    (hplaced : (u.rearm client i ok).Placed) :
    (s.withConn client ((s.conns client).arm i ok)).Runs (u.rearm client i ok) := by
  have harmed := fun c ↦ armed_arm h client c i ok
  have hregistered := fun c ↦ registered_arm h client c i ok
  cases ok <;>
    exact ⟨hplaced, h.created, h.status, h.loop, h.events, h.tasks, harmed, hregistered, h.workers⟩

theorem withWorker_self {x : EpollWorker} (y : EpollWorker) (hx : u.workers[w]? = some x) :
    (u.withWorker w y).workers[w]? = some y :=
  Slots.set_getElem?_self hx y

/-- `close_and_release` after `remove_client`, where nobody has called `stop_epoll`. -/
theorem exec_release (hstatus : u.status = .run)
    (hloop : u.loop = .releasing client none .counting) :
    v.epoll.system.exec u [.release, .release, .release] =
      some { u.withContext client none with loop := .handling } := by
  let testing : Epoll :=
    { u with loop := .releasing client none (.testing (decide (u.clients = 0))) }
  let deleting : Epoll := { u with loop := .releasing client none .deleting }
  refine exec_cons_of_step (t := testing) ?_
    (exec_cons_of_step (t := deleting) ?_ (exec_singleton rfl))
  · simp [EpollSocket.step, EpollSocket.Act.worker, EpollSocket.loopStep, hloop, Epoll.release,
      Epoll.nextRelease, testing]
  · simp [EpollSocket.step, EpollSocket.Act.worker, EpollSocket.loopStep, hstatus, Epoll.release,
      Epoll.nextRelease, testing, deleting]

theorem exec_workerRelease (hstatus : u.status = .run)
    (hw : u.workers[w]? = some (.releasing client .counting)) :
    v.epoll.system.exec u [.workerRelease w, .workerRelease w, .workerRelease w] =
      some ((u.withContext client none).withWorker w .closed) := by
  let testing := u.withWorker w (.releasing client (.testing (decide (u.clients = 0))))
  let deleting := testing.withWorker w (.releasing client .deleting)
  have htesting := withWorker_self (.releasing client (.testing (decide (u.clients = 0)))) hw
  have hdeleting := withWorker_self (.releasing client .deleting) htesting
  have hstatus' : testing.status = .run := hstatus
  have hend : (deleting.withContext client none).withWorker w .closed =
      (u.withContext client none).withWorker w .closed := by
    simp [deleting, testing, Epoll.withWorker, Epoll.withContext]
  rw [← hend]
  refine exec_cons_of_step (t := testing) ?_
    (exec_cons_of_step (t := deleting) ?_ (exec_singleton ?_))
  · simp [EpollSocket.step, EpollSocket.Act.worker, EpollSocket.workerStep, hw, Epoll.release,
      Epoll.nextRelease, testing]
  · simp [EpollSocket.step, EpollSocket.Act.worker, EpollSocket.workerStep, htesting, hstatus',
      Epoll.release, Epoll.nextRelease, testing, deleting]
  · simp [EpollSocket.step, EpollSocket.Act.worker, EpollSocket.workerStep, hdeleting,
      Epoll.release, Epoll.nextRelease, testing, deleting]

theorem runs_ctl {ok : Bool} {k : Conn} (h : s.Runs u)
    (hk : s.loop = .adding client ∧
        k = (if ok then (s.conns client).arm .input true else (s.conns client).close) ∨
      s.loop = .written client ∧ k = (s.conns client).arm .input ok) :
    ∃ u', v.epoll.system.exec u (s.epollActs v (.ctl ok)) = some u' ∧
      ({ s.withConn client k with loop := .handling } : Server σ).Runs u' := by
  rcases hk with ⟨hloop, rfl⟩ | ⟨hloop, rfl⟩
  · have hadding : u.loop = .adding client := by rw [h.loop, hloop]; rfl
    cases ok with
    | true =>
        have hrun : v.epoll.system.exec u [.ctl true] =
            some { u.rearm client .input true with loop := .handling } := by
          apply exec_singleton
          simp [EpollSocket.step, EpollSocket.Act.worker, EpollSocket.loopStep, Epoll.loopCtl,
            hadding, Epoll.rearm]
        refine ⟨_, by simpa [epollActs, hloop] using hrun, ?_⟩
        exact ⟨placed_of_epoll h.placed hrun, h.created, h.status, rfl, h.events, h.tasks,
          fun c ↦ armed_arm h client c .input true, fun c ↦ registered_arm h client c .input true,
          h.workers⟩
    | false =>
        let closing : Epoll := { u with loop := .closing client none }
        let releasing : Epoll :=
          { closing.unregister client with loop := .releasing client none .counting }
        have hstatus : releasing.status = .run := h.status
        have hrun : v.epoll.system.exec u [.ctl false, .close, .release, .release, .release] =
            some { releasing.withContext client none with loop := .handling } := by
          refine exec_cons_of_step (t := closing) ?_ (exec_cons_of_step (t := releasing) rfl
            (exec_release hstatus rfl))
          simp [EpollSocket.step, EpollSocket.Act.worker, EpollSocket.loopStep, Epoll.loopCtl,
            hadding, closing]
        refine ⟨_, by simpa [epollActs, hloop] using hrun, ?_⟩
        exact ⟨placed_of_epoll h.placed hrun, h.created, hstatus, rfl, h.events, h.tasks,
          fun c ↦ armed_close h client c, fun c ↦ registered_erase h client c, h.workers⟩
  · have hwritten : u.loop = .written client .alive := by rw [h.loop, hloop]; rfl
    have hrun : v.epoll.system.exec u [.ctl ok] =
        some { u.rearm client .input ok with loop := .handling } := by
      apply exec_singleton
      simp [EpollSocket.step, EpollSocket.Act.worker, EpollSocket.loopStep, Epoll.loopCtl,
        hwritten, h.status]
    refine ⟨_, by simpa [epollActs, hloop] using hrun, ?_⟩
    have hplaced := placed_of_epoll h.placed hrun
    have harmed := fun c ↦ armed_arm h client c .input ok
    have hregistered := fun c ↦ registered_arm h client c .input ok
    cases ok <;>
      exact ⟨hplaced, h.created, h.status, rfl, h.events, h.tasks, harmed, hregistered, h.workers⟩

/-- A thread of the server goes on where the socket does not notice. -/
theorem runs_worker_same {x x' : Worker} {y : EpollWorker} (h : s.Runs u)
    (hx : s.workers[w]? = some x) (hy : u.workers[w]? = some y) (hsame : x'.Same y) :
    (s.withWorker w x').Runs u := by
  refine ⟨h.placed, h.created, h.status, h.loop, h.events, h.tasks, h.armed, h.registered, ?_⟩
  intro j
  have hset := h.workers_set hx hy hsame j
  have hback : (u.workers.set w y)[j]? = u.workers[j]? := by
    rw [Slots.set_getElem? hy]
    split
    · rename_i hj
      rw [← hj, hy]
    · rfl
  rwa [hback] at hset

/-- Both threads go on. -/
theorem runs_worker {x x' : Worker} {y y' : EpollWorker} (h : s.Runs u)
    (hplaced : (u.withWorker w y').Placed) (hx : s.workers[w]? = some x)
    (hy : u.workers[w]? = some y) (hsame : x'.Same y') :
    (s.withWorker w x').Runs (u.withWorker w y') :=
  ⟨hplaced, h.created, h.status, h.loop, h.events, h.tasks, h.armed, h.registered,
    h.workers_set hx hy hsame⟩

theorem runs_read {x : Worker} (ret : Int) (h : s.Runs u) (hx : s.workers[w]? = some x)
    (hy : u.workers[w]? = some (.reading client)) :
    ∃ u', v.epoll.system.exec u [.read w ret] = some u' ∧
      (s.withWorker w (.answered client ret)).Runs u' := by
  have hrun : v.epoll.system.exec u [.read w ret] =
      some (u.withWorker w (.answered client ret)) := by
    apply exec_singleton
    simp [EpollSocket.step, EpollSocket.Act.worker, hy, EpollSocket.workerStep]
  exact ⟨_, hrun, runs_worker h (placed_of_epoll h.placed hrun) hx hy (.answered client ret)⟩

theorem runs_recv {r : Recv} (h : s.Runs u) (hw : s.workers[w]? = some (.reading client)) :
    ∃ u', v.epoll.system.exec u (s.epollActs v (.recv w r)) = some u' ∧
      (s.received w client r).Runs u' := by
  obtain ⟨y, hy, hsame⟩ := h.worker hw
  cases hsame
  have hconn := h.withConn client
    (k := { s.conns client with received := (s.conns client).received + r.bytes.length }) rfl rfl
  cases hr : onReadable r with
  | answer ret =>
      simp only [epollActs, received, hr]
      exact runs_read ret hconn hw hy
  | call buffer size =>
      simp only [epollActs, received, hr]
      exact ⟨u, rfl, runs_worker_same hconn hw hy (.calling client buffer size)⟩

theorem runs_call {buffer : Bytes} {size : Int} (h : s.Runs u)
    (hw : s.workers[w]? = some (.calling client buffer size)) :
    ∃ u', v.epoll.system.exec u (s.epollActs v (.call w)) = some u' ∧
      (v.handle s w client buffer size).Runs u' := by
  obtain ⟨y, hy, hsame⟩ := h.worker hw
  cases hsame
  simp only [FlowServer.handle, epollActs, hw]
  cases hret : v.flowHandler.doHandle s.handler buffer size with
  | error f =>
      have hrest := runs_worker_same h hw hy (.faulted client f)
      exact ⟨u, rfl, hrest.placed, hrest.created, hrest.status, hrest.loop, hrest.events,
        hrest.tasks, hrest.armed, hrest.registered, hrest.workers⟩
  | ok answer =>
      obtain ⟨u', hu', hrest⟩ := runs_read (v := v) answer.1 h hw hy
      exact ⟨u', hu', hrest.placed, hrest.created, hrest.status, hrest.loop, hrest.events,
        hrest.tasks, hrest.armed, hrest.registered, hrest.workers⟩

theorem runs_settle {ret : Int} {ok : Bool} (h : s.Runs u)
    (hw : s.workers[w]? = some (.answered client ret)) :
    ∃ u', v.epoll.system.exec u (s.epollActs v (.settle w ok)) = some u' ∧
      (s.settled w client ret ok).Runs u' := by
  obtain ⟨y, hy, hsame⟩ := h.worker hw
  cases hsame
  by_cases hclose : ret = readClose
  · subst hclose
    let closing := u.withWorker w (.closing client)
    let releasing := (closing.unregister client).withWorker w (.releasing client .counting)
    have hstatus : releasing.status = .run := h.status
    have hclosing : closing.workers[w]? = some (.closing client) := withWorker_self _ hy
    have hreleasing : releasing.workers[w]? = some (.releasing client .counting) :=
      withWorker_self (u := closing.unregister client) _ hclosing
    have hrun : v.epoll.system.exec u
        [.settle w ok, .workerClose w, .workerRelease w, .workerRelease w, .workerRelease w] =
        some ((releasing.withContext client none).withWorker w .closed) := by
      refine exec_cons_of_step (t := closing) ?_
        (exec_cons_of_step (t := releasing) ?_ (exec_workerRelease hstatus hreleasing))
      · simp [EpollSocket.step, EpollSocket.Act.worker, EpollSocket.workerStep, hy, Epoll.settled,
          closing]
      · simp [EpollSocket.step, EpollSocket.Act.worker, EpollSocket.workerStep, hclosing,
          releasing]
    refine ⟨_, by simpa [epollActs, hw] using hrun, ?_⟩
    have hworkers : ((releasing.withContext client none).withWorker w .closed).workers =
        u.workers.set w .closed := by
      simp [releasing, closing, Epoll.withWorker, Epoll.withContext, Epoll.unregister,
        Epoll.withArmed]
    refine ⟨placed_of_epoll h.placed hrun, h.created, hstatus, h.loop, h.events, h.tasks,
      fun c ↦ armed_close h client c, fun c ↦ registered_erase h client c, ?_⟩
    rw [hworkers]
    exact h.workers_set hw hy (.closed client)
  · have hrun : v.epoll.system.exec u [.settle w ok] = some (u.settled w client ret ok) := by
      apply exec_singleton
      simp [EpollSocket.step, EpollSocket.Act.worker, EpollSocket.workerStep, hy]
    refine ⟨_, by simpa [epollActs, hw, hclose] using hrun, ?_⟩
    have hplaced := placed_of_epoll h.placed hrun
    have hfinishing : v.epoll.system.exec u [.settle w false] =
        some (u.withWorker w (.finishing client)) := by
      apply exec_singleton
      simp [EpollSocket.step, EpollSocket.Act.worker, EpollSocket.workerStep, hy, Epoll.settled,
        hclose, Epoll.rearm]
    have hrest := runs_worker h (placed_of_epoll h.placed hfinishing) hw hy (.finishing client)
    simp only [settled, Epoll.settled, if_neg hclose] at hplaced ⊢
    split
    · rename_i hcontinue
      rw [if_pos hcontinue] at hplaced
      exact runs_rearm hrest hplaced
    · rename_i hcontinue
      rw [if_neg hcontinue] at hplaced
      split
      · rename_i hover
        rw [if_pos hover] at hplaced
        exact runs_rearm hrest hplaced
      · exact hrest

theorem simulates_epoll (v : FlowServer σ) :
    v.system.Simulates v.epoll.system Runs (epollActs v) := by
  intro s a t u h hstep
  cases v.taken_of_step hstep with
  | sends client bytes => exact ⟨u, rfl, h.withConn client rfl rfl⟩
  | ready e hloop hroom hmay => exact runs_ready h hloop hroom hmay
  | wake hloop =>
      have hwaiting : u.loop = .waiting := by rw [h.loop, hloop]; rfl
      have hrun : v.epoll.system.exec u [.wake] = some { u with loop := .handling } := by
        apply exec_singleton
        simp [EpollSocket.step, EpollSocket.Act.worker, EpollSocket.loopStep, hwaiting]
      exact ⟨_, hrun, placed_of_epoll h.placed hrun, h.created, h.status, rfl, h.events, h.tasks,
        h.armed, h.registered, h.workers⟩
  | dispatch ok e events hloop hevents => exact runs_dispatch h hloop hevents
  | ctl ok client k hclient hk => exact runs_ctl h hk
  | send taken client hloop =>
      have hwriting : u.loop = .writing client := by rw [h.loop, hloop]; rfl
      have hrun : v.epoll.system.exec u [.write .alive] =
          some { u with loop := .written client .alive } := by
        apply exec_singleton
        simp [EpollSocket.step, EpollSocket.Act.worker, EpollSocket.loopStep, hwriting]
      have hconn := h.withConn client
        (k := { s.conns client with wire := (s.conns client).wire ++ okBytes.take taken }) rfl rfl
      exact ⟨_, hrun, placed_of_epoll h.placed hrun, h.created, h.status, rfl, h.events, h.tasks,
        hconn.armed, hconn.registered, h.workers⟩
  | again hloop hevents =>
      have hhandling : u.loop = .handling := by rw [h.loop, hloop]; rfl
      have hnone : u.events = [] := by rw [h.events, hevents]
      have hrun : v.epoll.system.exec u [.sweep 0, .check] = some { u with loop := .waiting } := by
        refine exec_cons_of_step (t := { u with loop := .checking }) ?_ (exec_singleton ?_)
        · simp [EpollSocket.step, EpollSocket.Act.worker, EpollSocket.loopStep, hhandling, hnone,
            EpollSocket.clearIdleClients, FlowServer.epoll]
        · simp [EpollSocket.step, EpollSocket.Act.worker, EpollSocket.loopStep, h.status]
      exact ⟨_, hrun, placed_of_epoll h.placed hrun, h.created, h.status, rfl, h.events, h.tasks,
        h.armed, h.registered, h.workers⟩
  | pick w client tasks hw htasks =>
      obtain ⟨y, hy, hsame⟩ := h.worker hw
      cases hsame
      have hqueue : u.tasks = client :: tasks := by rw [h.tasks, htasks]
      have hrun : v.epoll.system.exec u [.pick w] =
          some ({ u with tasks := tasks }.withWorker w (.reading client)) := by
        apply exec_singleton
        simp [EpollSocket.step, EpollSocket.Act.worker, EpollSocket.workerStep, hy, hqueue]
      exact ⟨_, hrun, placed_of_epoll h.placed hrun, h.created, h.status, h.loop, h.events, rfl,
        h.armed, h.registered, h.workers_set hw hy (.reading client)⟩
  | recv w client r hw => exact runs_recv h hw
  | call w client buffer size hw => exact runs_call h hw
  | settle w client ret ok hw => exact runs_settle h hw
  | finish w client hw =>
      obtain ⟨y, hy, hsame⟩ := h.worker hw
      cases hsame with
      | finishing =>
          have hrun : v.epoll.system.exec u [.finish w] =
              some ((u.withContext client ((u.contexts client).map fun k ↦
                { k with ctxStatus := .readOver })).withWorker w .idle) := by
            apply exec_singleton
            simp [EpollSocket.step, EpollSocket.Act.worker, EpollSocket.workerStep, hy]
          exact ⟨_, hrun, placed_of_epoll h.placed hrun, h.created, h.status, h.loop, h.events,
            h.tasks, h.armed, h.registered, h.workers_set hw hy .idle⟩
      | closed =>
          have hrun : v.epoll.system.exec u [.finish w] = some (u.withWorker w .idle) := by
            apply exec_singleton
            simp [EpollSocket.step, EpollSocket.Act.worker, EpollSocket.workerStep, hy]
          exact ⟨_, hrun, placed_of_epoll h.placed hrun, h.created, h.status, h.loop, h.events,
            h.tasks, h.armed, h.registered, h.workers_set hw hy .idle⟩

/-! ## Memory safety of the server -/

/-- The run of the socket that a run of the server is. -/
def epollRun (v : FlowServer σ) (handler : σ) (as : List Act) : List EpollSocket.Act :=
  .check :: v.system.image (epollActs v) (Server.start v handler) as

def dispatched (s : Server σ) : Act → Option ℕ
  | .dispatch _ => s.events.head?.bind Event.client
  | _ => none

/-- No connection is dispatched while a thread that has acted on its answer is
still inside `read_func` for it. -/
def NotOvertaken (s : Server σ) (a : Act) : Prop :=
  ∀ client ∈ dispatched s a, .finishing client ∉ s.workers

instance (s : Server σ) (a : Act) : Decidable (NotOvertaken s a) :=
  inferInstanceAs (Decidable (∀ client ∈ dispatched s a, .finishing client ∉ s.workers))

theorem runs_start (v : FlowServer σ) (handler : σ) :
    (Server.start v handler).Runs { Epoll.start v.epoll with loop := .waiting } := by
  have hrun : v.epoll.system.exec (Epoll.start v.epoll) [.check] =
      some { Epoll.start v.epoll with loop := .waiting } := rfl
  refine ⟨placed_of_epoll (.start v.epoll) hrun, rfl, rfl, rfl, rfl, rfl, fun _ ↦ rfl, ?_, ?_⟩
  · intro c
    simp [Epoll.start, Server.start, Conn.none]
  · intro w
    simp only [Epoll.start, Server.start, FlowServer.epoll, List.getElem?_replicate]
    split
    · exact .some .idle
    · exact .none

theorem finishing_mem {c : ℕ} (h : s.Runs u) (hmem : .finishing c ∈ u.workers) :
    .finishing c ∈ s.workers := by
  obtain ⟨w, hw⟩ := List.mem_iff_getElem?.mp hmem
  have hrel := h.workers w
  rw [hw] at hrel
  cases hs : s.workers[w]? with
  | none =>
      rw [hs] at hrel
      cases hrel
  | some x =>
      rw [hs] at hrel
      cases hrel with
      | some hsame =>
          cases hsame
          exact List.mem_of_getElem? hs

theorem notOvertaken_epollActs {a : Act} (h : s.Runs u) (ha : NotOvertaken s a) :
    v.epoll.system.EachStep EpollSocket.NotOvertaken u (epollActs v s a) := by
  have hfree : ∀ (u : Epoll) (as : List EpollSocket.Act),
      (∀ b ∈ as, ∀ now, b ≠ .dispatch now) →
      v.epoll.system.EachStep EpollSocket.NotOvertaken u as := by
    intro u as hfree
    induction as generalizing u with
    | nil => trivial
    | cons b as ih =>
        refine fun u' _ ↦ ⟨?_, ih u' fun c hc ↦ hfree c (List.mem_cons_of_mem b hc)⟩
        cases b with
        | dispatch now => exact absurd rfl (hfree _ List.mem_cons_self now)
        | _ =>
            intro client hclient
            cases hclient
  cases a with
  | dispatch ok =>
      have hnext : EpollSocket.NotOvertaken u (.dispatch 0) := by
        intro client hclient hmem
        refine ha client ?_ (finishing_mem h hmem)
        simpa [dispatched, EpollSocket.dispatched, h.events] using hclient
      simp only [epollActs]
      split
      · exact fun u' _ ↦ ⟨hnext, hfree u' _ (by simp)⟩
      · exact fun u' _ ↦ ⟨hnext, trivial⟩
  | sends | ready | wake | send | again | pick | finish =>
      apply hfree
      simp [epollActs]
  | ctl ok =>
      apply hfree
      simp only [epollActs]
      split <;> simp
  | recv w r =>
      apply hfree
      simp only [epollActs]
      split <;> simp
  | call w =>
      apply hfree
      simp only [epollActs]
      split
      · split <;> simp
      · simp
  | settle w ok =>
      apply hfree
      simp only [epollActs]
      split
      · split <;> simp
      · simp

/-- Every run of the server is a run of the socket. In it only the last access
of `read_func` can be to a deleted context, and none is if no connection is
dispatched before the thread that has re-armed it is through with it. -/
theorem memory_safe (v : FlowServer σ) (handler : σ) {as : List Act}
    (hrun : v.system.exec (Server.start v handler) as = some s) :
    (∃ u, v.epoll.system.exec (Epoll.start v.epoll) (epollRun v handler as) = some u ∧ s.Runs u) ∧
      v.epoll.system.EachStep (fun u b ↦ (∀ w, b ≠ .finish w) → v.epoll.Safe u b)
        (Epoll.start v.epoll) (epollRun v handler as) ∧
      (v.system.EachStep NotOvertaken (Server.start v handler) as →
        v.epoll.system.EachStep v.epoll.Safe (Epoll.start v.epoll) (epollRun v handler as)) := by
  have hcheck : v.epoll.step (Epoll.start v.epoll) .check =
      some { Epoll.start v.epoll with loop := .waiting } := rfl
  obtain ⟨u, hu, hruns⟩ := (simulates_epoll v).exec (runs_start v handler) hrun
  refine ⟨⟨u, exec_cons_of_step hcheck hu, hruns⟩,
    (Epoll.Placed.start v.epoll).eachStep_safe (Int.le_refl 0) _, ?_⟩
  intro hcalm
  have himage := (simulates_epoll v).eachStep
    (fun s a t u h ha _ ↦ notOvertaken_epollActs h ha) (runs_start v handler) hrun hcalm
  apply (Epoll.Calm.start v.epoll).eachStep_safe
  intro u' hu'
  obtain rfl := Option.some.inj (hcheck.symm.trans hu')
  exact ⟨fun client hclient ↦ (by cases hclient), himage⟩

theorem memory_safe_served :
    let v : FlowServer Unit := ⟨FlowHandler.base, 5, 1⟩
    let as := Act.connect ++ Act.queue 1 [97] ++ Act.serve [97] (by decide) ++ [.finish 0]
    (v.epoll.system.exec (Epoll.start v.epoll) (epollRun v () as)).isSome = true ∧
      v.epoll.system.EachStep v.epoll.Safe (Epoll.start v.epoll) (epollRun v () as) := by
  intro v as
  obtain ⟨s, hs⟩ := Option.isSome_iff_exists.mp
    (show (v.system.exec (Server.start v ()) as).isSome = true by decide)
  have hcalm : v.system.EachStep NotOvertaken (Server.start v ()) as := by decide
  obtain ⟨⟨u, hu, -⟩, -, hsafe⟩ := memory_safe v () hs
  exact ⟨by rw [hu]; rfl, hsafe hcalm⟩

end Server

end SimpleFlow
