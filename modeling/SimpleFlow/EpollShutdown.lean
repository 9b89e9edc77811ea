import SimpleFlow.EpollSafety

/-!
# How the socket stops

`stop_epoll` only asks for it: the status becomes `S_STOP` where a client is
closed, or where a connection comes in, and `_clients` was 0. A pool thread tests
`_clients` without the lock, so clients may be accepted before it stores
`S_STOP`. From then on the event loop ends after a bounded number of its own
steps, if nobody calls `stop_epoll` again. Where no client is left when it is
called, nothing stops the loop until a connection comes in.
-/

namespace SimpleFlow

/-- A bound for the steps of `close_and_release` after `remove_client`. -/
def Release.rank : Release → ℕ
  | .counting => 4
  | .testing _ => 3
  | .storing => 2
  | .deleting => 1

/-- `close_and_release` has read `_clients` as 0, and may yet store `S_STOP`. -/
def Release.foundEmpty : Release → Bool
  | .testing empty => empty
  | .storing => true
  | .counting | .deleting => false

def EpollLoop.foundEmpty : EpollLoop → Bool
  | .releasing _ _ r => r.foundEmpty
  | _ => false

def EpollWorker.foundEmpty : EpollWorker → Bool
  | .releasing _ r => r.foundEmpty
  | _ => false

/-- A step of the event loop. -/
def EpollSocket.Act.ofLoop (a : EpollSocket.Act) : Bool :=
  a.worker.isNone && a != .stop

namespace Epoll

open EpollSocket

variable {v : EpollSocket} {s t : Epoll} {a : EpollSocket.Act}

/-- A bound for the steps of the loop until it tests `_status` again, when it
still has to handle its events and look for idle clients. -/
def batch (s : Epoll) : ℕ := 14 * s.events.length + 6 * s.eclients.length + 3

/-- A bound for the steps of the loop until it tests `_status` again. -/
def loopRank (maxEvents : ℕ) (s : Epoll) : ℕ :=
  match s.loop with
  | .ended _ => 0
  | .checking => 1
  | .evicting removeEvs => 6 * removeEvs.length + 2
  | .releasing _ (some removeEvs) r => 6 * removeEvs.length + 2 + r.rank
  | .closing _ (some removeEvs) => 6 * removeEvs.length + 7
  | .handling => s.batch
  | .releasing _ none r => s.batch + r.rank
  | .closing _ none => s.batch + 5
  | .adding _ | .written _ _ => s.batch + 6
  | .writing _ => s.batch + 7
  | .accepting => s.batch + 13
  | .waiting => s.batch + 1 + 15 * (maxEvents - s.events.length)

theorem nextStatus_of_stop (hstop : s.status = .stop) : s.nextStatus = .stop := by
  simp [nextStatus, hstop]

theorem length_unregister_le (client : ℕ) :
    (s.unregister client).eclients.length ≤ s.eclients.length := by
  simpa [unregister] using List.length_erase_le

theorem loopRank_mono (hloop : t.loop = s.loop) (hevents : t.events = s.events)
    (hclients : t.eclients.length ≤ s.eclients.length) (maxEvents : ℕ) :
    t.loopRank maxEvents ≤ s.loopRank maxEvents := by
  simp only [loopRank, batch, hloop, hevents]
  split <;> omega

theorem rank_of_next {r r' : Release} (hnext : s.nextRelease r = some r') :
    r'.rank + 1 ≤ r.rank := by
  cases r with
  | counting =>
      obtain rfl := Option.some.inj hnext
      simp [Release.rank]
  | testing empty =>
      obtain rfl := Option.some.inj hnext
      split <;> simp [Release.rank]
  | storing =>
      obtain rfl := Option.some.inj hnext
      simp [Release.rank]
  | deleting => cases hnext

theorem le_of_succ_le {n m : ℕ} (h : n + 1 ≤ m) : n + (if a.ofLoop then 1 else 0) ≤ m := by
  split <;> omega

/-- Each step of the loop brings it nearer to its end; the others do not keep
it from there. -/
theorem loopRank_step (hstop : s.status = .stop) (hne : a ≠ .stop) (hstep : v.Taken s a t) :
    t.status = .stop ∧
      t.loopRank v.maxEvents + (if a.ofLoop then 1 else 0) ≤ s.loopRank v.maxEvents := by
  cases hstep with
  | check hloop => exact ⟨hstop, by simp [loopRank, hloop, hstop, Act.ofLoop, Act.worker]⟩
  | ready e hloop hroom =>
      have hlength : (s.report e).events.length = s.events.length + 1 := by
        cases e <;> simp [report, withArmed]
      have hsame : (s.report e).loop = .waiting ∧ (s.report e).eclients = s.eclients ∧
          (s.report e).status = s.status := by
        cases e <;> exact ⟨hloop, rfl, rfl⟩
      refine ⟨hsame.2.2.trans hstop, ?_⟩
      simp only [loopRank, batch, hloop, hsame.1, hsame.2.1, hlength, Act.ofLoop, Act.worker]
      simp only [Option.isNone_none, Bool.true_and, bne_iff_ne, ne_eq, reduceCtorEq,
        not_false_eq_true, if_true]
      omega
  | wake hloop =>
      refine ⟨hstop, ?_⟩
      simp only [loopRank, batch, hloop]
      split <;> omega
  | failed eintr hloop =>
      refine ⟨hstop, le_of_succ_le ?_⟩
      cases eintr
      · simp only [loopRank, batch, hloop, Bool.false_eq_true, if_false]
        omega
      · simp only [loopRank, batch, hloop, if_true]
        omega
  | knock now events hloop hevents =>
      refine ⟨nextStatus_of_stop hstop, le_of_succ_le ?_⟩
      simp only [loopRank, batch, hloop, hevents, List.length_cons]
      omega
  | refuse now hloop =>
      refine ⟨hstop, le_of_succ_le ?_⟩
      simp only [loopRank, batch, hloop]
      omega
  | accept now hloop =>
      refine ⟨hstop, le_of_succ_le ?_⟩
      simp only [loopRank, batch, withContext, hloop, List.length_cons, List.length_append,
        List.length_nil]
      omega
  | task now client o events hloop hevents | full now client o events hloop hevents =>
      refine ⟨hstop, le_of_succ_le ?_⟩
      simp only [loopRank, batch, hloop, hevents, withContext, List.length_cons]
      omega
  | writeable now client events hloop hevents =>
      refine ⟨hstop, le_of_succ_le ?_⟩
      simp only [loopRank, batch, hloop, hevents, updateInteractTime, withContext, List.length_cons]
      omega
  | skip now client events hloop hevents =>
      refine ⟨hstop, le_of_succ_le ?_⟩
      simp only [loopRank, batch, hloop, hevents, List.length_cons]
      omega
  | ctl ok client hloop | ctlClose ok client hloop =>
      refine ⟨hstop, ?_⟩
      rcases hloop with hloop | ⟨ret, hloop⟩ <;>
        simp [loopRank, batch, hloop, Act.ofLoop, Act.worker]
  | write ret client hloop =>
      exact ⟨hstop, by simp [loopRank, batch, hloop, Act.ofLoop, Act.worker]⟩
  | close client removeEvs hloop =>
      refine ⟨hstop, ?_⟩
      have hlength := length_unregister_le (s := s) client
      have hevents : (s.unregister client).events = s.events := rfl
      cases removeEvs <;>
        simp [loopRank, batch, hloop, Act.ofLoop, Act.worker, hevents, Release.rank]
      omega
  | test client removeEvs r r' hloop hnext =>
      have hrank := rank_of_next hnext
      refine ⟨?_, le_of_succ_le ?_⟩
      · simp only [hstop]
        split <;> rfl
      · cases removeEvs <;> simp only [loopRank, batch, hloop] <;> omega
  | release client removeEvs hloop =>
      refine ⟨hstop, ?_⟩
      cases removeEvs <;>
        simp [loopRank, batch, hloop, withContext, EpollLoop.back, Act.ofLoop, Act.worker,
          Release.rank]
  | sweep now hloop hevents =>
      have hfilter : (s.idleClients v.maxIdleSec now).length ≤ s.eclients.length :=
        List.length_filter_le _ _
      unfold clearIdleClients
      split
      · refine ⟨hstop, le_of_succ_le ?_⟩
        simp only [loopRank, batch, hloop]
        omega
      · refine ⟨hstop, le_of_succ_le ?_⟩
        simp only [loopRank, batch, hloop]
        omega
  | evict client removeEvs hloop =>
      refine ⟨hstop, le_of_succ_le ?_⟩
      simp only [loopRank, hloop, List.length_cons]
      omega
  | evicted hloop => exact ⟨hstop, by simp [loopRank, hloop, Act.ofLoop, Act.worker]⟩
  | stop => exact absurd rfl hne
  | workerClose w client hw =>
      have hlength := length_unregister_le (s := s) client
      exact ⟨hstop, loopRank_mono (s := s)
        (t := (s.unregister client).withWorker w (.releasing client .counting)) rfl rfl hlength _⟩
  | workerTest w client r r' hw hnext =>
      refine ⟨?_, loopRank_mono (s := s) rfl rfl (Nat.le_refl _) _⟩
      simp only [hstop]
      split <;> rfl
  | pick | read | settleClose | settle | workerRelease | finish | finishClosed =>
      exact ⟨hstop, loopRank_mono (s := s) rfl rfl (Nat.le_refl _) _⟩

/-- The event loop always has a next step until it has ended. -/
theorem exists_loop_step (hloop : ∀ ret, s.loop ≠ .ended ret) :
    ∃ a : EpollSocket.Act, a.ofLoop = true ∧ (v.system.step s a).isSome = true := by
  cases hl : s.loop with
  | ended ret => exact absurd hl (hloop ret)
  | checking => exact ⟨.check, rfl, by simp [system, step, loopStep, Act.worker, hl]⟩
  | waiting => exact ⟨.wake, rfl, by simp [system, step, loopStep, Act.worker, hl]⟩
  | handling =>
      cases he : s.events with
      | nil => exact ⟨.sweep 0, rfl, by simp [system, step, loopStep, Act.worker, hl, he]⟩
      | cons e events =>
          exact ⟨.dispatch 0, rfl, by simp [system, step, loopStep, Act.worker, hl, he]⟩
  | accepting => exact ⟨.accept true 0, rfl, by simp [system, step, loopStep, Act.worker, hl]⟩
  | adding client =>
      exact ⟨.ctl true, rfl, by simp [system, step, loopStep, Act.worker, loopCtl, hl]⟩
  | writing client =>
      exact ⟨.write .alive, rfl, by simp [system, step, loopStep, Act.worker, hl]⟩
  | written client ret =>
      refine ⟨.ctl true, rfl, ?_⟩
      cases ret with
      | alive =>
          by_cases hreject : s.status = .rejectConn <;>
            simp [system, step, loopStep, Act.worker, loopCtl, hl, hreject]
      | close | again => simp [system, step, loopStep, Act.worker, loopCtl, hl]
  | closing client removeEvs =>
      exact ⟨.close, rfl, by simp [system, step, loopStep, Act.worker, hl]⟩
  | releasing client removeEvs r =>
      refine ⟨.release, rfl, ?_⟩
      cases hnext : s.nextRelease r <;> simp [system, step, loopStep, Act.worker, hl, hnext]
  | evicting removeEvs =>
      refine ⟨.evict, rfl, ?_⟩
      cases removeEvs <;> simp [system, step, loopStep, Act.worker, hl]

/-- Once the status is `S_STOP` and until someone calls `stop_epoll` again, the
event loop takes at most `loopRank` steps, and it can stop only by ending. -/
theorem ends_when_stopped (v : EpollSocket) {as : List EpollSocket.Act} (hstop : s.status = .stop)
    (hnone : .stop ∉ as) (hrun : v.system.exec s as = some t) :
    as.countP Act.ofLoop + t.loopRank v.maxEvents ≤ s.loopRank v.maxEvents ∧
      ((∀ a : EpollSocket.Act, a.ofLoop = true → v.system.step t a = none) →
        ∃ ret, t.loop = .ended ret) := by
  constructor
  · induction as generalizing s with
    | nil =>
        obtain rfl : s = t := Option.some.inj hrun
        simp
    | cons a as ih =>
        obtain ⟨u, hu, hrest⟩ := LabelledSystem.exec_cons_eq_some hrun
        have hne : a ≠ .stop := fun heq ↦ hnone (heq ▸ List.mem_cons_self)
        obtain ⟨hstill, hlower⟩ := loopRank_step hstop hne (v.taken_of_step hu)
        have hle := ih hstill (fun hmem ↦ hnone (List.mem_cons_of_mem a hmem)) hrest
        rw [List.countP_cons]
        omega
  · intro hstuck
    by_contra hrunning
    obtain ⟨a, ha, hsome⟩ := exists_loop_step (v := v) (s := t) fun ret hret ↦ hrunning ⟨ret, hret⟩
    rw [hstuck a ha] at hsome
    cases hsome

/-- A socket that is stopped while a client is being accepted and another connection
comes in: it turns that one away, and evicts the client. -/
theorem ends_when_stopped_evicting :
    let v : EpollSocket := ⟨8, 10, -1, 1⟩
    let s : Epoll :=
      { Epoll.start v with
        contexts := fun c ↦ if c = 1 ∨ c = 2 then some ⟨.fresh, 5⟩ else none
        created := 2
        eclients := [2]
        clients := 1
        status := .stop
        loop := .adding 2
        events := [.listen]
        workers := [.releasing 1 .deleting] }
    let as : List EpollSocket.Act :=
      [.ctl true, .dispatch 5, .workerRelease 0, .accept false 5, .sweep 100, .finish 0, .evict,
        .close, .release, .release, .release, .evict, .check]
    ∃ t, v.system.exec s as = some t ∧ t.loop = .ended 0 ∧ t.eclients = [] ∧
      as.countP Act.ofLoop + t.loopRank 8 ≤ s.loopRank 8 ∧
      ((∀ a : EpollSocket.Act, a.ofLoop = true → v.system.step t a = none) →
        ∃ ret, t.loop = .ended ret) := by
  intro v s as
  obtain ⟨t, hrun⟩ := Option.isSome_iff_exists.mp
    (show (v.system.exec s as).isSome = true by decide)
  have hends : (v.system.exec s as).map (fun t ↦ (t.loop, t.eclients)) = some (.ended 0, []) := by
    decide
  rw [hrun] at hends
  obtain ⟨hloop, hclients⟩ := Prod.mk.inj (Option.some.inj hends)
  exact ⟨t, hrun, hloop, hclients, ends_when_stopped v rfl (by decide) hrun⟩

/-! ## When the status becomes `S_STOP` -/

/-- Before anybody calls `stop_epoll` nobody is about to store `S_STOP`. -/
structure Unasked (s : Epoll) : Prop where
  status : s.status = .run
  loop : ∀ client removeEvs, s.loop ≠ .releasing client removeEvs .storing
  workers : ∀ client, .releasing client .storing ∉ s.workers

theorem nextRelease_of_run (hrun : s.status = .run) {r r' : Release}
    (hnext : s.nextRelease r = some r') : r' ≠ .storing := by
  cases r with
  | counting =>
      obtain rfl := Option.some.inj hnext
      simp
  | testing empty =>
      obtain rfl := Option.some.inj hnext
      simp [hrun]
  | storing =>
      obtain rfl := Option.some.inj hnext
      simp
  | deleting => cases hnext

theorem Unasked.step (h : s.Unasked) (hne : a ≠ .stop) (hstep : v.Taken s a t) : t.Unasked := by
  obtain ⟨hstatus, hloop, hworkers⟩ := h
  have hset : ∀ w y, (∀ client, y ≠ .releasing client .storing) →
      ∀ client, .releasing client .storing ∉ s.workers.set w y := by
    intro w y hy client hmem
    exact hworkers client (Slots.mem_of_mem_set_of_ne hmem (hy client).symm)
  have hnextStatus : s.nextStatus = .run := by simp [nextStatus, hstatus]
  cases hstep with
  | stop => exact absurd rfl hne
  | check hat => exact ⟨hstatus, by simp [hstatus], hworkers⟩
  | ready e => cases e <;> exact ⟨hstatus, hloop, hworkers⟩
  | failed eintr => cases eintr <;> exact ⟨hstatus, by simp, hworkers⟩
  | knock => exact ⟨hnextStatus, by simp, hworkers⟩
  | task | skip => exact ⟨hstatus, hloop, hworkers⟩
  | close => exact ⟨hstatus, by simp, hworkers⟩
  | test client removeEvs r r' hat hnext =>
      have hr : r ≠ .storing := fun heq ↦ hloop client removeEvs (heq ▸ hat)
      have hr' := nextRelease_of_run hstatus hnext
      exact ⟨by simp [hr, hstatus], by simp [hr'], hworkers⟩
  | release client removeEvs =>
      cases removeEvs <;> exact ⟨hstatus, by simp [EpollLoop.back], hworkers⟩
  | sweep now =>
      unfold clearIdleClients
      split <;> exact ⟨hstatus, by simp, hworkers⟩
  | workerTest w client r r' hw hnext =>
      have hr : r ≠ .storing := fun heq ↦ hworkers client (heq ▸ List.mem_of_getElem? hw)
      have hr' := nextRelease_of_run hstatus hnext
      exact ⟨by simp [hr, hstatus], hloop, hset w _ (by simp [hr'])⟩
  | pick w | read w | settleClose w | settle w | workerClose w | workerRelease w | finish w
  | finishClosed w => exact ⟨hstatus, hloop, hset w _ (by simp)⟩
  | _ => exact ⟨hstatus, by simp, hworkers⟩

theorem Unasked.start (v : EpollSocket) : (Epoll.start v).Unasked where
  status := rfl
  loop := by simp [Epoll.start]
  workers := by simp [Epoll.start]

/-- Who stores `S_STOP`: the test where a connection comes in, or a
`close_and_release` of the loop or of a pool thread. -/
theorem stored_of_taken (hstep : v.Taken s a t) (hbefore : s.status ≠ .stop)
    (hafter : t.status = .stop) :
    t.eclients = s.eclients ∧
      ((∃ now, a = .dispatch now ∧ s.events.head? = some .listen ∧ s.clients = 0 ∧
          s.status = .rejectConn) ∨
        (a = .release ∧ ∃ client removeEvs, s.loop = .releasing client removeEvs .storing) ∨
        ∃ w client, a = .workerRelease w ∧ s.workers[w]? = some (.releasing client .storing)) := by
  have hstoring : ∀ r : Release, (if r = .storing then .stop else s.status) = .stop →
      r = .storing := by
    intro r hstop
    by_contra hr
    exact hbefore (by rwa [if_neg hr] at hstop)
  cases hstep with
  | knock now events hloop hevents =>
      refine ⟨rfl, .inl ⟨now, rfl, by rw [hevents]; rfl, ?_⟩⟩
      change s.nextStatus = .stop at hafter
      unfold nextStatus at hafter
      split at hafter
      · assumption
      · exact absurd hafter hbefore
  | test client removeEvs r r' hloop =>
      obtain rfl := hstoring r hafter
      exact ⟨rfl, .inr (.inl ⟨rfl, client, removeEvs, hloop⟩)⟩
  | workerTest w client r r' hw =>
      obtain rfl := hstoring r hafter
      exact ⟨rfl, .inr (.inr ⟨w, client, rfl, hw⟩)⟩
  | stop => cases hafter
  | ready e => cases e <;> exact absurd hafter hbefore
  | sweep now =>
      unfold clearIdleClients at hafter
      split at hafter <;> exact absurd hafter hbefore
  | _ => exact absurd hafter hbefore

/-! ## What `_clients` was -/

/-- The pool thread `w` has read `_clients` as 0 and may yet store `S_STOP`. -/
def FoundEmpty (w : ℕ) (s : Epoll) : Prop := ∃ x, s.workers[w]? = some x ∧ x.foundEmpty = true

theorem foundEmpty_of_next {r r' : Release} (hnext : s.nextRelease r = some r')
    (hbefore : r.foundEmpty = false) (hafter : r'.foundEmpty = true) : s.clients = 0 := by
  cases r with
  | counting =>
      obtain rfl := Option.some.inj hnext
      simpa [Release.foundEmpty] using hafter
  | testing empty =>
      obtain rfl : empty = false := hbefore
      obtain rfl := Option.some.inj hnext
      cases hafter
  | storing => cases hbefore
  | deleting => cases hnext

theorem loop_of_foundEmpty (hstep : v.Taken s a t) (hbefore : s.loop.foundEmpty = false)
    (hafter : t.loop.foundEmpty = true) : s.clients = 0 ∧ t.eclients = s.eclients := by
  cases hstep with
  | test client removeEvs r r' hloop hnext =>
      rw [hloop] at hbefore
      exact ⟨foundEmpty_of_next hnext hbefore hafter, rfl⟩
  | check =>
      simp only at hafter
      split at hafter <;> cases hafter
  | ready e => cases e <;> exact absurd hafter (by simp [report, withArmed, hbefore])
  | failed eintr => cases eintr <;> cases hafter
  | release client removeEvs => cases removeEvs <;> cases hafter
  | sweep now =>
      unfold clearIdleClients at hafter
      split at hafter <;> cases hafter
  | knock | refuse | accept | full | writeable | wake | ctl | ctlClose | write | close | evict
  | evicted => cases hafter
  | _ => exact absurd hafter (by simp [withContext, withWorker, unregister, withArmed, hbefore])

theorem worker_of_foundEmpty {w : ℕ} (hstep : v.Taken s a t) (hbefore : ¬s.FoundEmpty w)
    (hafter : t.FoundEmpty w) : s.clients = 0 ∧ t.eclients = s.eclients := by
  obtain ⟨y, hy, hfound⟩ := hafter
  have hset : ∀ {w' : ℕ} {x z : EpollWorker}, s.workers[w']? = some x →
      (s.workers.set w' z)[w]? = some y → w' = w ∧ z = y := by
    intro w' x z hx hz
    rw [Slots.set_getElem? hx] at hz
    split at hz
    · rename_i hw
      exact ⟨hw, Option.some.inj hz⟩
    · exact absurd ⟨y, hz, hfound⟩ hbefore
  have hsame : s.workers[w]? = some y → s.clients = 0 ∧ t.eclients = s.eclients :=
    fun hold ↦ absurd ⟨y, hold, hfound⟩ hbefore
  cases hstep with
  | workerTest w' client r r' hw hnext =>
      obtain ⟨rfl, rfl⟩ := hset hw hy
      have hr : r.foundEmpty = false := by
        by_contra hr
        exact hbefore ⟨_, hw, by simpa [EpollWorker.foundEmpty] using hr⟩
      exact ⟨foundEmpty_of_next hnext hr hfound, rfl⟩
  | pick _ _ _ hw | read _ _ _ hw | settleClose _ _ _ _ hw | settle _ _ _ _ hw
  | workerClose _ _ hw | workerRelease _ _ hw | finish _ _ hw | finishClosed _ hw =>
      obtain ⟨-, rfl⟩ := hset hw hy
      cases hfound
  | ready e => cases e <;> exact hsame hy
  | sweep now =>
      unfold clearIdleClients at hy
      split at hy <;> exact hsame hy
  | _ => exact hsame hy

/-- A client that becomes registered is new, and the loop was about to accept it. -/
theorem eclients_of_taken (hstep : v.Taken s a t) {c : ℕ} (hc : c ∈ t.eclients) :
    c ∈ s.eclients ∨ s.loop = .accepting ∧ s.created < c := by
  cases hstep with
  | accept now hloop =>
      rcases List.mem_append.mp hc with hold | hnew
      · exact .inl hold
      · obtain rfl := List.mem_singleton.mp hnew
        exact .inr ⟨hloop, Nat.lt_succ_self _⟩
  | close client | workerClose w client => exact .inl (List.mem_of_mem_erase hc)
  | ready e => cases e <;> exact .inl hc
  | sweep now =>
      unfold clearIdleClients at hc
      split at hc <;> exact .inl hc
  | _ => exact .inl hc

theorem created_le_of_taken (hstep : v.Taken s a t) : s.created ≤ t.created := by
  cases hstep with
  | accept => exact Nat.le_succ _
  | ready e => cases e <;> exact Nat.le_refl _
  | sweep now =>
      unfold clearIdleClients
      split <;> exact Nat.le_refl _
  | _ => exact Nat.le_refl _

theorem Careful.before {before after : List EpollSocket.Act} (h : Careful v (before ++ after)) :
    Careful v before :=
  h.imp_right fun hcalm ↦ hcalm.append.1

theorem eclients_nil_of_clients {as : List EpollSocket.Act} (hcareful : Careful v as)
    (hrun : v.system.exec (Epoll.start v) as = some s) (hclients : s.clients = 0) :
    s.eclients = [] := by
  have hlength := (placed_of_exec hcareful hrun).clients
  apply List.eq_nil_of_length_eq_zero
  omega

/-- The event loop accepts nobody between its test and its store. -/
theorem eclients_nil_of_loop {as : List EpollSocket.Act} (hcareful : Careful v as)
    (hrun : v.system.exec (Epoll.start v) as = some s) (hfound : s.loop.foundEmpty = true) :
    s.eclients = [] := by
  obtain ⟨before, l, after, u, u', rfl, hbefore, hnot, hstep, hafter, halways⟩ :=
    LabelledSystem.exec_last_entry (P := fun s ↦ s.loop.foundEmpty = true) hrun
      (fun h ↦ by cases h.head) hfound
  obtain ⟨hclients, hsame⟩ :=
    loop_of_foundEmpty (v.taken_of_step hstep) (by simpa using hnot) halways.head
  have hnil : u'.eclients = [] :=
    hsame.trans (eclients_nil_of_clients hcareful.before hbefore hclients)
  have hstays : v.system.Always (fun s ↦ s.eclients = []) u' after := by
    refine LabelledSystem.always_of_eachStep (fun s a t hs hfound hstep ↦ ?_) hnil halways.eachStep
    apply List.eq_nil_iff_forall_not_mem.mpr
    intro c hc
    rcases eclients_of_taken (v.taken_of_step hstep) hc with hold | ⟨hloop, -⟩
    · rw [hs] at hold
      cases hold
    · rw [hloop] at hfound
      cases hfound
  exact hstays.last hafter

/-- Whoever is registered while a pool thread is between its test and its store was
accepted meanwhile. -/
theorem newcomers_of_worker {as : List EpollSocket.Act} {w : ℕ} (hcareful : Careful v as)
    (hrun : v.system.exec (Epoll.start v) as = some s) (hfound : s.FoundEmpty w) :
    ∃ before after u, as = before ++ after ∧ v.system.exec (Epoll.start v) before = some u ∧
      u.eclients = [] ∧ v.system.Always (FoundEmpty w) u after ∧
      ∀ c ∈ s.eclients, u.created < c := by
  have hstart : ¬(Epoll.start v).FoundEmpty w := by
    rintro ⟨x, hx, hfound⟩
    obtain rfl := List.eq_of_mem_replicate (List.mem_of_getElem? hx)
    cases hfound
  obtain ⟨before, l, after, u, u', rfl, hbefore, hnot, hstep, hafter, halways⟩ :=
    LabelledSystem.exec_last_entry (P := FoundEmpty w) hrun (fun h ↦ hstart h.head) hfound
  obtain ⟨hclients, hsame⟩ := worker_of_foundEmpty (v.taken_of_step hstep) hnot halways.head
  have hnil : u'.eclients = [] :=
    hsame.trans (eclients_nil_of_clients hcareful.before hbefore hclients)
  have hnew : u'.created ≤ s.created ∧ ∀ c ∈ s.eclients, u'.created < c := by
    refine LabelledSystem.exec_invariant
      (P := fun s ↦ u'.created ≤ s.created ∧ ∀ c ∈ s.eclients, u'.created < c)
      (fun s a t hs hstep ↦ ?_) ⟨Nat.le_refl _, by simp [hnil]⟩ hafter
    have htaken := v.taken_of_step hstep
    refine ⟨Nat.le_trans hs.1 (created_le_of_taken htaken), fun c hc ↦ ?_⟩
    rcases eclients_of_taken htaken hc with hold | ⟨-, hlt⟩
    · exact hs.2 c hold
    · exact Nat.lt_of_le_of_lt hs.1 hlt
  refine ⟨before ++ [l], after, u', by simp, ?_, hnil, halways, hnew.2⟩
  rw [LabelledSystem.exec_concat, hbefore]
  exact hstep

theorem stop_mem_of_storing {as : List EpollSocket.Act}
    (hrun : v.system.exec (Epoll.start v) as = some s) (hasked : ¬s.Unasked) : .stop ∈ as := by
  by_contra hnone
  apply hasked
  refine LabelledSystem.exec_invariant_of_mem (C := fun a ↦ a ≠ .stop)
    (fun s a t h hne hstep ↦ h.step hne (v.taken_of_step hstep)) (.start v) ?_ hrun
  rintro a ha rfl
  exact hnone ha

/-- The only client is closed by a pool thread. Before the thread stores `S_STOP`
the event loop, which has seen one client, accepts the next one. -/
def raced : List EpollSocket.Act :=
  [.check, .ready .listen, .wake, .dispatch 0, .accept true 0, .ctl true, .sweep 0, .evict, .stop,
    .check, .ready (.conn 1 true false), .ready .listen, .ready .listen, .wake, .dispatch 0,
    .pick 0, .read 0 readClose, .settle 0 true, .dispatch 0, .workerClose 0, .workerRelease 0,
    .accept true 5, .workerRelease 0]

/-- The threads that are in `close_and_release` after `remove_client`. -/
def leavers (s : Epoll) : ℕ :=
  s.loop.leaving.isSome.toNat + s.workers.countP fun x ↦ x.leaving.isSome

/-- Nobody is connected, no connection comes in, and the loop goes round. Whoever
closes a client twice makes `_clients` negative, and does not find it to be 0. -/
structure Deserted (s : Epoll) : Prop where
  status : s.status = .rejectConn
  clients : s.clients + s.leavers ≤ 0
  atLoop : s.loop.foundEmpty = false
  workers : ∀ x ∈ s.workers, x.foundEmpty = false
  events : .listen ∉ s.events
  accepting : s.loop ≠ .accepting
  running : ∀ ret, s.loop ≠ .ended ret

theorem Deserted.next (h : s.Deserted) {r r' : Release} (hleaver : 0 < s.leavers)
    (hr : r.foundEmpty = false) (hnext : s.nextRelease r = some r') :
    r'.foundEmpty = false ∧ r ≠ .storing := by
  have hclients := h.clients
  cases r with
  | counting =>
      obtain rfl := Option.some.inj hnext
      have hne : s.clients ≠ 0 := by omega
      simp [Release.foundEmpty, hne]
  | testing empty =>
      obtain rfl : empty = false := hr
      obtain rfl := Option.some.inj hnext
      simp [Release.foundEmpty]
  | storing => cases hr
  | deleting => cases hnext

theorem foundEmpty_of_leaving {y : EpollLoop} (h : y.leaving = none) : y.foundEmpty = false := by
  cases y with
  | releasing => cases h
  | _ => rfl

theorem worker_foundEmpty_of_leaving {y : EpollWorker} (h : y.leaving = none) :
    y.foundEmpty = false := by
  cases y with
  | releasing => cases h
  | _ => rfl

/-- The loop goes somewhere else and closes nobody. -/
theorem Deserted.withLoop (h : s.Deserted) {x y : EpollLoop} {events : List Event}
    (hevents : .listen ∉ events) (hloop : s.loop = x) (hx : x.leaving = none)
    (hy : y.leaving = none) (haccepting : y ≠ .accepting) (hrunning : ∀ ret, y ≠ .ended ret) :
    ({ s with loop := y, events := events } : Epoll).Deserted := by
  refine ⟨h.status, ?_, foundEmpty_of_leaving hy, h.workers, hevents, haccepting, hrunning⟩
  have hclients := h.clients
  simp only [leavers, hloop, hx, hy] at hclients ⊢
  exact hclients

/-- A pool thread goes on and takes a client away for each that it begins to close. -/
theorem Deserted.withWorker (h : s.Deserted) {w : ℕ} {x y : EpollWorker} {clients : Int}
    (hw : s.workers[w]? = some x) (hfound : y.foundEmpty = false)
    (hle : clients + y.leaving.isSome.toNat ≤ s.clients + x.leaving.isSome.toNat) :
    (({ s with clients := clients } : Epoll).withWorker w y).Deserted := by
  refine ⟨h.status, ?_, h.atLoop, ?_, h.events, h.accepting, h.running⟩
  · have hcount := Slots.countP_set_toNat hw (fun x ↦ x.leaving.isSome) y
    have hclients := h.clients
    simp only [leavers, Epoll.withWorker] at hcount hclients ⊢
    omega
  · exact Slots.forall_set h.workers hfound w

theorem Deserted.step (h : s.Deserted) (hlisten : a ≠ .ready .listen) (hfailed : a ≠ .failed false)
    (hstep : v.Taken s a t) : t.Deserted := by
  have htail : ∀ {e events}, s.events = e :: events → .listen ∉ events :=
    fun heq hmem ↦ h.events (heq ▸ List.mem_cons_of_mem _ hmem)
  cases hstep with
  | check hloop =>
      rw [if_neg (by simp [h.status])]
      exact h.withLoop h.events hloop rfl rfl (by simp) (by simp)
  | ready e =>
      cases e with
      | listen => exact absurd rfl hlisten
      | conn client epollin epollout =>
          have hevents : .listen ∉ s.events ++ [.conn client epollin epollout] := by
            simp [h.events]
          exact { h with events := hevents }
  | wake hloop => exact h.withLoop h.events hloop rfl rfl (by simp) (by simp)
  | failed eintr hloop =>
      cases eintr with
      | false => exact absurd rfl hfailed
      | true => exact h.withLoop h.events hloop rfl rfl (by simp) (by simp)
  | knock now events hloop hevents =>
      exact absurd (by rw [hevents]; exact List.mem_cons_self) h.events
  | refuse now hloop | accept now hloop => exact absurd hloop h.accepting
  | task now client o events hloop hevents | skip now client events hloop hevents =>
      exact { h with events := htail hevents }
  | full now client o events hloop hevents =>
      exact { h.withLoop (y := .closing client none) (htail hevents) hloop rfl rfl (by simp)
        (by simp) with }
  | writeable now client events hloop hevents =>
      exact { h.withLoop (y := .writing client) (htail hevents) hloop rfl rfl (by simp)
        (by simp) with }
  | ctl ok client hat =>
      rcases hat with hloop | ⟨ret, hloop⟩
      · exact { h.withLoop (y := .handling) h.events hloop rfl rfl (by simp) (by simp) with }
      · exact { h.withLoop (y := .handling) h.events hloop rfl rfl (by simp) (by simp) with }
  | ctlClose ok client hat =>
      rcases hat with hloop | ⟨ret, hloop⟩
      · exact h.withLoop h.events hloop rfl rfl (by simp) (by simp)
      · exact h.withLoop h.events hloop rfl rfl (by simp) (by simp)
  | write ret client hloop =>
      exact h.withLoop h.events hloop rfl rfl (by simp) (by simp)
  | close client removeEvs hloop =>
      refine ⟨h.status, ?_, rfl, h.workers, h.events, by simp, by simp⟩
      have hclients := h.clients
      simp only [leavers, hloop, EpollLoop.leaving, Option.isSome_none, Option.isSome_some,
        Bool.toNat_false, Bool.toNat_true, unregister, withArmed] at hclients ⊢
      omega
  | test client removeEvs r r' hloop hnext =>
      have hleaver : 0 < s.leavers := by
        simp only [leavers, hloop, EpollLoop.leaving, Option.isSome_some, Bool.toNat_true]
        omega
      have hr : r.foundEmpty = false := by
        have hfound := h.atLoop
        rwa [hloop] at hfound
      obtain ⟨hr', hne⟩ := h.next hleaver hr hnext
      refine ⟨by simp [hne, h.status], ?_, hr', h.workers, h.events, by simp, by simp⟩
      have hclients := h.clients
      simpa only [leavers, hloop, EpollLoop.leaving] using hclients
  | release client removeEvs hloop =>
      refine ⟨h.status, ?_, ?_, h.workers, h.events, ?_, ?_⟩
      · have hclients := h.clients
        have hat : s.loop.leaving = some client := by rw [hloop]; rfl
        have hback : (EpollLoop.back removeEvs).leaving = none := by cases removeEvs <;> rfl
        simp only [leavers, hat, hback, withContext, Option.isSome_none, Option.isSome_some,
          Bool.toNat_false, Bool.toNat_true] at hclients ⊢
        omega
      · cases removeEvs <;> rfl
      · cases removeEvs <;> simp [EpollLoop.back]
      · cases removeEvs <;> simp [EpollLoop.back]
  | sweep now hloop hevents =>
      unfold clearIdleClients
      split <;> exact h.withLoop h.events hloop rfl rfl (by simp) (by simp)
  | evict client removeEvs hloop =>
      exact h.withLoop h.events hloop rfl rfl (by simp) (by simp)
  | evicted hloop => exact h.withLoop h.events hloop rfl rfl (by simp) (by simp)
  | stop => exact { h with status := rfl }
  | pick w client tasks hw =>
      exact { h.withWorker (y := .reading client) hw rfl (Int.le_refl _) with }
  | read w client ret hw => exact h.withWorker hw rfl (Int.le_refl _)
  | settleClose w client ok ret hw => exact h.withWorker hw rfl (Int.le_refl _)
  | settle w client ok ret hw =>
      exact { h.withWorker (y := .finishing client) hw rfl (Int.le_refl _) with }
  | workerClose w client hw =>
      have hle : s.clients - 1 + 1 ≤ s.clients + 0 := by omega
      exact { h.withWorker (y := .releasing client .counting) hw rfl hle with }
  | workerTest w client r r' hw hnext =>
      have hleaver : 0 < s.leavers := by
        have hpos : 0 < s.workers.countP fun x ↦ x.leaving.isSome :=
          Slots.countP_pos_of_getElem? hw rfl
        simp only [leavers]
        omega
      have hr := h.workers _ (List.mem_of_getElem? hw)
      obtain ⟨hr', hne⟩ := h.next hleaver hr hnext
      have hstatus : (if r = .storing then .stop else s.status) = .rejectConn :=
        (if_neg hne).trans h.status
      exact { h.withWorker (y := .releasing client r') hw hr' (Int.le_refl _) with
        status := hstatus }
  | workerRelease w client hw =>
      have hle : s.clients + 0 ≤ s.clients + 1 := by omega
      exact { h.withWorker (y := .closed) hw rfl hle with }
  | finish w client hw => exact { h.withWorker (y := .idle) hw rfl (Int.le_refl _) with }
  | finishClosed w hw => exact h.withWorker hw rfl (Int.le_refl _)

/-- From any state in which the socket is to be stopped and nobody is registered,
while no thread is closing a client and no connection comes in: the socket goes on
until one does or `epoll_wait` fails. -/
theorem goes_on_when_deserted (v : EpollSocket) {as : List EpollSocket.Act}
    (hstatus : s.status = .rejectConn) (hclients : s.clients = 0)
    (hloop : s.loop.leaving = none ∧ s.loop ≠ .accepting ∧ ∀ ret, s.loop ≠ .ended ret)
    (hworkers : ∀ x ∈ s.workers, x.leaving = none) (hevents : .listen ∉ s.events)
    (has : ∀ a ∈ as, a ≠ .ready .listen ∧ a ≠ .failed false) :
    v.system.Always (fun t ↦ t.status = .rejectConn ∧ ∀ ret, t.loop ≠ .ended ret) s as := by
  have hstart : s.Deserted := by
    obtain ⟨hleaving, haccepting, hrunning⟩ := hloop
    have hcount : (s.workers.countP fun x ↦ x.leaving.isSome) = 0 := by
      rw [List.countP_eq_zero]
      intro x hx
      simp [hworkers x hx]
    refine ⟨hstatus, ?_, ?_, ?_, hevents, haccepting, hrunning⟩
    · simp [leavers, hclients, hleaving, hcount]
    · exact foundEmpty_of_leaving hleaving
    · exact fun x hx ↦ worker_foundEmpty_of_leaving (hworkers x hx)
  rw [LabelledSystem.always_iff]
  intro bs hbs t ht
  have hend : t.Deserted := by
    refine LabelledSystem.exec_invariant_of_mem
      (C := fun a ↦ a ≠ .ready .listen ∧ a ≠ .failed false) ?_ hstart ?_ ht
    · intro s a u h ha hstep
      exact h.step ha.1 ha.2 (v.taken_of_step hstep)
    · intro a ha
      exact has a (hbs.subset ha)
  exact ⟨hend.status, hend.running⟩

/-- The only client is closed, and then the socket is to be stopped. -/
theorem goes_on_when_deserted_closed :
    let v : EpollSocket := ⟨8, 0, -1, 1⟩
    let as : List EpollSocket.Act :=
      [.check, .ready .listen, .wake, .dispatch 0, .accept true 0, .ctl true, .sweep 0,
        .check, .ready (.conn 1 true false), .wake, .dispatch 0, .pick 0, .read 0 readClose,
        .settle 0 true, .workerClose 0, .workerRelease 0, .workerRelease 0, .workerRelease 0,
        .stop]
    let bs : List EpollSocket.Act :=
      [.sweep 0, .check, .finish 0, .wake, .sweep 1, .check, .failed true, .check]
    ∃ s, v.system.exec (Epoll.start v) as = some s ∧ (v.system.exec s bs).isSome = true ∧
      v.system.Always (fun t ↦ t.status = .rejectConn ∧ ∀ ret, t.loop ≠ .ended ret) s bs := by
  intro v as bs
  obtain ⟨s, hs⟩ := Option.isSome_iff_exists.mp
    (show (v.system.exec (Epoll.start v) as).isSome = true by decide)
  have hexec : (v.system.exec (Epoll.start v) (as ++ bs)).isSome = true := by decide
  have hstate : (v.system.exec (Epoll.start v) as).map
      (fun s ↦ (s.status, s.clients, s.loop, s.workers, s.events)) =
        some (.rejectConn, 0, .handling, [.closed], []) := by decide
  rw [LabelledSystem.exec_append, hs] at hexec
  rw [hs, Option.map_some, Option.some.injEq, Prod.mk.injEq, Prod.mk.injEq, Prod.mk.injEq,
    Prod.mk.injEq] at hstate
  obtain ⟨hstatus, hclients, hloop, hworkers, hevents⟩ := hstate
  have hleaving : s.loop.leaving = none ∧ s.loop ≠ .accepting ∧ ∀ ret, s.loop ≠ .ended ret := by
    rw [hloop]
    simp
  exact ⟨s, hs, hexec, goes_on_when_deserted v hstatus hclients hleaving
    (by simp [hworkers, EpollWorker.leaving]) (by simp [hevents]) (by decide)⟩

end Epoll

end SimpleFlow
