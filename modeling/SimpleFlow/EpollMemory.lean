import SimpleFlow.ContextLife
import SimpleFlow.EpollSocket
import SimpleFlow.ServerTokens

/-!
# Every step is a turn in the life of each context

The tokens of a context are read off the state of the socket. A step of the
event loop or of a pool thread moves those of one context and leaves the others
where they are; only the search for idle clients may touch several.
-/

namespace SimpleFlow

/-- The context that an event being handled is about, until it is unregistered. -/
def EpollLoop.hand : EpollLoop → Option ℕ
  | .adding client | .writing client | .written client _ | .closing client none => some client
  | _ => none

def EpollLoop.leaving : EpollLoop → Option ℕ
  | .releasing client _ _ => some client
  | _ => none

/-- The idle clients that are still to be unregistered. -/
def EpollLoop.evictees : EpollLoop → List ℕ
  | .evicting removeEvs | .releasing _ (some removeEvs) _ => removeEvs
  | .closing client (some removeEvs) => client :: removeEvs
  | _ => []

@[simp] theorem EpollLoop.hand_handling : EpollLoop.handling.hand = none := rfl

@[simp] theorem EpollLoop.leaving_handling : EpollLoop.handling.leaving = none := rfl

@[simp] theorem EpollLoop.evictees_handling : EpollLoop.handling.evictees = [] := rfl

def EpollWorker.hand : EpollWorker → Option ℕ
  | .reading client | .answered client _ | .closing client => some client
  | _ => none

def EpollWorker.leaving : EpollWorker → Option ℕ
  | .releasing client _ => some client
  | _ => none

def EpollWorker.lingers : EpollWorker → Option ℕ
  | .finishing client => some client
  | _ => none

namespace Epoll

def workerCount (f : EpollWorker → Option ℕ) (workers : List EpollWorker) (client : ℕ) : ℕ :=
  workers.countP fun x ↦ decide (f x = some client)

/-- The tokens of a context, and its status. -/
def life (s : Epoll) (client : ℕ) : Life where
  tokens
    | .armed => (s.armed client).isSome.toNat
    | .stored => Server.eventTokens s.events client
    | .atLoop => held s.loop.hand client
    | .inHand => s.tasks.count client + workerCount EpollWorker.hand s.workers client
    | .evictee => s.loop.evictees.count client
    | .leaving => held s.loop.leaving client + workerCount EpollWorker.leaving s.workers client
    | .lingering => workerCount EpollWorker.lingers s.workers client
    | .registered => s.eclients.count client
    | .live => (s.contexts client).isSome.toNat
  reading :=
    match s.contexts client with
    | some k => decide (k.ctxStatus = .reading)
    | none => false

/-- Every context is where a context may be. -/
structure Placed (s : Epoll) : Prop where
  sound : ∀ c, (s.life c).Sound
  created : ∀ c, s.created < c → s.contexts c = none
  clients : s.clients = s.eclients.length

variable {v : EpollSocket} {s t : Epoll}

theorem workerCount_set {workers : List EpollWorker} {w : ℕ} {x : EpollWorker}
    (hw : workers[w]? = some x) (f : EpollWorker → Option ℕ) (y : EpollWorker) (c : ℕ) :
    workerCount f (workers.set w y) c + held (f x) c = workerCount f workers c + held (f y) c := by
  simpa [held, workerCount] using Slots.countP_set_add hw (fun z ↦ decide (f z = some c)) y

/-- A turn of one context, while nothing happens to the others. -/
theorem turn_of_one (client : ℕ) (hone : (s.life client).Turn (t.life client))
    (hrest : ∀ c, c ≠ client → (s.life c).Moved (t.life c) [] [] ∧
      (t.life c).reading = (s.life c).reading) (c : ℕ) : (s.life c).Turn (t.life c) := by
  by_cases hc : c = client
  · subst hc
    exact hone
  · exact .rest (hrest c hc).1 (hrest c hc).2

/-! ## The turns of the event loop -/

/-- A context that someone is at work on exists. -/
theorem Placed.context_of_pos {c : ℕ} (h : s.Placed)
    (hpos : 0 < (s.life c).tokens .stored + (s.life c).tokens .atLoop +
      (s.life c).tokens .inHand + (s.life c).tokens .evictee + (s.life c).tokens .leaving) :
    ∃ k, s.contexts c = some k := by
  obtain ⟨-, hevictee, hlive, -⟩ := h.sound c
  apply Option.isSome_iff_exists.mp
  apply Bool.toNat_eq_one.mp
  have hone := Bool.toNat_le (s.contexts c).isSome
  have htoken : (s.life c).tokens .live = (s.contexts c).isSome.toNat := rfl
  omega

/-- A connection that is in someone's hands is not armed. -/
theorem Placed.not_armed {c : ℕ} (h : s.Placed)
    (hpos : 0 < (s.life c).tokens .atLoop + (s.life c).tokens .inHand) : s.armed c = none := by
  obtain ⟨harmed, -, hlive, hone⟩ := h.sound c
  have htoken : (s.life c).tokens .armed = (s.armed c).isSome.toNat := rfl
  cases ha : s.armed c with
  | none => rfl
  | some i =>
      rw [ha, Option.isSome_some, Bool.toNat_true] at htoken
      omega

theorem Placed.registered_one {c : ℕ} (h : s.Placed)
    (hpos : 0 < (s.life c).tokens .atLoop + (s.life c).tokens .inHand +
      (s.life c).tokens .evictee) : s.eclients.count c = 1 := by
  obtain ⟨harmed, hevictee, hlive, hone⟩ := h.sound c
  have htoken : (s.life c).tokens .registered = s.eclients.count c := rfl
  omega

theorem Placed.context_of_event {client : ℕ} {epollin epollout : Bool} {events : List Event}
    (h : s.Placed) (hevents : s.events = .conn client epollin epollout :: events) :
    ∃ k, s.contexts client = some k := by
  apply h.context_of_pos
  have hstored : (s.life client).tokens .stored = Server.eventTokens events client + 1 := by
    simp [life, hevents, Server.eventTokens_cons, Event.client]
  omega

theorem turn_ready {e : Event} (hloop : s.loop = .waiting) (hmay : s.mayReport e = true) (c : ℕ) :
    (s.life c).Turn ((s.report e).life c) := by
  cases e with
  | listen =>
      refine .rest ?_ rfl
      intro p
      cases p <;> simp [life, report, Server.eventTokens_concat, Event.client]
  | conn client epollin epollout =>
      apply turn_of_one client
      · refine .reported (by simp [life, hloop, EpollLoop.evictees]) ?_ rfl
        have harmed : (s.armed client).isSome = true := by
          cases ha : s.armed client with
          | none => simp [mayReport, ha] at hmay
          | some i => rfl
        intro p
        cases p <;>
          simp [life, report, withArmed, Server.eventTokens_concat, Event.client, harmed]
      · intro c hc
        refine ⟨?_, rfl⟩
        intro p
        cases p <;>
          simp [life, report, withArmed, Server.eventTokens_concat, Event.client, hc]

theorem turn_accept {now : ℕ} (h : s.Placed) (hloop : s.loop = .accepting)
    (hstep : v.Taken s (.accept true now) t) (c : ℕ) : (s.life c).Turn (t.life c) := by
  have hnew := h.created (s.created + 1) (Nat.lt_succ_self _)
  cases hstep
  apply turn_of_one (s.created + 1)
  · refine .opened (by simp [life, hnew]) ?_ (by simp [life, withContext])
    intro p
    cases p <;>
      simp [life, withContext, hloop, EpollLoop.hand, EpollLoop.evictees, EpollLoop.leaving, hnew]
  · intro c hc
    refine ⟨?_, by simp [life, withContext, hc]⟩
    intro p
    cases p <;>
      simp [life, withContext, hloop, EpollLoop.hand, EpollLoop.evictees, EpollLoop.leaving, hc,
        Ne.symm hc, List.count_append]

theorem turn_dispatch {now : ℕ} (h : s.Placed) (hloop : s.loop = .handling)
    (hstep : v.Taken s (.dispatch now) t) (c : ℕ) : (s.life c).Turn (t.life c) := by
  cases hstep with
  | knock _ events _ hevents =>
      refine .rest ?_ rfl
      intro p
      cases p <;>
        simp [life, hevents, Server.eventTokens_cons, Event.client, hloop, EpollLoop.hand,
          EpollLoop.evictees, EpollLoop.leaving]
  | task _ client epollout events _ hevents =>
      obtain ⟨k, hk⟩ := h.context_of_event hevents
      apply turn_of_one client
      · refine .queued ?_ (by simp [life, withContext, hk])
        intro p
        cases p <;>
          simp [life, withContext, hevents, Server.eventTokens_cons, Event.client, hk,
            List.count_append]
        omega
      · intro c hc
        refine ⟨?_, by simp [life, withContext, hc]⟩
        intro p
        cases p <;>
          simp [life, withContext, hevents, Server.eventTokens_cons, Event.client, hc, Ne.symm hc,
            List.count_append]
  | full _ client epollout events _ hevents =>
      obtain ⟨k, hk⟩ := h.context_of_event hevents
      apply turn_of_one client
      · refine .refused ?_ (by simp [life, withContext, hk])
        intro p
        cases p <;>
          simp [life, withContext, hevents, Server.eventTokens_cons, Event.client, hk, hloop,
            EpollLoop.hand, EpollLoop.evictees, EpollLoop.leaving]
      · intro c hc
        refine ⟨?_, by simp [life, withContext, hc]⟩
        intro p
        cases p <;>
          simp [life, withContext, hevents, Server.eventTokens_cons, Event.client, hloop,
            EpollLoop.hand, EpollLoop.evictees, EpollLoop.leaving, hc]
  | writeable _ client events _ hevents =>
      obtain ⟨k, hk⟩ := h.context_of_event hevents
      apply turn_of_one client
      · refine .written ?_ (by simp [life, updateInteractTime, withContext, hk])
        intro p
        cases p <;>
          simp [life, updateInteractTime, withContext, hevents, Server.eventTokens_cons,
            Event.client, hk, hloop, EpollLoop.hand, EpollLoop.evictees, EpollLoop.leaving]
      · intro c hc
        refine ⟨?_, by simp [life, updateInteractTime, withContext, hc]⟩
        intro p
        cases p <;>
          simp [life, updateInteractTime, withContext, hevents, Server.eventTokens_cons,
            Event.client, hloop, EpollLoop.hand, EpollLoop.evictees, EpollLoop.leaving, hc]
  | skip _ client events _ hevents =>
      apply turn_of_one client
      · refine .skipped ?_ rfl
        intro p
        cases p <;> simp [life, hevents, Server.eventTokens_cons, Event.client]
      · intro c hc
        refine ⟨?_, rfl⟩
        intro p
        cases p <;> simp [life, hevents, Server.eventTokens_cons, Event.client, hc]

/-- The loop goes to another place and nothing else happens to the tokens. -/
theorem rest_of_loop {x y : EpollLoop} (hloop : s.loop = x) (hhand : y.hand = x.hand)
    (hleaving : y.leaving = x.leaving) (hevictees : y.evictees = x.evictees) (c : ℕ) :
    (s.life c).Turn (({ s with loop := y } : Epoll).life c) := by
  refine .rest ?_ rfl
  intro p
  cases p <;> simp [life, hloop, hhand, hleaving, hevictees]

theorem turn_ctl {armed : ℕ → Option Interest} {client : ℕ} {x : EpollLoop} (h : s.Placed)
    (hloop : s.loop = x) (hhand : x.hand = some client) (hleaving : x.leaving = none)
    (hevictees : x.evictees = []) (harmed : EpollSocket.ArmedNext s client armed) (c : ℕ) :
    (s.life c).Turn (({ s with armed := armed, loop := .handling } : Epoll).life c) := by
  subst hloop
  have hheld : (s.life client).tokens .atLoop = 1 := by
    simp [life, hhand]
  have hnone : s.armed client = none := h.not_armed (by omega)
  apply turn_of_one client
  · rcases harmed with rfl | ⟨i, rfl⟩
    · refine .lost ?_ rfl
      intro p
      cases p <;> simp [life, hhand, hleaving, hevictees]
    · refine .rearmed ?_ rfl
      intro p
      cases p <;> simp [life, hhand, hleaving, hevictees, hnone]
  · intro c hc
    refine ⟨?_, rfl⟩
    intro p
    rcases harmed with rfl | ⟨i, rfl⟩ <;> cases p <;>
      simp [life, hhand, hleaving, hevictees, hc]

theorem count_unregister (client c : ℕ) :
    (s.unregister client).eclients.count c =
      s.eclients.count c - if c = client then 1 else 0 := by
  rw [unregister]
  simp only [List.count_erase, beq_iff_eq]
  by_cases hc : c = client
  · simp [hc]
  · simp [hc, Ne.symm hc]

theorem turn_close {client : ℕ} {removeEvs : Option (List ℕ)} (h : s.Placed)
    (hloop : s.loop = .closing client removeEvs) (c : ℕ) :
    (s.life c).Turn
      (({ s.unregister client with loop := .releasing client removeEvs .counting } : Epoll).life
        c) := by
  apply turn_of_one client
  · cases removeEvs with
    | none =>
        have hheld : (s.life client).tokens .atLoop = 1 := by
          simp [life, hloop, EpollLoop.hand]
        have hnone := h.not_armed (c := client) (by omega)
        have hone := h.registered_one (c := client) (by omega)
        refine .closed .atLoop (.inl rfl) ?_ rfl
        intro p
        cases p with
        | registered => simp [life, count_unregister, hone]
        | _ =>
            simp [life, unregister, withArmed, hloop, hnone, EpollLoop.hand, EpollLoop.evictees,
              EpollLoop.leaving]
            try omega
    | some removeEvs =>
        have hheld : 0 < (s.life client).tokens .evictee := by
          simp [life, hloop, EpollLoop.evictees]
        have hone := h.registered_one (c := client) (by omega)
        cases ha : s.armed client with
        | none =>
            refine .evicted (by simp [life, ha]) ?_ rfl
            intro p
            cases p with
            | registered => simp [life, count_unregister, hone]
            | _ =>
                simp [life, unregister, withArmed, hloop, ha, EpollLoop.hand, EpollLoop.evictees,
                  EpollLoop.leaving]
                try omega
        | some i =>
            refine .disarmed ?_ rfl
            intro p
            cases p with
            | registered => simp [life, count_unregister, hone]
            | _ =>
                simp [life, unregister, withArmed, hloop, ha, EpollLoop.hand, EpollLoop.evictees,
                  EpollLoop.leaving]
                try omega
  · intro c hc
    refine ⟨?_, rfl⟩
    intro p
    cases p with
    | registered => simp [life, count_unregister, hc]
    | _ =>
        cases removeEvs <;>
          simp [life, unregister, withArmed, hloop, EpollLoop.hand, EpollLoop.evictees,
            EpollLoop.leaving, hc, Ne.symm hc]

theorem turn_release {client : ℕ} {removeEvs : Option (List ℕ)} {r : Release}
    (hloop : s.loop = .releasing client removeEvs r) (h : s.Placed) (c : ℕ) :
    (s.life c).Turn
      (({ s.withContext client none with loop := EpollLoop.back removeEvs } : Epoll).life c) := by
  apply turn_of_one client
  · have hleaving : 0 < (s.life client).tokens .leaving := by
      simp only [life, hloop, EpollLoop.leaving, held_some, if_true]
      omega
    obtain ⟨k, hk⟩ := h.context_of_pos (c := client) (by omega)
    refine .deleted ?_ (by simp [life, withContext])
    intro p
    cases p <;> cases removeEvs <;>
      simp [life, withContext, hloop, hk, EpollLoop.back, EpollLoop.hand,
        EpollLoop.evictees, EpollLoop.leaving]
    all_goals omega
  · intro c hc
    refine ⟨?_, by simp [life, withContext, hc]⟩
    intro p
    cases p <;> cases removeEvs <;>
      simp [life, withContext, hloop, EpollLoop.back, EpollLoop.hand,
        EpollLoop.evictees, EpollLoop.leaving, hc]

theorem turn_sweep {now : ℕ} (h : s.Placed) (hloop : s.loop = .handling) (hevents : s.events = [])
    (hquiet : v.maxIdleSec ≤ 0 ∨
      ∀ c, 0 < (s.life c).tokens .inHand → (s.life c).reading = true) (c : ℕ) :
    (s.life c).Turn ((v.clearIdleClients s now).life c) := by
  unfold EpollSocket.clearIdleClients
  split
  · exact rest_of_loop hloop rfl rfl rfl c
  · rename_i hidle
    have hreads := hquiet.resolve_left hidle
    by_cases hmem : c ∈ s.idleClients v.maxIdleSec now
    · obtain ⟨hregistered, htest⟩ := List.mem_filter.mp hmem
      obtain ⟨k, hk⟩ : ∃ k, s.contexts c = some k := by
        cases hk : s.contexts c with
        | none => simp [hk] at htest
        | some k => exact ⟨k, rfl⟩
      have hstatus : (s.life c).reading = false := by
        simp only [hk, decide_eq_true_eq] at htest
        simp [life, hk, htest.2]
      have hhand : (s.life c).tokens .inHand = 0 := by
        by_contra hpos
        rw [hreads c (Nat.pos_of_ne_zero hpos)] at hstatus
        cases hstatus
      have hone : s.eclients.count c = 1 := by
        have hpos : 0 < s.eclients.count c := List.count_pos_iff.mpr hregistered
        have hlive := (h.sound c).live
        have hmax := (h.sound c).one
        have htoken : (s.life c).tokens .registered = s.eclients.count c := rfl
        omega
      have hcount : (s.idleClients v.maxIdleSec now).count c = 1 := by
        rw [idleClients, List.count_filter, hone]
        exact htest
      have hplaces : (s.life c).tokens .stored + (s.life c).tokens .atLoop +
          (s.life c).tokens .inHand + (s.life c).tokens .evictee = 0 := by
        rw [hhand]
        simp [life, hevents, hloop, Server.eventTokens]
      refine .idle hstatus hplaces hone ?_ rfl
      intro p
      cases p <;> simp [life, hloop, EpollLoop.hand, EpollLoop.evictees, EpollLoop.leaving, hcount]
    · have hcount : (s.idleClients v.maxIdleSec now).count c = 0 := List.count_eq_zero.mpr hmem
      refine .rest ?_ rfl
      intro p
      cases p <;> simp [life, hloop, EpollLoop.hand, EpollLoop.evictees, EpollLoop.leaving, hcount]

/-! ## The turns of the pool threads -/

variable {w client : ℕ}

theorem turn_pick {tasks : List ℕ} (hw : s.workers[w]? = some .idle)
    (htasks : s.tasks = client :: tasks) (c : ℕ) :
    (s.life c).Turn
      ((({ s with tasks := tasks } : Epoll).withWorker w (.reading client)).life c) := by
  refine .rest ?_ rfl
  have hhand := workerCount_set hw EpollWorker.hand (.reading client) c
  have hleaving := workerCount_set hw EpollWorker.leaving (.reading client) c
  have hlingers := workerCount_set hw EpollWorker.lingers (.reading client) c
  intro p
  simp only [EpollWorker.hand, EpollWorker.leaving, EpollWorker.lingers, held_none,
    Nat.add_zero] at hhand hleaving hlingers
  cases p <;> simp [life, withWorker, hhand, hleaving, hlingers, htasks, Server.count_tasks_cons]
  omega

/-- The thread keeps the same hands on the same context. -/
theorem rest_of_worker {x y : EpollWorker} (hw : s.workers[w]? = some x) (hhand : y.hand = x.hand)
    (hleaving : y.leaving = x.leaving) (hlingers : y.lingers = x.lingers) (c : ℕ) :
    (s.life c).Turn ((s.withWorker w y).life c) := by
  refine .rest ?_ rfl
  have hcount := fun f ↦ workerCount_set hw f y c
  have hhands := hcount EpollWorker.hand
  have hleavings := hcount EpollWorker.leaving
  have hlinger := hcount EpollWorker.lingers
  rw [hhand] at hhands
  rw [hleaving] at hleavings
  rw [hlingers] at hlinger
  intro p
  cases p <;> simp [life, withWorker] <;> omega

theorem turn_settle {ret : Int} {armed : ℕ → Option Interest} (h : s.Placed)
    (hw : s.workers[w]? = some (.answered client ret))
    (harmed : EpollSocket.ArmedNext s client armed) (c : ℕ) :
    (s.life c).Turn
      (({ s.withWorker w (.finishing client) with armed := armed } : Epoll).life c) := by
  have hhand := fun c ↦ workerCount_set hw EpollWorker.hand (.finishing client) c
  have hleaving := fun c ↦ workerCount_set hw EpollWorker.leaving (.finishing client) c
  have hlingers := fun c ↦ workerCount_set hw EpollWorker.lingers (.finishing client) c
  simp only [EpollWorker.hand, EpollWorker.leaving, EpollWorker.lingers, held_none, held_some,
    Nat.add_zero] at hhand hleaving hlingers
  have hnone : s.armed client = none := by
    apply h.not_armed
    have hpos := hhand client
    simp only [if_true] at hpos
    simp only [life]
    omega
  apply turn_of_one client
  · have hhere := hhand client
    have hlinger := hlingers client
    simp only [if_true] at hhere hlinger
    rcases harmed with rfl | ⟨i, rfl⟩
    · refine .dropped ?_ rfl
      intro p
      cases p <;> simp [life, withWorker, hleaving] <;> omega
    · refine .answered ?_ rfl
      intro p
      cases p <;> simp [life, withWorker, hleaving, hnone] <;> omega
  · intro c hc
    refine ⟨?_, rfl⟩
    have hhere := hhand c
    have hlinger := hlingers c
    simp only [if_neg hc, Nat.add_zero] at hhere hlinger
    intro p
    rcases harmed with rfl | ⟨i, rfl⟩ <;> cases p <;>
      simp [life, withWorker, hleaving, hhere, hlinger, hc]

theorem turn_workerClose (h : s.Placed) (hw : s.workers[w]? = some (.closing client)) (c : ℕ) :
    (s.life c).Turn
      (((s.unregister client).withWorker w (.releasing client .counting)).life c) := by
  have hhand := fun c ↦ workerCount_set hw EpollWorker.hand (.releasing client .counting) c
  have hleaving := fun c ↦ workerCount_set hw EpollWorker.leaving (.releasing client .counting) c
  have hlingers := fun c ↦ workerCount_set hw EpollWorker.lingers (.releasing client .counting) c
  simp only [EpollWorker.hand, EpollWorker.leaving, EpollWorker.lingers, held_none, held_some,
    Nat.add_zero] at hhand hleaving hlingers
  have hheld : 0 < (s.life client).tokens .inHand := by
    have hpos := hhand client
    simp only [if_true] at hpos
    simp only [life]
    omega
  have hnone := h.not_armed (c := client) (by omega)
  have hone := h.registered_one (c := client) (by omega)
  apply turn_of_one client
  · have hhere := hhand client
    have hleave := hleaving client
    simp only [if_true] at hhere hleave
    refine .closed .inHand (.inr rfl) ?_ rfl
    intro p
    cases p with
    | registered => simp [life, withWorker, count_unregister, hone]
    | _ => simp [life, withWorker, unregister, withArmed, hlingers, hnone] <;> omega
  · intro c hc
    refine ⟨?_, rfl⟩
    have hhere := hhand c
    have hleave := hleaving c
    simp only [if_neg hc, Nat.add_zero] at hhere hleave
    intro p
    cases p with
    | registered => simp [life, withWorker, count_unregister, hc]
    | _ => simp [life, withWorker, unregister, withArmed, hlingers, hhere, hleave, hc]

theorem turn_workerRelease {r : Release} (h : s.Placed)
    (hw : s.workers[w]? = some (.releasing client r)) (c : ℕ) :
    (s.life c).Turn (((s.withContext client none).withWorker w .closed).life c) := by
  have hhand := fun c ↦ workerCount_set hw EpollWorker.hand .closed c
  have hleaving := fun c ↦ workerCount_set hw EpollWorker.leaving .closed c
  have hlingers := fun c ↦ workerCount_set hw EpollWorker.lingers .closed c
  simp only [EpollWorker.hand, EpollWorker.leaving, EpollWorker.lingers, held_none, held_some,
    Nat.add_zero] at hhand hleaving hlingers
  have hheld : 0 < (s.life client).tokens .leaving := by
    have hpos := hleaving client
    simp only [if_true] at hpos
    simp only [life]
    omega
  obtain ⟨k, hk⟩ := h.context_of_pos (c := client) (by omega)
  apply turn_of_one client
  · have hleave := hleaving client
    simp only [if_true] at hleave
    refine .deleted ?_ (by simp [life, withWorker, withContext])
    intro p
    cases p <;> simp [life, withWorker, withContext, hhand, hlingers, hk]
    omega
  · intro c hc
    refine ⟨?_, by simp [life, withWorker, withContext, hc]⟩
    have hleave := hleaving c
    simp only [if_neg hc, Nat.add_zero] at hleave
    intro p
    cases p <;> simp [life, withWorker, withContext, hhand, hlingers, hleave, hc]

theorem turn_finish (hw : s.workers[w]? = some (.finishing client)) (c : ℕ) :
    (s.life c).Turn (((s.withContext client ((s.contexts client).map fun k ↦
      { k with ctxStatus := .readOver })).withWorker w .idle).life c) := by
  have hhand := fun c ↦ workerCount_set hw EpollWorker.hand .idle c
  have hleaving := fun c ↦ workerCount_set hw EpollWorker.leaving .idle c
  have hlingers := fun c ↦ workerCount_set hw EpollWorker.lingers .idle c
  simp only [EpollWorker.hand, EpollWorker.leaving, EpollWorker.lingers, held_none, held_some,
    Nat.add_zero] at hhand hleaving hlingers
  apply turn_of_one client
  · have hlinger := hlingers client
    simp only [if_true] at hlinger
    refine .finished ?_ ?_
    · intro p
      cases p <;> simp [life, withWorker, withContext, hhand, hleaving]
      omega
    · cases s.contexts client <;> simp [life, withWorker, withContext]
  · intro c hc
    refine ⟨?_, by simp [life, withWorker, withContext, hc]⟩
    have hlinger := hlingers c
    simp only [if_neg hc, Nat.add_zero] at hlinger
    intro p
    cases p <;> simp [life, withWorker, withContext, hhand, hleaving, hlinger, hc]

end Epoll

end SimpleFlow
