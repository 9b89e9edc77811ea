import SimpleFlow.FlowServer
import SimpleFlow.Library.Slots

/-!
# One token for every connection

A registered connection is in one place at a time: armed in epoll, in the
`events` array, in the hands of the event loop, in the queue of tasks, or in
the hands of a pool thread that has not yet acted on the answer. `Ledger` says
how one step moves these tokens. That a connection never has two needs no more
than that; that it never has none depends on which steps drop one.
-/

namespace SimpleFlow

/-- The connection that the thread may still read from, re-arm or close. A
thread that has done so no longer holds it. -/
def Worker.holder : Worker → Option ℕ
  | .finishing _ => none
  | x => x.client

def held (place : Option ℕ) (client : ℕ) : ℕ := if place = some client then 1 else 0

@[simp] theorem held_none (client : ℕ) : held none client = 0 := rfl

@[simp] theorem held_some (client c : ℕ) : held (some client) c = if c = client then 1 else 0 := by
  simp [held, eq_comm]

def Conn.token (k : Conn) : ℕ := if k.armed.isSome then 1 else 0

@[simp] theorem Conn.token_arm (k : Conn) (i : Interest) : (k.arm i true).token = 1 := rfl

@[simp] theorem Conn.arm_false (k : Conn) (i : Interest) : k.arm i false = k := rfl

@[simp] theorem Conn.token_close (k : Conn) : k.close.token = 0 := rfl

@[simp] theorem LoopPc.client_handling : LoopPc.handling.client = none := rfl

@[simp] theorem LoopPc.client_waiting : LoopPc.waiting.client = none := rfl

@[simp] theorem Worker.holder_idle : Worker.idle.holder = none := rfl

@[simp] theorem Worker.holder_reading (client : ℕ) : (Worker.reading client).holder = some client :=
  rfl

@[simp] theorem Worker.holder_calling (client : ℕ) (buffer : Bytes) (size : Int) :
    (Worker.calling client buffer size).holder = some client := rfl

@[simp] theorem Worker.holder_answered (client : ℕ) (ret : Int) :
    (Worker.answered client ret).holder = some client := rfl

@[simp] theorem Worker.holder_finishing (client : ℕ) : (Worker.finishing client).holder = none :=
  rfl

@[simp] theorem Worker.holder_faulted (client : ℕ) (f : Fault) :
    (Worker.faulted client f).holder = some client := rfl

@[simp] theorem Conn.registered_arm (k : Conn) (i : Interest) (ok : Bool) :
    (k.arm i ok).registered = k.registered := by
  cases ok <;> rfl

namespace Server

variable {σ : Type}

def eventTokens (events : List Event) (client : ℕ) : ℕ :=
  events.countP fun e ↦ decide (e.client = some client)

def workerTokens (workers : List Worker) (client : ℕ) : ℕ :=
  workers.countP fun x ↦ decide (x.holder = some client)

/-- How many places a connection is in. -/
def tokens (s : Server σ) (client : ℕ) : ℕ :=
  (s.conns client).token + eventTokens s.events client + held s.loop.client client +
    s.tasks.count client + workerTokens s.workers client

theorem eventTokens_concat (events : List Event) (e : Event) (c : ℕ) :
    eventTokens (events ++ [e]) c = eventTokens events c + held e.client c := by
  simp [eventTokens, held, List.countP_append, List.countP_singleton]

theorem eventTokens_cons (events : List Event) (e : Event) (c : ℕ) :
    eventTokens (e :: events) c = eventTokens events c + held e.client c := by
  simp [eventTokens, held, List.countP_cons]

theorem count_tasks_concat (tasks : List ℕ) (client c : ℕ) :
    (tasks ++ [client]).count c = tasks.count c + held (some client) c := by
  simp [held, List.count_append, List.count_singleton]

theorem count_tasks_cons (tasks : List ℕ) (client c : ℕ) :
    (client :: tasks).count c = tasks.count c + held (some client) c := by
  simp [held, List.count_cons]

theorem workerTokens_set {workers : List Worker} {w : ℕ} {x : Worker} (h : workers[w]? = some x)
    (y : Worker) (c : ℕ) :
    workerTokens (workers.set w y) c + held x.holder c =
      workerTokens workers c + held y.holder c := by
  simpa [held, workerTokens] using Slots.countP_set_add h (fun z ↦ decide (z.holder = some c)) y

/-- The steps that leave a connection registered and in no place: an event with
neither bit, an `epoll_ctl` that fails to re-arm, an answer that is none of
the three. -/
def Drops (s : Server σ) : Act → Prop
  | .dispatch _ => ∃ client, s.events.head? = some (.conn client false false)
  | .ctl ok => ok = false ∧ ∃ client, s.loop = .written client
  | .settle w ok => ∀ client ret, s.workers[w]? = some (.answered client ret) →
      ret ≠ readClose ∧ (ok = true → ret ≠ readContinue ∧ ret ≠ readOver)
  | _ => False

/-- Every connection keeps its token and stays registered or not. -/
structure Unmoved (s t : Server σ) : Prop where
  tokens : ∀ c, t.tokens c = s.tokens c
  registered : ∀ c, (t.conns c).registered = (s.conns c).registered
  accepted : t.accepted = s.accepted

theorem Unmoved.trans {s t u : Server σ} (h : s.Unmoved t) (h' : t.Unmoved u) : s.Unmoved u :=
  ⟨fun c ↦ (h'.tokens c).trans (h.tokens c), fun c ↦ (h'.registered c).trans (h.registered c),
    h'.accepted.trans h.accepted⟩

/-- What a step does to the tokens and to who is registered. -/
inductive Ledger (s : Server σ) (a : Act) (t : Server σ) : Prop
  | moved (hkeeps : ¬s.Drops a) (h : s.Unmoved t)
  | opened (hkeeps : ¬s.Drops a)
      (htok : ∀ c, t.tokens c = s.tokens c + if c = s.accepted + 1 then 1 else 0)
      (hreg : ∀ c, (t.conns c).registered =
        if c = s.accepted + 1 then true else (s.conns c).registered)
      (hacc : t.accepted = s.accepted + 1)
  | closed (client : ℕ) (hkeeps : ¬s.Drops a) (hheld : 0 < s.tokens client)
      (htok : ∀ c, t.tokens c = if c = client then 0 else s.tokens c)
      (hreg : ∀ c, (t.conns c).registered =
        if c = client then false else (s.conns c).registered)
      (hacc : t.accepted = s.accepted)
  | dropped (client : ℕ) (hdrops : s.Drops a) (hheld : 0 < s.tokens client)
      (htok : ∀ c, t.tokens c = if c = client then 0 else s.tokens c)
      (hreg : ∀ c, (t.conns c).registered = (s.conns c).registered)
      (hacc : t.accepted = s.accepted)

/-- No connection is in two places, and only a registered one is in any. -/
structure Exclusive (s : Server σ) : Prop where
  le_one : ∀ c, s.tokens c ≤ 1
  registered : ∀ c, 0 < s.tokens c → (s.conns c).registered = true
  accepted : ∀ c, s.accepted < c → (s.conns c).registered = false

theorem Exclusive.start (v : FlowServer σ) (handler : σ) : (Server.start v handler).Exclusive := by
  have htok : ∀ c, (Server.start v handler).tokens c = 0 := by
    intro c
    simp [tokens, eventTokens, workerTokens, Server.start, Conn.none, Conn.token, LoopPc.client,
      List.countP_replicate, Worker.holder, Worker.client]
  exact ⟨fun c ↦ by simp [htok c], fun c hc ↦ by simp [htok c] at hc, fun _ _ ↦ rfl⟩

theorem Exclusive.ledger {s t : Server σ} {a : Act} (h : s.Exclusive) (hl : s.Ledger a t) :
    t.Exclusive := by
  cases hl with
  | moved hkeeps hm =>
      refine ⟨fun c ↦ hm.tokens c ▸ h.le_one c, fun c hc ↦ ?_, fun c hc ↦ ?_⟩
      · rw [hm.registered]
        exact h.registered c (hm.tokens c ▸ hc)
      · rw [hm.registered]
        exact h.accepted c (hm.accepted ▸ hc)
  | opened hkeeps htok hreg hacc =>
      have hnew : s.tokens (s.accepted + 1) = 0 := by
        by_contra hne
        have hreg := h.registered _ (Nat.pos_of_ne_zero hne)
        simp [h.accepted _ (Nat.lt_succ_self _)] at hreg
      refine ⟨fun c ↦ ?_, fun c hc ↦ ?_, fun c hc ↦ ?_⟩
      · rw [htok]
        by_cases hc : c = s.accepted + 1
        · simp [hc, hnew]
        · simpa [hc] using h.le_one c
      · rw [hreg]
        by_cases hca : c = s.accepted + 1
        · simp [hca]
        · have hpos := hc
          rw [htok] at hpos
          simpa [hca] using h.registered c (by simpa [hca] using hpos)
      · rw [hreg, if_neg (by omega)]
        exact h.accepted c (by omega)
  | closed client hkeeps hheld htok hreg hacc =>
      refine ⟨fun c ↦ ?_, fun c hc ↦ ?_, fun c hc ↦ ?_⟩
      · rw [htok]
        split
        · exact Nat.zero_le 1
        · exact h.le_one c
      · rw [htok] at hc
        rw [hreg]
        split at hc
        · omega
        · rename_i hne
          simpa [hne] using h.registered c hc
      · rw [hreg]
        split
        · rfl
        · exact h.accepted c (hacc ▸ hc)
  | dropped client hdrops hheld htok hreg hacc =>
      refine ⟨fun c ↦ ?_, fun c hc ↦ ?_, fun c hc ↦ ?_⟩
      · rw [htok]
        split
        · exact Nat.zero_le 1
        · exact h.le_one c
      · rw [htok] at hc
        rw [hreg]
        split at hc
        · omega
        · exact h.registered c hc
      · rw [hreg]
        exact h.accepted c (hacc ▸ hc)

/-! ## Every step keeps the ledger -/

section Steps

variable {s : Server σ}

@[simp] theorem withConn_conns_self (client : ℕ) (k : Conn) :
    (s.withConn client k).conns client = k := by
  simp [withConn]

@[simp] theorem withConn_conns_of_ne {client c : ℕ} (h : c ≠ client) (k : Conn) :
    (s.withConn client k).conns c = s.conns c := by
  simp [withConn, h]

@[simp] theorem withConn_events (client : ℕ) (k : Conn) :
    (s.withConn client k).events = s.events := rfl

@[simp] theorem withConn_loop (client : ℕ) (k : Conn) : (s.withConn client k).loop = s.loop := rfl

@[simp] theorem withConn_tasks (client : ℕ) (k : Conn) : (s.withConn client k).tasks = s.tasks :=
  rfl

@[simp] theorem withConn_workers (client : ℕ) (k : Conn) :
    (s.withConn client k).workers = s.workers := rfl

@[simp] theorem withConn_accepted (client : ℕ) (k : Conn) :
    (s.withConn client k).accepted = s.accepted := rfl

@[simp] theorem withWorker_conns (w : ℕ) (x : Worker) : (s.withWorker w x).conns = s.conns := rfl

theorem registered_withConn (client : ℕ) (k : Conn) (c : ℕ) :
    ((s.withConn client k).conns c).registered =
      if c = client then k.registered else (s.conns c).registered := by
  by_cases hc : c = client
  · subst hc
    simp
  · simp [hc]

theorem tokens_withConn (s : Server σ) (client : ℕ) (k : Conn) (c : ℕ) :
    (s.withConn client k).tokens c + (if c = client then (s.conns client).token else 0) =
      s.tokens c + (if c = client then k.token else 0) := by
  by_cases hc : c = client
  · subst hc
    simp only [tokens, withConn_conns_self, withConn_events, withConn_loop, withConn_tasks,
      withConn_workers, if_true]
    omega
  · simp [tokens, hc]

theorem tokens_withWorker {w : ℕ} {x : Worker} (h : s.workers[w]? = some x) (y : Worker) (c : ℕ) :
    (s.withWorker w y).tokens c + held x.holder c = s.tokens c + held y.holder c := by
  have hset := workerTokens_set h y c
  simp only [tokens, withWorker]
  omega

/-- A connection that the loop, a thread, the queue or an event holds is not
armed. -/
theorem Exclusive.token_eq_zero (h : s.Exclusive) {client : ℕ}
    (hheld : (s.conns client).token < s.tokens client) : (s.conns client).token = 0 := by
  have hone := h.le_one client
  omega

/-- A step that takes a connection from the loop, a thread or an event, and
gives it back to epoll, closes it, or drops it. -/
theorem Exclusive.release (h : s.Exclusive) {a : Act} {t : Server σ} {client : ℕ} {k : Conn}
    (hheld : (s.conns client).token < s.tokens client)
    (htok : ∀ c, t.tokens c + (if c = client then 1 else 0) =
      s.tokens c + if c = client then k.token else 0)
    (hreg : ∀ c, (t.conns c).registered = if c = client then k.registered else
      (s.conns c).registered) (hacc : t.accepted = s.accepted)
    (hk : ¬s.Drops a ∧ (k = (s.conns client).close ∨ ∃ i, k = (s.conns client).arm i true) ∨
      s.Drops a ∧ k = s.conns client) : s.Ledger a t := by
  have hone : s.tokens client = 1 := by
    have hle := h.le_one client
    omega
  have hsame : k.registered = (s.conns client).registered →
      ∀ c, (t.conns c).registered = (s.conns c).registered := by
    intro hkreg c
    rw [hreg]
    split
    · rename_i hc
      rw [hc, hkreg]
    · rfl
  have hnone : k.token = 0 → ∀ c, t.tokens c = if c = client then 0 else s.tokens c := by
    intro hktok c
    have hc := htok c
    split
    · rename_i heq
      simp only [heq, if_true, hktok, hone] at hc
      rw [heq]
      omega
    · rename_i hne
      simpa [hne] using hc
  rcases hk with ⟨hkeeps, rfl | ⟨i, rfl⟩⟩ | ⟨hdrops, rfl⟩
  · exact .closed client hkeeps (by omega) (hnone rfl) hreg hacc
  · refine .moved hkeeps ⟨fun c ↦ ?_, hsame (Conn.registered_arm _ _ _), hacc⟩
    have hc := htok c
    rw [Conn.token_arm] at hc
    omega
  · exact .dropped client hdrops (by omega) (hnone (h.token_eq_zero hheld)) (hsame rfl) hacc

theorem unmoved_report {e : Event} (hmay : s.mayReport e = true) : s.Unmoved (s.report e) := by
  cases e with
  | listen =>
      refine ⟨fun c ↦ ?_, fun _ ↦ rfl, rfl⟩
      simp [report, tokens, eventTokens_concat, Event.client]
  | conn client epollin epollout =>
      have harmed : (s.conns client).token = 1 := by
        simp only [mayReport] at hmay
        cases harm : (s.conns client).armed with
        | none => simp [harm] at hmay
        | some i => simp [Conn.token, harm]
      refine ⟨fun c ↦ ?_, fun c ↦ ?_, rfl⟩
      · simp only [report]
        by_cases hc : c = client
        · subst hc
          simp only [tokens, withConn_conns_self, withConn_events, withConn_loop, withConn_tasks,
            withConn_workers, eventTokens_concat, Event.client, held_some, if_true, harmed]
          simp only [Conn.token, Option.isSome_none]
          simp
          omega
        · simp [tokens, hc, eventTokens_concat, Event.client]
      · simp only [report, registered_withConn]
        split
        · rename_i hc
          rw [hc]
        · rfl

theorem ledger_handleEvent (h : s.Exclusive) {e : Event} {events : List Event}
    (hloop : s.loop = .handling) (hevents : s.events = e :: events) (ok : Bool) :
    s.Ledger (.dispatch ok) (handleEvent { s with events := events } ok e) := by
  have hkeeps : (∀ client, e ≠ .conn client false false) → ¬s.Drops (.dispatch ok) := by
    rintro hne ⟨client, hhead⟩
    rw [hevents] at hhead
    exact hne client (Option.some.inj hhead)
  cases e with
  | listen =>
      cases ok with
      | false =>
          refine .moved (hkeeps (by simp)) ⟨fun c ↦ ?_, fun _ ↦ rfl, rfl⟩
          simp [handleEvent, tokens, hevents, eventTokens_cons, Event.client]
      | true =>
          refine .opened (hkeeps (by simp)) (fun c ↦ ?_) (fun c ↦ registered_withConn _ _ c) rfl
          by_cases hc : c = s.accepted + 1
          · subst hc
            simp [handleEvent, tokens, hevents, hloop, eventTokens_cons, Event.client,
              LoopPc.client, Conn.token]
            omega
          · simp [handleEvent, tokens, hevents, hloop, eventTokens_cons, Event.client,
              LoopPc.client, hc]
  | conn client epollin epollout =>
      cases epollin with
      | true =>
          refine .moved (hkeeps (by simp)) ⟨fun c ↦ ?_, fun _ ↦ rfl, rfl⟩
          have htasks := count_tasks_concat s.tasks client c
          simp [handleEvent, addTask, taskSizeLimit, tokens, hevents, eventTokens_cons,
            Event.client] at htasks ⊢
          omega
      | false =>
          cases epollout with
          | true =>
              refine .moved (hkeeps (by simp)) ⟨fun c ↦ ?_, fun _ ↦ rfl, rfl⟩
              simp [handleEvent, tokens, hevents, hloop, eventTokens_cons, Event.client,
                LoopPc.client]
              omega
          | false =>
              have hheld : (s.conns client).token < s.tokens client := by
                simp [tokens, hevents, eventTokens_cons, Event.client]
                omega
              refine h.release (k := s.conns client) hheld (fun c ↦ ?_) (fun c ↦ ?_) rfl
                (.inr ⟨⟨client, by simp [hevents]⟩, rfl⟩)
              · by_cases hc : c = client
                · subst hc
                  have hzero := h.token_eq_zero hheld
                  simp [handleEvent, tokens, hevents, eventTokens_cons, Event.client] at hzero ⊢
                  omega
                · simp [handleEvent, tokens, hevents, eventTokens_cons, Event.client, hc]
              · by_cases hc : c = client
                · subst hc
                  simp [handleEvent]
                · simp [handleEvent, hc]

theorem ledger_ctl (h : s.Exclusive) {client : ℕ} {k : Conn} {ok : Bool}
    (hclient : s.loop.client = some client)
    (hk : s.loop = .adding client ∧
        k = (if ok then (s.conns client).arm .input true else (s.conns client).close) ∨
      s.loop = .written client ∧ k = (s.conns client).arm .input ok) :
    s.Ledger (.ctl ok) { s.withConn client k with loop := .handling } := by
  have hheld : (s.conns client).token < s.tokens client := by
    simp [tokens, hclient]
    omega
  have hzero := h.token_eq_zero hheld
  refine h.release hheld (fun c ↦ ?_) (fun c ↦ registered_withConn client k c) rfl ?_
  · by_cases hc : c = client
    · subst hc
      simp [tokens, hclient]
      omega
    · simp [tokens, hclient, hc]
  · rcases hk with ⟨hloop, rfl⟩ | ⟨hloop, rfl⟩
    · refine .inl ⟨by simp [Drops, hloop], ?_⟩
      cases ok with
      | true => exact .inr ⟨.input, rfl⟩
      | false => exact .inl rfl
    · cases ok with
      | true => exact .inl ⟨by simp [Drops], .inr ⟨.input, rfl⟩⟩
      | false => exact .inr ⟨⟨rfl, client, hloop⟩, rfl⟩

theorem ledger_settled (h : s.Exclusive) {w client : ℕ} {ret : Int}
    (hw : s.workers[w]? = some (.answered client ret)) (ok : Bool) :
    s.Ledger (.settle w ok) (s.settled w client ret ok) := by
  have hheld : (s.conns client).token < s.tokens client := by
    have hpos := Slots.countP_pos_of_getElem? hw
      (p := fun x ↦ decide (x.holder = some client)) (by simp)
    simp only [tokens, workerTokens]
    omega
  have hrelease : ∀ k, (¬s.Drops (.settle w ok) ∧
        (k = (s.conns client).close ∨ ∃ i, k = (s.conns client).arm i true) ∨
      s.Drops (.settle w ok) ∧ k = s.conns client) →
      s.Ledger (.settle w ok) ((s.withWorker w (.finishing client)).withConn client k) := by
    intro k hk
    refine h.release hheld (fun c ↦ ?_) (fun c ↦ registered_withConn client k c) rfl hk
    have hconn := tokens_withConn (s.withWorker w (.finishing client)) client k c
    have hworker := tokens_withWorker hw (.finishing client) c
    have hzero := h.token_eq_zero hheld
    simp only [withWorker_conns, Worker.holder_answered, Worker.holder_finishing, held_some,
      held_none, hzero] at hconn hworker
    split at hconn
    · simp_all
      omega
    · simp_all
  have hdrops : s.Drops (.settle w ok) ↔
      ret ≠ readClose ∧ (ok = true → ret ≠ readContinue ∧ ret ≠ readOver) := by
    simp [Drops, hw]
  unfold settled
  by_cases hclose : ret = readClose
  · rw [if_pos hclose]
    exact hrelease _ (.inl ⟨by simp [hdrops, hclose], .inl rfl⟩)
  rw [if_neg hclose]
  by_cases hcontinue : ret = readContinue
  · rw [if_pos hcontinue]
    cases ok with
    | true => exact hrelease _ (.inl ⟨by simp [hdrops, hcontinue], .inr ⟨.input, rfl⟩⟩)
    | false => exact hrelease _ (.inr ⟨by simp [hdrops, hclose], rfl⟩)
  rw [if_neg hcontinue]
  by_cases hover : ret = readOver
  · rw [if_pos hover]
    cases ok with
    | true => exact hrelease _ (.inl ⟨by simp [hdrops, hover], .inr ⟨.output, rfl⟩⟩)
    | false => exact hrelease _ (.inr ⟨by simp [hdrops, hclose], rfl⟩)
  rw [if_neg hover]
  have hsame : s.withWorker w (.finishing client) =
      (s.withWorker w (.finishing client)).withConn client (s.conns client) := by
    simp [withConn, withWorker]
  rw [hsame]
  exact hrelease _ (.inr ⟨hdrops.mpr ⟨hclose, fun _ ↦ ⟨hcontinue, hover⟩⟩, rfl⟩)

theorem unmoved_withWorker {w : ℕ} {x y : Worker} (hw : s.workers[w]? = some x)
    (hxy : y.holder = x.holder) : s.Unmoved (s.withWorker w y) := by
  refine ⟨fun c ↦ ?_, fun _ ↦ rfl, rfl⟩
  have hworker := tokens_withWorker hw y c
  rw [hxy] at hworker
  omega

theorem unmoved_withConn {client : ℕ} {k : Conn} (harmed : k.armed = (s.conns client).armed)
    (hreg : k.registered = (s.conns client).registered) : s.Unmoved (s.withConn client k) := by
  refine ⟨fun c ↦ ?_, fun c ↦ ?_, rfl⟩
  · have hconn := tokens_withConn s client k c
    have htoken : k.token = (s.conns client).token := by simp only [Conn.token, harmed]
    rw [htoken] at hconn
    omega
  · rw [registered_withConn]
    split
    · rename_i hc
      rw [hc, hreg]
    · rfl

theorem unmoved_received {w client : ℕ} (hw : s.workers[w]? = some (.reading client)) (r : Recv) :
    s.Unmoved (s.received w client r) := by
  unfold received
  refine (unmoved_withConn (k := { s.conns client with
    received := (s.conns client).received + r.bytes.length }) rfl rfl).trans ?_
  split <;> exact unmoved_withWorker hw rfl

end Steps

end Server

namespace FlowServer

open Server

variable {σ : Type} (v : FlowServer σ) {s t : Server σ} {a : Act}

theorem unmoved_handle {w client : ℕ} {buffer : Bytes} {size : Int}
    (hw : s.workers[w]? = some (.calling client buffer size)) :
    s.Unmoved (v.handle s w client buffer size) := by
  unfold handle
  split
  · have h := unmoved_withWorker (y := .faulted client ‹_›) hw rfl
    exact ⟨h.tokens, h.registered, h.accepted⟩
  · have h := unmoved_withWorker (y := .answered client ‹_›) hw rfl
    exact ⟨h.tokens, h.registered, h.accepted⟩

theorem ledger_of_step (h : s.Exclusive) (hstep : v.step s a = some t) : s.Ledger a t := by
  cases v.taken_of_step hstep with
  | sends client bytes => exact .moved id (unmoved_withConn rfl rfl)
  | ready e hloop hroom hmay => exact .moved id (unmoved_report hmay)
  | wake hloop => exact .moved id ⟨fun c ↦ by simp [tokens, hloop], fun _ ↦ rfl, rfl⟩
  | dispatch ok e events hloop hevents => exact ledger_handleEvent h hloop hevents ok
  | ctl ok client k hclient hk => exact ledger_ctl h hclient hk
  | send taken client hloop =>
      refine .moved id ⟨fun c ↦ ?_, fun c ↦ ?_, rfl⟩
      · by_cases hc : c = client
        · subst hc
          simp [tokens, hloop, LoopPc.client, Conn.token]
        · simp [tokens, hloop, LoopPc.client, hc]
      · by_cases hc : c = client
        · subst hc
          simp
        · simp [hc]
  | again hloop hevents => exact .moved id ⟨fun c ↦ by simp [tokens, hloop], fun _ ↦ rfl, rfl⟩
  | pick w client tasks hw htasks =>
      refine .moved id ⟨fun c ↦ ?_, fun _ ↦ rfl, rfl⟩
      have hset := workerTokens_set hw (.reading client) c
      have hcount := count_tasks_cons tasks client c
      simp only [Worker.holder_idle, Worker.holder_reading, held_none] at hset
      simp only [tokens, withWorker, htasks, hcount]
      omega
  | recv w client r hw hmay => exact .moved id (unmoved_received hw r)
  | call w client buffer size hw => exact .moved id (v.unmoved_handle hw)
  | settle w client ret ok hw => exact ledger_settled h hw ok
  | finish w client hw => exact .moved id (unmoved_withWorker hw (by simp))

end FlowServer

end SimpleFlow
