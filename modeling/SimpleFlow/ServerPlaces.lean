import SimpleFlow.ServerStreams

/-!
# What is due on the wire of a connection

Each place that a connection can be in says what has still to be put on its
wire: nothing on the way from `recv` to `do_handle`, `"OK"` on the way from a
handled chunk to `send`. No step but these two changes what is due.
-/

namespace SimpleFlow

def Interest.due : Interest → Bytes
  | .input => []
  | .output => okBytes

/-- An event with neither bit is followed by nothing. -/
def Event.due : Event → Option Bytes
  | .listen => none
  | .conn _ true _ => some []
  | .conn _ false true => some okBytes
  | .conn _ false false => none

def LoopPc.due : LoopPc → Bytes
  | .writing _ => okBytes
  | _ => []

def Worker.due : Worker → Option Bytes
  | .answered _ ret => some (if ret = readOver then okBytes else [])
  | .faulted _ _ => none
  | _ => some []

namespace Server

variable {σ : Type}

/-- The places of the connection, with what is due on its wire. -/
inductive Owing (s : Server σ) (c : ℕ) : Bytes → Prop
  | armed (i : Interest) (h : (s.conns c).armed = some i) : Owing s c i.due
  | event (e : Event) (d : Bytes) (he : e ∈ s.events) (hc : e.client = some c)
      (hd : e.due = some d) : Owing s c d
  | loop (hc : s.loop.client = some c) : Owing s c s.loop.due
  | task (h : c ∈ s.tasks) : Owing s c []
  | worker (x : Worker) (d : Bytes) (hx : x ∈ s.workers) (hc : x.holder = some c)
      (hd : x.due = some d) : Owing s c d

theorem token_of_armed {k : Conn} {i : Interest} (h : k.armed = some i) : k.token = 1 := by
  simp [Conn.token, h]

theorem eventTokens_pos {events : List Event} {e : Event} {c : ℕ} (he : e ∈ events)
    (hc : e.client = some c) : 0 < eventTokens events c :=
  List.countP_pos_iff.mpr ⟨e, he, by simpa using hc⟩

theorem workerTokens_pos {workers : List Worker} {x : Worker} {c : ℕ} (hx : x ∈ workers)
    (hc : x.holder = some c) : 0 < workerTokens workers c :=
  List.countP_pos_iff.mpr ⟨x, hx, by simpa using hc⟩

/-- The connection is in the hands of the event loop or of a thread, or it has a
token besides those that these can hold. -/
theorem Owing.held_or_lt {s : Server σ} {c : ℕ} {d : Bytes} (h : s.Owing c d) :
    (s.loop.client = some c ∧ d = s.loop.due) ∨
      (∃ x ∈ s.workers, x.holder = some c ∧ x.due = some d) ∨
      held s.loop.client c + workerTokens s.workers c < s.tokens c := by
  unfold tokens
  cases h with
  | armed i h =>
      have := token_of_armed h
      exact .inr (.inr (by omega))
  | event e d he hc =>
      have := eventTokens_pos he hc
      exact .inr (.inr (by omega))
  | loop hc => exact .inl ⟨hc, rfl⟩
  | task h =>
      have := List.count_pos_iff.mpr h
      exact .inr (.inr (by omega))
  | worker x d hx hc hd => exact .inr (.inl ⟨x, hx, hc, hd⟩)

theorem held_add_workerTokens_le (s : Server σ) (c : ℕ) :
    held s.loop.client c + workerTokens s.workers c ≤ s.tokens c := by
  unfold tokens
  omega

theorem Owing.tokens_pos {s : Server σ} {c : ℕ} {d : Bytes} (h : s.Owing c d) :
    0 < s.tokens c := by
  have hle := held_add_workerTokens_le s c
  rcases h.held_or_lt with ⟨hc, -⟩ | ⟨x, hx, hc, -⟩ | hlt
  · simp only [hc, held_some, if_true] at hle
    omega
  · have hpos := workerTokens_pos hx hc
    omega
  · omega

/-- A connection in the hands of the event loop is nowhere else. -/
theorem Owing.eq_of_loop {s : Server σ} {c : ℕ} {d : Bytes} (h : s.Owing c d)
    (hx : s.Exclusive) (hloop : s.loop.client = some c) : d = s.loop.due := by
  have hone := hx.le_one c
  have hle := held_add_workerTokens_le s c
  have hheld : held s.loop.client c = 1 := by simp [hloop]
  rcases h.held_or_lt with ⟨-, hd⟩ | ⟨x, hx, hc, -⟩ | hlt
  · exact hd
  · have hpos := workerTokens_pos hx hc
    omega
  · omega

/-- A connection in the hands of a thread is nowhere else. -/
theorem Owing.eq_of_worker {s : Server σ} {c w : ℕ} {d : Bytes} {x : Worker} (h : s.Owing c d)
    (hx : s.Exclusive) (hw : s.workers[w]? = some x) (hc : x.holder = some c) :
    x.due = some d := by
  have hone := hx.le_one c
  have hle := held_add_workerTokens_le s c
  have hpos := workerTokens_pos (List.mem_of_getElem? hw) hc
  rcases h.held_or_lt with ⟨hloop, -⟩ | ⟨y, hy, hyc, hd⟩ | hlt
  · have hheld : held s.loop.client c = 1 := by simp [hloop]
    omega
  · have hxy : x = y := by
      obtain ⟨j, hj⟩ := List.getElem?_of_mem hy
      exact Slots.eq_of_countP_le_one (p := fun z : Worker ↦ decide (z.holder = some c))
        (show workerTokens s.workers c ≤ 1 by omega) hw hj (by simpa using hc)
        (by simpa using hyc)
    rw [hxy, hd]
  · omega

/-! ## Where the places come from

Each lemma undoes one change of the state: a place of the changed state is one
of the old state, or it is the place that the change has made. -/

section Places

variable {s : Server σ} {c : ℕ} {d : Bytes}

theorem Owing.of_withConn {client : ℕ} {k : Conn} (h : (s.withConn client k).Owing c d) :
    s.Owing c d ∨ c = client ∧ ∃ i, k.armed = some i ∧ d = i.due := by
  cases h with
  | armed i harmed =>
      by_cases hc : c = client
      · subst hc
        rw [withConn_conns_self] at harmed
        exact .inr ⟨rfl, i, harmed, rfl⟩
      · rw [withConn_conns_of_ne hc] at harmed
        exact .inl (.armed i harmed)
  | event e _ he hc hd => exact .inl (.event e d he hc hd)
  | loop hc => exact .inl (.loop hc)
  | task h => exact .inl (.task h)
  | worker x _ hx hc hd => exact .inl (.worker x d hx hc hd)

theorem Owing.of_withConn_armed {client : ℕ} {k : Conn} (h : (s.withConn client k).Owing c d)
    (hk : k.armed = (s.conns client).armed ∨ k.armed = none) : s.Owing c d := by
  rcases h.of_withConn with hold | ⟨rfl, i, harmed, rfl⟩
  · exact hold
  · rcases hk with hsame | hnone
    · exact .armed i (hsame ▸ harmed)
    · rw [hnone] at harmed
      cases harmed

theorem Owing.of_withWorker {w : ℕ} {y : Worker} (h : (s.withWorker w y).Owing c d) :
    s.Owing c d ∨ y.holder = some c ∧ y.due = some d := by
  cases h with
  | armed i harmed => exact .inl (.armed i harmed)
  | event e _ he hc hd => exact .inl (.event e d he hc hd)
  | loop hc => exact .inl (.loop hc)
  | task h => exact .inl (.task h)
  | worker z _ hz hc hd =>
      rcases List.mem_or_eq_of_mem_set hz with hold | rfl
      · exact .inl (.worker z d hold hc hd)
      · exact .inr ⟨hc, hd⟩

theorem Owing.of_loop {pc : LoopPc} (h : ({ s with loop := pc } : Server σ).Owing c d) :
    s.Owing c d ∨ pc.client = some c ∧ d = pc.due := by
  cases h with
  | armed i harmed => exact .inl (.armed i harmed)
  | event e _ he hc hd => exact .inl (.event e d he hc hd)
  | loop hc => exact .inr ⟨hc, rfl⟩
  | task h => exact .inl (.task h)
  | worker x _ hx hc hd => exact .inl (.worker x d hx hc hd)

theorem Owing.of_tasks {tasks : List ℕ} (h : ({ s with tasks := tasks } : Server σ).Owing c d) :
    s.Owing c d ∨ c ∈ tasks ∧ d = [] := by
  cases h with
  | armed i harmed => exact .inl (.armed i harmed)
  | event e _ he hc hd => exact .inl (.event e d he hc hd)
  | loop hc => exact .inl (.loop hc)
  | task h => exact .inr ⟨h, rfl⟩
  | worker x _ hx hc hd => exact .inl (.worker x d hx hc hd)

theorem Owing.of_events {events : List Event}
    (h : ({ s with events := events } : Server σ).Owing c d) :
    s.Owing c d ∨ ∃ e ∈ events, e.client = some c ∧ e.due = some d := by
  cases h with
  | armed i harmed => exact .inl (.armed i harmed)
  | event e _ he hc hd => exact .inr ⟨e, he, hc, hd⟩
  | loop hc => exact .inl (.loop hc)
  | task h => exact .inl (.task h)
  | worker x _ hx hc hd => exact .inl (.worker x d hx hc hd)

theorem Owing.of_calls {handler : σ} {accepted : ℕ} {calls : List Handled}
    (h : ({ s with handler := handler, accepted := accepted, calls := calls } : Server σ).Owing
      c d) : s.Owing c d := by
  cases h with
  | armed i harmed => exact .armed i harmed
  | event e _ he hc hd => exact .event e d he hc hd
  | loop hc => exact .loop hc
  | task h => exact .task h
  | worker x _ hx hc hd => exact .worker x d hx hc hd

theorem onReadable_ne_readOver {r : Recv} {ret : Int} (h : onReadable r = .answer ret) :
    ret ≠ readOver := by
  unfold onReadable at h
  split at h
  · cases h
    decide
  split at h
  · cases h
    decide
  · cases h

/-- The bits of an event are among those that the connection was armed for. -/
theorem due_of_mayReport {client : ℕ} {epollin epollout : Bool}
    (hmay : s.mayReport (.conn client epollin epollout) = true)
    (hd : (Event.conn client epollin epollout).due = some d) : s.Owing client d := by
  simp only [mayReport] at hmay
  cases harmed : (s.conns client).armed with
  | none => simp [harmed] at hmay
  | some i =>
      have hdue : d = i.due := by
        cases i <;> cases epollin <;> cases epollout <;> simp_all [Event.due, Interest.due]
      rw [hdue]
      exact .armed i harmed

theorem owing_report {e : Event} (hmay : s.mayReport e = true) (h : (s.report e).Owing c d) :
    s.Owing c d := by
  have hevents : ({ s with events := s.events ++ [e] } : Server σ).Owing c d := by
    cases e with
    | listen => exact h
    | conn client epollin epollout =>
        exact h.of_withConn_armed (s := { s with events := s.events ++ [_] }) (.inr rfl)
  rcases hevents.of_events with hold | ⟨e', he', hc, hd⟩
  · exact hold
  · rcases List.mem_append.mp he' with hold | hnew
    · exact .event e' d hold hc hd
    · obtain rfl := List.mem_singleton.mp hnew
      cases e' with
      | listen => cases hc
      | conn client epollin epollout =>
          obtain rfl : client = c := Option.some.inj hc
          exact due_of_mayReport hmay hd

theorem owing_tail {e : Event} {events : List Event} (hevents : s.events = e :: events)
    (h : ({ s with events := events } : Server σ).Owing c d) : s.Owing c d := by
  rcases h.of_events with hold | ⟨e', he', hc, hd⟩
  · exact hold
  · exact .event e' d (hevents ▸ List.mem_cons_of_mem e he') hc hd

theorem owing_handleEvent {e : Event} {events : List Event} (hevents : s.events = e :: events)
    (ok : Bool) (h : (handleEvent { s with events := events } ok e).Owing c d) :
    s.Owing c d ∨ s.accepted < c ∧ d = [] := by
  have hmem : e ∈ s.events := by simp [hevents]
  cases e with
  | listen =>
      cases ok with
      | false => exact .inl (owing_tail hevents h)
      | true =>
          rcases (h.of_calls (s := { ({ s with events := events } : Server σ).withConn
              (s.accepted + 1) { s.conns (s.accepted + 1) with registered := true } with
              loop := .adding (s.accepted + 1) })).of_loop with hold | ⟨hc, rfl⟩
          · exact .inl (owing_tail hevents (hold.of_withConn_armed (.inl rfl)))
          · have hnew : s.accepted + 1 = c := by simpa [LoopPc.client] using hc
            exact .inr ⟨by omega, rfl⟩
  | conn client epollin epollout =>
      left
      cases epollin with
      | true =>
          rcases h.of_tasks (s := { s with events := events }) with hold | ⟨htask, rfl⟩
          · exact owing_tail hevents hold
          · rcases List.mem_append.mp htask with hold | hnew
            · exact .task hold
            · rw [List.mem_singleton.mp hnew]
              exact .event _ [] hmem rfl rfl
      | false =>
          cases epollout with
          | true =>
              rcases h.of_loop (s := { s with events := events }) with hold | ⟨hc, rfl⟩
              · exact owing_tail hevents hold
              · exact .event _ _ hmem hc rfl
          | false => exact owing_tail hevents h

theorem owing_ctl {client : ℕ} {k : Conn} {ok : Bool} (hclient : s.loop.client = some client)
    (hk : s.loop = .adding client ∧
        k = (if ok then (s.conns client).arm .input true else (s.conns client).close) ∨
      s.loop = .written client ∧ k = (s.conns client).arm .input ok)
    (h : ({ s.withConn client k with loop := .handling } : Server σ).Owing c d) :
    s.Owing c d := by
  rcases h.of_loop with hold | ⟨hc, -⟩
  · rcases hold.of_withConn with hold | ⟨rfl, i, harmed, rfl⟩
    · exact hold
    · have hdue : s.loop.due = [] := by
        rcases hk with ⟨hloop, -⟩ | ⟨hloop, -⟩ <;> rw [hloop] <;> rfl
      have hsame : (s.conns c).armed = some i ∨ i = .input := by
        rcases hk with ⟨-, rfl⟩ | ⟨-, rfl⟩ <;> cases ok <;>
          simp_all [Conn.arm, Conn.close]
      rcases hsame with hsame | rfl
      · exact .armed i hsame
      · rw [show Interest.due .input = s.loop.due from hdue.symm]
        exact .loop hclient
  · simp at hc

theorem owing_received {w client : ℕ} {r : Recv} (hw : s.workers[w]? = some (.reading client))
    (h : (s.received w client r).Owing c d) : s.Owing c d := by
  have hplace : c = client → d = [] → s.Owing c d := by
    rintro rfl rfl
    exact .worker _ _ (List.mem_of_getElem? hw) rfl rfl
  unfold received at h
  cases hr : onReadable r with
  | answer ret =>
      have hret : ret ≠ readOver := onReadable_ne_readOver hr
      simp only [hr] at h
      rcases h.of_withWorker with hold | ⟨hc, hd⟩
      · exact hold.of_withConn_armed (.inl rfl)
      · apply hplace
        · simpa using hc.symm
        · simpa [Worker.due, hret] using hd.symm
  | call buffer size =>
      simp only [hr] at h
      rcases h.of_withWorker with hold | ⟨hc, hd⟩
      · exact hold.of_withConn_armed (.inl rfl)
      · apply hplace
        · simpa using hc.symm
        · simpa [Worker.due] using hd.symm

theorem owing_settled {w client : ℕ} {ret : Int} {ok : Bool}
    (hw : s.workers[w]? = some (.answered client ret))
    (h : (s.settled w client ret ok).Owing c d) : s.Owing c d := by
  have hfinish : ∀ d, (s.withWorker w (.finishing client)).Owing c d → s.Owing c d := by
    intro d h
    rcases h.of_withWorker with hold | ⟨hc, -⟩
    · exact hold
    · simp at hc
  have harm : ∀ i : Interest, i.due = (if ret = readOver then okBytes else []) →
      ((s.withWorker w (.finishing client)).withConn client
        ((s.conns client).arm i ok)).Owing c d → s.Owing c d := by
    intro i hi h
    rcases h.of_withConn with hold | ⟨rfl, j, harmed, rfl⟩
    · exact hfinish d hold
    · cases ok with
      | false => exact .armed j harmed
      | true =>
          obtain rfl : i = j := by simpa [Conn.arm] using harmed
          exact .worker _ _ (List.mem_of_getElem? hw) rfl (by rw [hi]; rfl)
  unfold settled at h
  split at h
  · exact hfinish d (h.of_withConn_armed (.inr rfl))
  split at h
  · rename_i hcontinue
    exact harm .input (by rw [hcontinue]; rfl) h
  split at h
  · rename_i hover
    exact harm .output (by rw [hover]; rfl) h
  · exact hfinish d h

end Places

variable {v : FlowServer σ} {s t : Server σ} {a : Act} {c : ℕ} {d : Bytes}

/-- No step but a `send` and a `do_handle` makes a place with something else
due; a new connection starts with nothing due. -/
theorem owing_of_step (hstep : v.step s a = some t) (hsend : ∀ n, a ≠ .send n)
    (hcall : ∀ w, a ≠ .call w) (h : t.Owing c d) : s.Owing c d ∨ s.accepted < c ∧ d = [] := by
  cases v.taken_of_step hstep with
  | sends client bytes => exact .inl (h.of_withConn_armed (.inl rfl))
  | ready e hloop hroom hmay => exact .inl (owing_report hmay h)
  | wake hloop =>
      rcases h.of_loop with hold | ⟨hc, -⟩
      · exact .inl hold
      · simp at hc
  | dispatch ok e events hloop hevents => exact owing_handleEvent hevents ok h
  | ctl ok client k hclient hk => exact .inl (owing_ctl hclient hk h)
  | send taken client hloop => exact absurd rfl (hsend taken)
  | again hloop hevents =>
      rcases h.of_loop with hold | ⟨hc, -⟩
      · exact .inl hold
      · simp at hc
  | pick w client tasks hw htasks =>
      left
      have hplace : s.Owing client [] := .task (by simp [htasks])
      rcases h.of_withWorker with hold | ⟨hc, hd⟩
      · rcases hold.of_tasks with hold | ⟨hmem, rfl⟩
        · exact hold
        · exact .task (by simp [htasks, hmem])
      · obtain rfl : client = c := by simpa using hc
        obtain rfl : [] = d := by simpa [Worker.due] using hd
        exact hplace
  | recv w client r hw hmay => exact .inl (owing_received hw h)
  | call w client buffer size hw => exact absurd rfl (hcall w)
  | settle w client ret ok hw => exact .inl (owing_settled hw h)
  | finish w client hw =>
      rcases h.of_withWorker with hold | ⟨hc, -⟩
      · exact .inl hold
      · simp at hc

end Server

end SimpleFlow
