import SimpleFlow.ServerPlaces

/-!
# Acknowledgements

`on_readable` makes the connection wait for output when `do_handle` has
answered `READ_OVER`, `on_writeable` sends `"OK"` and, whatever `send` has done
with it, has the connection wait for input again. So the bytes on the wire match
the handled chunks as long as every `send` takes both bytes.
-/

namespace SimpleFlow

open LabelledSystem

/-- `"OK"`, `n` times. -/
def oks (n : ℕ) : Bytes := (List.replicate n okBytes).flatten

theorem oks_succ (n : ℕ) : oks (n + 1) = oks n ++ okBytes := by
  rw [oks, List.replicate_succ', List.flatten_append, List.flatten_singleton, oks]

namespace Server

variable {σ : Type}

/-- The calls on the connection that `do_handle` answered with `READ_OVER`. -/
def handled (s : Server σ) (client : ℕ) : ℕ :=
  s.calls.countP fun k ↦ decide (k.client = client ∧ k.answer = some readOver)

/-- When the connection is open and armed for input, each handled chunk has
been acknowledged, and nothing else has been sent. -/
def AckMatch (client : ℕ) (s : Server σ) : Prop :=
  (s.conns client).registered = true → (s.conns client).armed = some .input →
    (s.conns client).wire = oks (s.handled client)

instance (client : ℕ) (s : Server σ) : Decidable (s.AckMatch client) :=
  inferInstanceAs (Decidable (_ = true → _ = some Interest.input → _ = oks (s.handled client)))

variable {v : FlowServer σ} {s t : Server σ} {a : Act} {c : ℕ} {d : Bytes}

theorem wire_withConn (s : Server σ) (client : ℕ) {k : Conn}
    (hk : k.wire = (s.conns client).wire) (c : ℕ) :
    ((s.withConn client k).conns c).wire = (s.conns c).wire := by
  by_cases hc : c = client
  · subst hc
    simpa using hk
  · simp [hc]

theorem wire_of_step (hstep : v.step s a = some t) (hsend : ∀ n, a ≠ .send n) (c : ℕ) :
    (t.conns c).wire = (s.conns c).wire := by
  have harm : ∀ (k : Conn) i ok, (k.arm i ok).wire = k.wire := by
    intro k i ok
    cases ok <;> rfl
  cases v.taken_of_step hstep with
  | sends client bytes => exact wire_withConn s client (by rfl) c
  | ready e hloop hroom hmay =>
      cases e with
      | listen => rfl
      | conn client epollin epollout => exact wire_withConn s client (by rfl) c
  | dispatch ok e events hloop hevents =>
      unfold handleEvent
      split
      · split
        · exact wire_withConn s (s.accepted + 1) (by rfl) c
        · rfl
      · rename_i client epollin epollout
        split
        · split
          · rfl
          · exact wire_withConn s client (by rfl) c
        · split <;> rfl
  | ctl ok client k hclient hk =>
      refine wire_withConn s client ?_ c
      rcases hk with ⟨-, rfl⟩ | ⟨-, rfl⟩
      · cases ok <;> rfl
      · exact harm _ _ _
  | send taken client hloop => exact absurd rfl (hsend taken)
  | recv w client r hw hmay =>
      unfold received
      split <;> exact wire_withConn s client (by rfl) c
  | call w client buffer size hw =>
      unfold FlowServer.handle
      split <;> rfl
  | settle w client ret ok hw =>
      unfold settled
      split
      · exact wire_withConn (s.withWorker w (.finishing client)) client (by rfl) c
      split
      · exact wire_withConn (s.withWorker w (.finishing client)) client (harm _ _ _) c
      split
      · exact wire_withConn (s.withWorker w (.finishing client)) client (harm _ _ _) c
      · rfl
  | _ => rfl

theorem handled_of_step (hstep : v.step s a = some t) (hcall : ∀ w, a ≠ .call w) (c : ℕ) :
    t.handled c = s.handled c := by
  have hcalls : t.calls = s.calls := by
    cases flow_of_step hstep with
    | still _ ha hsame => exact hsame.calls
    | sent client bytes heq => rw [heq]; rfl
    | received w client r hw hmay heq =>
        rw [heq]
        unfold received
        split <;> rfl
    | passed w => exact absurd rfl (hcall w)
  rw [handled, hcalls, handled]

/-! ## The books -/

/-- What has been put on the wire of a connection, with what is due at the place
where it is, acknowledges every handled chunk once. -/
structure Accounted (s : Server σ) : Prop where
  due : ∀ c d, s.Owing c d → (s.conns c).wire ++ d = oks (s.handled c)
  fresh : ∀ c, s.accepted < c → (s.conns c).wire = [] ∧ s.handled c = 0

/-- A `send` takes both bytes. -/
def FullSend (_ : Server σ) : Act → Prop
  | .send taken => 2 ≤ taken
  | _ => True

instance (s : Server σ) : (a : Act) → Decidable (s.FullSend a)
  | .send taken => inferInstanceAs (Decidable (2 ≤ taken))
  | .sends _ _ => isTrue trivial
  | .ready _ => isTrue trivial
  | .wake => isTrue trivial
  | .dispatch _ => isTrue trivial
  | .ctl _ => isTrue trivial
  | .again => isTrue trivial
  | .pick _ => isTrue trivial
  | .recv _ _ => isTrue trivial
  | .call _ => isTrue trivial
  | .settle _ _ => isTrue trivial
  | .finish _ => isTrue trivial

theorem Ledger.accepted_le (h : s.Ledger a t) : s.accepted ≤ t.accepted := by
  cases h with
  | moved hkeeps hm => exact hm.accepted.ge
  | opened hkeeps htok hreg hacc => omega
  | closed client hkeeps hheld htok hreg hacc => exact hacc.ge
  | dropped client hdrops hheld htok hreg hacc => exact hacc.ge

/-- A connection that has not been accepted yet is in no place. -/
theorem Exclusive.not_owing (hx : s.Exclusive) (hc : s.accepted < c) : ¬s.Owing c d := by
  intro h
  have hreg := hx.registered c h.tokens_pos
  rw [hx.accepted c hc] at hreg
  cases hreg

namespace Accounted

theorem start (v : FlowServer σ) (handler : σ) : (Server.start v handler).Accounted := by
  refine ⟨fun c d h ↦ ?_, fun c _ ↦ ⟨rfl, rfl⟩⟩
  cases h with
  | armed i h => simp [Server.start, Conn.none] at h
  | event e _ he => simp [Server.start] at he
  | loop hc => simp [Server.start] at hc
  | task h => simp [Server.start] at h
  | worker x _ hx hc =>
      obtain rfl := List.eq_of_mem_replicate hx
      simp at hc

theorem call (h : s.Accounted) (hx : s.Exclusive) (ht : t.Exclusive) {w client : ℕ}
    {x : Worker} {k : Handled} {handler : σ} {y : Worker} (hw : s.workers[w]? = some y)
    (hy : y.holder = some client) (hydue : y.due = some []) (hk : k.client = client)
    (heq : t = { s.withWorker w x with handler := handler, calls := s.calls ++ [k] })
    (hholder : x.holder = some client)
    (hdue : ∀ d, x.due = some d → d = if k.answer = some readOver then okBytes else []) :
    t.Accounted := by
  have hplace : s.Owing client [] := .worker y [] (List.mem_of_getElem? hw) hy hydue
  have hconns : t.conns = s.conns := by rw [heq]; rfl
  have hcount : ∀ c, t.handled c =
      s.handled c + if client = c ∧ k.answer = some readOver then 1 else 0 := by
    intro c
    rw [handled, heq]
    simp [handled, List.countP_append, List.countP_singleton, hk]
  refine ⟨fun c d ho ↦ ?_, fun c hc ↦ ?_⟩
  · rw [hconns, hcount]
    by_cases hc : client = c
    · subst hc
      have hwhole := h.due client [] hplace
      rw [List.append_nil] at hwhole
      have hslot : t.workers[w]? = some x := by
        rw [heq]
        simp [withWorker, Slots.set_getElem? hw]
      rw [hdue d (ho.eq_of_worker ht hslot hholder), hwhole]
      by_cases hover : k.answer = some readOver
      · simp [hover, oks_succ]
      · simp [hover]
    · have hold : s.Owing c d := by
        rw [heq] at ho
        rcases (ho.of_calls (s := s.withWorker w x)).of_withWorker with hold | ⟨hcx, -⟩
        · exact hold
        · exact absurd (Option.some.inj (hholder.symm.trans hcx)) hc
      simpa [hc] using h.due c d hold
  · have hlt : s.accepted < c := by rwa [heq] at hc
    have hne : client ≠ c := by
      rintro rfl
      exact hx.not_owing hlt hplace
    rw [hconns, hcount]
    simpa [hne] using h.fresh c hlt

theorem send (h : s.Accounted) (hx : s.Exclusive) (ht : t.Exclusive) {taken client : ℕ}
    (htaken : 2 ≤ taken) (hloop : s.loop = .writing client)
    (heq : t = { s.withConn client
      { s.conns client with wire := (s.conns client).wire ++ okBytes.take taken } with
      loop := .written client }) : t.Accounted := by
  have hplace : s.Owing client s.loop.due := .loop (by rw [hloop]; rfl)
  have hcount : ∀ c, t.handled c = s.handled c := by
    intro c
    rw [heq]
    rfl
  have hother : ∀ c, c ≠ client → (t.conns c).wire = (s.conns c).wire := by
    intro c hc
    rw [heq]
    simp [hc]
  refine ⟨fun c d ho ↦ ?_, fun c hc ↦ ?_⟩
  · rw [hcount]
    by_cases hc : c = client
    · subst hc
      have hwhole := h.due c _ hplace
      rw [hloop] at hwhole
      have hd : d = [] := by
        have hdue := ho.eq_of_loop ht (by rw [heq]; rfl)
        rwa [heq] at hdue
      have hboth : okBytes.take taken = okBytes := List.take_of_length_le htaken
      rw [hd, List.append_nil, ← hwhole, heq]
      simp [hboth, LoopPc.due]
    · rw [hother c hc]
      apply h.due
      rw [heq] at ho
      rcases ho.of_loop with hold | ⟨hcl, -⟩
      · rcases hold.of_withConn with hold | ⟨hcl, -⟩
        · exact hold
        · exact absurd hcl hc
      · exact absurd (Option.some.inj hcl).symm hc
  · have hlt : s.accepted < c := by rwa [heq] at hc
    have hne : c ≠ client := by
      rintro rfl
      exact hx.not_owing hlt hplace
    rw [hcount, hother c hne]
    exact h.fresh c hlt

theorem step (h : s.Accounted) (hx : s.Exclusive) (hfull : s.FullSend a)
    (hstep : v.step s a = some t) : t.Accounted := by
  have hledger := v.ledger_of_step hx hstep
  have ht := hx.ledger hledger
  by_cases hsend : ∃ n, a = .send n
  · obtain ⟨n, rfl⟩ := hsend
    cases v.taken_of_step hstep with
    | send _ client hloop => exact h.send hx ht hfull hloop rfl
  by_cases hcall : ∃ w, a = .call w
  · obtain ⟨w, rfl⟩ := hcall
    cases v.taken_of_step hstep with
    | call _ client buffer size hw =>
        unfold FlowServer.handle at ht ⊢
        split at ht
        · exact h.call hx ht hw rfl rfl rfl rfl rfl (fun d hd ↦ by cases hd)
        · exact h.call hx ht hw rfl rfl rfl rfl rfl (fun d hd ↦ by cases hd; simp)
  have hsend' : ∀ n, a ≠ .send n := fun n heq ↦ hsend ⟨n, heq⟩
  have hcall' : ∀ w, a ≠ .call w := fun w heq ↦ hcall ⟨w, heq⟩
  refine ⟨fun c d ho ↦ ?_, fun c hc ↦ ?_⟩
  · rw [wire_of_step hstep hsend', handled_of_step hstep hcall']
    rcases owing_of_step hstep hsend' hcall' ho with hold | ⟨hnew, rfl⟩
    · exact h.due c d hold
    · obtain ⟨hwire, hnone⟩ := h.fresh c hnew
      rw [hwire, hnone]
      rfl
  · rw [wire_of_step hstep hsend', handled_of_step hstep hcall']
    exact h.fresh c (Nat.lt_of_le_of_lt hledger.accepted_le hc)

theorem ackMatch (h : s.Accounted) (client : ℕ) : s.AckMatch client := by
  intro _ harmed
  have hdue := h.due client _ (.armed .input harmed)
  rwa [Interest.due, List.append_nil] at hdue

end Accounted

/-- The books are right as long as no connection is in two places. -/
theorem accounted_of_fullSend (v : FlowServer σ) (handler : σ) {acts : List Act}
    (h : v.system.EachStep FullSend (Server.start v handler) acts) :
    v.system.Always (fun s ↦ s.Exclusive ∧ s.Accounted) (Server.start v handler) acts := by
  refine always_of_eachStep ?_ ⟨.start v handler, .start v handler⟩ h
  intro s a t ⟨hx, hacc⟩ hfull hstep
  exact ⟨hx.ledger (v.ledger_of_step hx hstep), hacc.step hx hfull hstep⟩

/-- After a `send`, a successful re-arming for input is right exactly when both
bytes were taken. -/
theorem Accounted.rearmed_iff (h : s.Accounted) (hx : s.Exclusive) {client taken : ℕ}
    (hloop : s.loop = .writing client)
    (hrun : v.system.exec s [.send taken, .ctl true] = some t) :
    t.AckMatch client ↔ 2 ≤ taken := by
  have hplace : s.Owing client s.loop.due := .loop (by rw [hloop]; rfl)
  have hwhole := h.due client _ hplace
  have hreg := hx.registered client hplace.tokens_pos
  rw [hloop] at hwhole
  have ht : (t.conns client).registered = true ∧ (t.conns client).armed = some .input ∧
      (t.conns client).wire = (s.conns client).wire ++ okBytes.take taken ∧
      t.handled client = s.handled client := by
    simp only [exec_cons, exec_nil, FlowServer.system, FlowServer.step, hloop, loopCtl,
      Option.bind_some, Option.some.injEq] at hrun
    subst hrun
    exact ⟨by simpa [Conn.arm] using hreg, by simp [Conn.arm], by simp [Conn.arm], rfl⟩
  obtain ⟨htreg, htarmed, htwire, hthandled⟩ := ht
  have htake : okBytes.take taken = okBytes ↔ 2 ≤ taken := List.take_eq_self_iff okBytes
  rw [← htake]
  constructor
  · intro hack
    have hwire := hack htreg htarmed
    rw [htwire, hthandled, ← hwhole] at hwire
    exact List.append_cancel_left hwire
  · intro hboth _ _
    rw [htwire, hthandled, ← hwhole, hboth]
    rfl

/-- As long as every `send` takes both bytes, the wire of each connection that
waits for input matches its handled chunks; and the first `send` that does not
breaks this as soon as the connection waits for input again. -/
theorem acks_match (v : FlowServer σ) (handler : σ) (acts : List Act)
    (h : v.system.EachStep FullSend (Server.start v handler) acts) :
    (∀ client, v.system.Always (AckMatch client) (Server.start v handler) acts) ∧
    ∀ s t client taken, v.system.exec (Server.start v handler) acts = some s →
      s.loop = .writing client → v.system.exec s [.send taken, .ctl true] = some t →
      (t.AckMatch client ↔ 2 ≤ taken) := by
  have hbooks := accounted_of_fullSend v handler h
  constructor
  · intro client
    exact hbooks.mono fun s hs ↦ hs.2.ackMatch client
  · intro s t client taken hrun hloop hrest
    obtain ⟨hx, hacc⟩ := hbooks.last hrun
    exact hacc.rearmed_iff hx hloop hrest

/-- A server with one thread, and a client whose one line is handled. -/
def handledOnce : List Act :=
  Act.connect ++ Act.queue 1 [97, 10] ++ Act.serve [97, 10] (by decide) ++
    [.ready (.conn 1 false true), .wake, .dispatch true]

theorem acks_match_handledOnce :
    ((⟨FlowHandler.base, 5, 1⟩ : FlowServer Unit).system).Always (AckMatch 1)
      (Server.start ⟨FlowHandler.base, 5, 1⟩ ()) (handledOnce ++ [.send 2, .ctl true, .again]) :=
  (acks_match ⟨FlowHandler.base, 5, 1⟩ () _ (by decide +kernel)).1 1

/-- The socket takes one byte of the two, or none. -/
theorem not_acks_match :
    (¬((⟨FlowHandler.base, 5, 1⟩ : FlowServer Unit).system).Always (AckMatch 1)
      (Server.start ⟨FlowHandler.base, 5, 1⟩ ()) (handledOnce ++ [.send 1, .ctl true])) ∧
    ¬((⟨FlowHandler.base, 5, 1⟩ : FlowServer Unit).system).Always (AckMatch 1)
      (Server.start ⟨FlowHandler.base, 5, 1⟩ ()) (handledOnce ++ [.send 0, .ctl true]) := by
  decide +kernel

end Server

end SimpleFlow
