import SimpleFlow.ServerStreams
import SimpleFlow.Library.Interleaving

/-!
# Read tasks and the order of a connection's bytes

While a thread holds a connection nobody else can read from it, so what
`do_handle` is passed of a connection is what `recv` returned, in its order.
A task, however, ends only after its thread has let go of the connection, and
by then the next task for the same connection may be queued or running.
-/

namespace SimpleFlow

open Interleaving LabelledSystem

namespace Server

variable {σ : Type}

/-- At most one task for each connection is queued or in a thread that has not
yet re-armed or closed the connection. -/
def OneTask (s : Server σ) : Prop :=
  ∀ c, s.tasks.count c + workerTokens s.workers c ≤ 1

/-- At most one task for each connection is queued or running at all. -/
def OneRunningTask (s : Server σ) : Prop :=
  ∀ c, s.tasks.count c + s.workers.countP (fun x ↦ decide (x.client = some c)) ≤ 1

/-- What was passed to `do_handle` of each connection is an initial part of
what its client sent. -/
def InStreamOrder (s : Server σ) : Prop := ∀ c, own c s.feed <+: (s.conns c).sent

theorem Exclusive.oneTask {s : Server σ} (h : s.Exclusive) : s.OneTask := by
  intro c
  have hone := h.le_one c
  simp only [tokens] at hone
  omega

theorem Exclusive.workerTokens_le {s : Server σ} (h : s.Exclusive) (c : ℕ) :
    workerTokens s.workers c ≤ 1 := by
  have hone := h.oneTask c
  omega

/-- The invariant: what was passed of a connection, followed by what a thread
has received of it, is what `recv` has returned. -/
structure Ordered (s : Server σ) : Prop where
  exclusive : s.Exclusive
  flow : ∀ c, own c s.feed ++ s.workers.flatMap (Worker.inHand c) =
    (s.conns c).sent.take (s.conns c).received
  le_length : ∀ c, (s.conns c).received ≤ (s.conns c).sent.length

theorem Ordered.inStreamOrder {s : Server σ} (h : s.Ordered) : s.InStreamOrder := by
  intro c
  have hpre : own c s.feed <+: (s.conns c).sent.take (s.conns c).received :=
    ⟨_, h.flow c⟩
  exact hpre.trans (List.take_prefix _ _)

variable {v : FlowServer σ} {s t : Server σ} {a : Act}

theorem Ordered.received (h : s.Ordered) {w client : ℕ} {r : Recv}
    (hw : s.workers[w]? = some (.reading client)) (hmay : s.mayReceive client r = true)
    (ht : (s.received w client r).Exclusive) : (s.received w client r).Ordered := by
  obtain ⟨tail, htail⟩ := List.isPrefixOf_iff_prefix.mp hmay
  -- the thread goes on with what it has received, if anything, in hand
  obtain ⟨y, hy, hholder, hhand, hother⟩ : ∃ y, s.received w client r =
      (s.withConn client { s.conns client with
        received := (s.conns client).received + r.bytes.length }).withWorker w y ∧
      y.holder = some client ∧ y.inHand client = r.bytes ∧ ∀ c, c ≠ client → y.inHand c = [] := by
    unfold Server.received
    cases hr : onReadable r with
    | answer ret => exact ⟨_, rfl, rfl, (onReadable_answer hr).symm, fun _ _ ↦ rfl⟩
    | call buffer size =>
        refine ⟨_, rfl, rfl, ?_, fun c hc ↦ ?_⟩
        · simpa [Worker.inHand] using onReadable_bytes hr
        · simp [Worker.inHand, Ne.symm hc]
  rw [hy] at ht ⊢
  have hw' : (s.workers.set w y)[w]? = some y := Slots.set_getElem?_self hw y
  refine ⟨ht, fun c ↦ ?_, fun c ↦ ?_⟩
  · by_cases hc : c = client
    · subst hc
      have hbefore := inHand_eq (h.exclusive.workerTokens_le c) hw rfl
      have hafter := inHand_eq (ht.workerTokens_le c) hw' hholder
      have hflow := h.flow c
      rw [hbefore] at hflow
      simp only [Worker.inHand, List.append_nil] at hflow
      change own c s.feed ++ (s.workers.set w y).flatMap _ = _
      rw [show (s.workers.set w y).flatMap (Worker.inHand c) = r.bytes from hafter.trans hhand,
        hflow]
      simp only [withWorker_conns, withConn_conns_self, List.take_add, ← htail, List.take_left]
    · change own c s.feed ++ (s.workers.set w y).flatMap _ = _
      rw [Slots.flatMap_set_of_eq hw (hother c hc)]
      simpa [hc] using h.flow c
  · by_cases hc : c = client
    · subst hc
      have hlen := congrArg List.length htail
      have hle := h.le_length c
      simp only [List.length_append, List.length_drop] at hlen
      simp only [withWorker_conns, withConn_conns_self]
      omega
    · simpa [hc] using h.le_length c

theorem Ordered.handle (h : s.Ordered) {w client : ℕ} {buffer : Bytes} {size : Int}
    (hw : s.workers[w]? = some (.calling client buffer size))
    (ht : (v.handle s w client buffer size).Exclusive) :
    (v.handle s w client buffer size).Ordered := by
  obtain ⟨y, answer, hworkers, hcalls, hconns, hholder, hhand⟩ : ∃ y answer,
      (v.handle s w client buffer size).workers = s.workers.set w y ∧
      (v.handle s w client buffer size).calls =
        s.calls ++ [⟨client, buffer.take size.toNat, answer⟩] ∧
      (v.handle s w client buffer size).conns = s.conns ∧ y.holder = some client ∧
      ∀ c, y.inHand c = [] := by
    unfold FlowServer.handle
    split
    · exact ⟨_, _, rfl, rfl, rfl, rfl, fun _ ↦ rfl⟩
    · exact ⟨_, _, rfl, rfl, rfl, rfl, fun _ ↦ rfl⟩
  have hw' : (s.workers.set w y)[w]? = some y := Slots.set_getElem?_self hw y
  refine ⟨ht, fun c ↦ ?_, fun c ↦ hconns ▸ h.le_length c⟩
  have hfeed : (v.handle s w client buffer size).feed =
      s.feed ++ [(client, buffer.take size.toNat)] := by
    simp [feed, hcalls]
  rw [hfeed, own_concat, hworkers, hconns, ← h.flow c]
  by_cases hc : client = c
  · subst hc
    have hbefore := inHand_eq (h.exclusive.workerTokens_le client) hw rfl
    have hone := ht.workerTokens_le client
    rw [hworkers] at hone
    rw [hbefore, inHand_eq hone hw' hholder, hhand]
    simp [Worker.inHand]
  · rw [Slots.flatMap_set_of_eq hw ((hhand c).trans (by simp [Worker.inHand, hc]))]
    simp [hc]

theorem Ordered.step (h : s.Ordered) (hstep : v.step s a = some t) : t.Ordered := by
  have ht := h.exclusive.ledger (v.ledger_of_step h.exclusive hstep)
  cases flow_of_step hstep with
  | still _ ha hsame hhand hcalling =>
      have hfeed : t.feed = s.feed := by rw [feed, hsame.calls, feed]
      refine ⟨ht, fun c ↦ ?_, fun c ↦ ?_⟩
      · rw [hfeed, hhand, hsame.sent, hsame.received]
        exact h.flow c
      · rw [hsame.sent, hsame.received]
        exact h.le_length c
  | sent client bytes heq =>
      subst heq
      refine ⟨ht, fun c ↦ ?_, fun c ↦ ?_⟩
      · by_cases hc : c = client
        · subst hc
          rw [withConn_conns_self, List.take_append_of_le_length (h.le_length c)]
          exact h.flow c
        · rw [withConn_conns_of_ne hc]
          exact h.flow c
      · by_cases hc : c = client
        · subst hc
          have hle := h.le_length c
          simp only [withConn_conns_self, List.length_append]
          omega
        · simpa [hc] using h.le_length c
  | received w client r hw hmay heq =>
      subst heq
      exact h.received hw hmay ht
  | passed w client buffer size hw heq =>
      subst heq
      exact h.handle hw ht

theorem Ordered.start (v : FlowServer σ) (handler : σ) : (Server.start v handler).Ordered := by
  refine ⟨.start v handler, fun c ↦ ?_, fun c ↦ Nat.le_refl _⟩
  simp [Server.start, feed, Conn.none, List.flatMap_replicate, Worker.inHand]

end Server

/-- Under every scheduling of the event loop and the threads, with any handler:
no two tasks of one connection are queued or in threads that still have to
re-arm or close it, and each connection's chunks are passed in the order of
its stream, with no byte skipped or repeated. -/
theorem one_task_per_connection {σ : Type} (v : FlowServer σ) (handler : σ) (acts : List Act) :
    v.system.Always (fun s ↦ s.OneTask ∧ s.InStreamOrder) (Server.start v handler) acts := by
  have hall := always_of_invariant (M := v.system) (P := Server.Ordered)
    (fun _ _ _ h hstep ↦ h.step hstep) (.start v handler) acts
  exact hall.mono fun _ h ↦ ⟨h.exclusive.oneTask, h.inStreamOrder⟩

def FlowHandler.continuing : FlowHandler Unit where
  doHandle := fun s _ _ ↦ .ok (readContinue, s)

/-- The first thread re-arms the connection, and before it has left `read_func`
the loop has queued the next task for the same connection. -/
theorem not_oneRunningTask :
    ¬(FlowServer.mk FlowHandler.continuing 10 2).system.Always Server.OneRunningTask
      (Server.start (FlowServer.mk FlowHandler.continuing 10 2) ())
      (Act.connect ++ Act.queue 1 [97] ++ Act.serve [97] (by decide) ++ Act.queue 1 [98]) := by
  intro h
  have hone := h.mono (Q := fun s ↦ s.tasks.count 1 +
    s.workers.countP (fun x ↦ decide (x.client = some 1)) ≤ 1) fun s hs ↦ hs 1
  revert hone
  decide +kernel

end SimpleFlow
