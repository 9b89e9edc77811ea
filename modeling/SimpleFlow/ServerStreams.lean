import SimpleFlow.ServerTokens
import SimpleFlow.Library.Interleaving

/-!
# The streams of the connections

Only three steps of the server concern the bytes of a connection or the
handler: the client sends, a thread receives, a thread calls `do_handle`.
`Flow` says so of every step, and what the three do.
-/

namespace SimpleFlow

open LabelledSystem

/-- What the thread has received of a connection and not yet passed on. -/
def Worker.inHand (client : ℕ) : Worker → Bytes
  | .calling c buffer size => if c = client then buffer.take size.toNat else []
  | _ => []

theorem Worker.inHand_of_not_holder {client : ℕ} {x : Worker} (h : x.holder ≠ some client) :
    x.inHand client = [] := by
  cases x with
  | calling c buffer size =>
      have hc : c ≠ client := fun heq ↦ h (by simp [heq])
      simp [Worker.inHand, hc]
  | _ => rfl

theorem onReadable_bytes {r : Recv} {buffer : Bytes} {size : Int}
    (h : onReadable r = .call buffer size) : buffer.take size.toNat = r.bytes := by
  unfold onReadable at h
  split at h
  · simp at h
  split at h
  · simp at h
  · rename_i hne
    obtain ⟨rfl, rfl⟩ : r.readBuffer = buffer ∧ r.readSize = size := by simpa using h
    cases r with
    | failed eintr => simp [Recv.readSize] at hne
    | got bytes hle => simp [Recv.readBuffer, Recv.readSize, Recv.bytes]

theorem onReadable_answer {r : Recv} {ret : Int} (h : onReadable r = .answer ret) :
    r.bytes = [] := by
  cases r with
  | failed eintr => rfl
  | got bytes hle =>
      by_contra hne
      have hpos := List.length_pos_of_ne_nil hne
      have hneg : ¬(Recv.got bytes hle).readSize = -1 := by
        simp only [Recv.readSize]
        omega
      have hzero : ¬(Recv.got bytes hle).readSize = 0 := by
        simp only [Recv.readSize, Recv.bytes] at hpos ⊢
        omega
      simp [onReadable, hneg, hzero] at h

theorem onReadable_call {r : Recv} {buffer : Bytes} {size : Int}
    (h : onReadable r = .call buffer size) :
    1 ≤ size ∧ size ≤ ssReadBufferSize ∧ buffer.length = ssReadBufferSize := by
  unfold onReadable at h
  split at h
  · simp at h
  split at h
  · simp at h
  · rename_i hne
    obtain ⟨rfl, rfl⟩ : r.readBuffer = buffer ∧ r.readSize = size := by simpa using h
    cases r with
    | failed eintr => simp [Recv.readSize] at hne
    | got bytes hle =>
        simp only [Recv.readSize, not_or] at hne ⊢
        simp only [Recv.readBuffer, Recv.bytes, List.length_append, List.length_drop,
          List.length_replicate]
        omega

namespace Server

variable {σ : Type}

/-- Every thread that is about to call `do_handle` has a proper chunk. -/
def InBounds (s : Server σ) : Prop :=
  ∀ (w client : ℕ) buffer size, s.workers[w]? = some (.calling client buffer size) →
    1 ≤ size ∧ size ≤ ssReadBufferSize ∧ buffer.length = ssReadBufferSize

def feed (s : Server σ) : List (ℕ × Bytes) := s.calls.map fun k ↦ (k.client, k.bytes)

theorem inHand_eq {workers : List Worker} {w client : ℕ} {x : Worker}
    (hone : workerTokens workers client ≤ 1) (hw : workers[w]? = some x)
    (hx : x.holder = some client) : workers.flatMap (Worker.inHand client) = x.inHand client :=
  Slots.flatMap_eq_of_countP_le_one (p := fun x : Worker ↦ decide (x.holder = some client))
    (fun _ hz ↦ Worker.inHand_of_not_holder (by simpa using hz)) hone hw (by simpa using hx)

/-- Nothing happens to the handler, its calls and the streams. -/
structure SameStreams (s t : Server σ) : Prop where
  handler : t.handler = s.handler
  calls : t.calls = s.calls
  sent : ∀ c, (t.conns c).sent = (s.conns c).sent
  received : ∀ c, (t.conns c).received = (s.conns c).received

/-- What a step does to the streams and to the handler. -/
inductive Flow (v : FlowServer σ) (s t : Server σ) : Act → Prop
  | still (a : Act) (ha : ∀ w, a ≠ .call w) (hsame : s.SameStreams t)
      (hhand : ∀ c, t.workers.flatMap (Worker.inHand c) = s.workers.flatMap (Worker.inHand c))
      (hcalling : ∀ (w c : ℕ) buffer size, t.workers[w]? = some (.calling c buffer size) →
        s.workers[w]? = some (.calling c buffer size)) : Flow v s t a
  | sent (client : ℕ) (bytes : Bytes)
      (ht : t = s.withConn client { s.conns client with sent := (s.conns client).sent ++ bytes }) :
      Flow v s t (.sends client bytes)
  | received (w client : ℕ) (r : Recv) (hw : s.workers[w]? = some (.reading client))
      (hmay : s.mayReceive client r = true) (ht : t = s.received w client r) :
      Flow v s t (.recv w r)
  | passed (w client : ℕ) (buffer : Bytes) (size : Int)
      (hw : s.workers[w]? = some (.calling client buffer size))
      (ht : t = v.handle s w client buffer size) : Flow v s t (.call w)

variable {v : FlowServer σ} {s t : Server σ} {a : Act}

theorem sameStreams_withConn (s : Server σ) (client : ℕ) {k : Conn}
    (hsent : k.sent = (s.conns client).sent)
    (hreceived : k.received = (s.conns client).received) :
    s.SameStreams (s.withConn client k) := by
  refine ⟨rfl, rfl, fun c ↦ ?_, fun c ↦ ?_⟩
  · by_cases hc : c = client
    · subst hc
      simpa using hsent
    · simp [hc]
  · by_cases hc : c = client
    · subst hc
      simpa using hreceived
    · simp [hc]

theorem Flow.of_workers_eq (ha : ∀ w, a ≠ .call w) (hsame : s.SameStreams t)
    (hworkers : t.workers = s.workers) : Flow v s t a :=
  .still a ha hsame (fun _ ↦ by rw [hworkers]) (fun _ _ _ _ h ↦ by rwa [hworkers] at h)

theorem Flow.of_withWorker {w : ℕ} {x y : Worker} (hw : s.workers[w]? = some x)
    (hx : ∀ c, x.inHand c = []) (hy : ∀ c, y.inHand c = [])
    (hcalling : ∀ c buffer size, y ≠ .calling c buffer size) (ha : ∀ i, a ≠ .call i)
    (hsame : s.SameStreams t) (hworkers : t.workers = s.workers.set w y) : Flow v s t a := by
  refine .still a ha hsame (fun c ↦ ?_) (fun i c buffer size hi ↦ ?_)
  · rw [hworkers]
    exact Slots.flatMap_set_of_eq hw ((hy c).trans (hx c).symm)
  · rw [hworkers, Slots.set_getElem? hw] at hi
    split at hi
    · exact absurd (Option.some.inj hi) (hcalling c buffer size)
    · exact hi

theorem sameStreams_handleEvent (events : List Event) (ok : Bool) (e : Event) :
    s.SameStreams (handleEvent { s with events := events } ok e) ∧
      (handleEvent { s with events := events } ok e).workers = s.workers := by
  unfold handleEvent
  split
  · split
    · have h := s.sameStreams_withConn (s.accepted + 1)
        (k := { s.conns (s.accepted + 1) with registered := true }) rfl rfl
      exact ⟨⟨h.handler, h.calls, h.sent, h.received⟩, rfl⟩
    · exact ⟨⟨rfl, rfl, fun _ ↦ rfl, fun _ ↦ rfl⟩, rfl⟩
  · rename_i client epollin epollout
    split
    · split
      · exact ⟨⟨rfl, rfl, fun _ ↦ rfl, fun _ ↦ rfl⟩, rfl⟩
      · have h := s.sameStreams_withConn client (k := (s.conns client).close) rfl rfl
        exact ⟨⟨h.handler, h.calls, h.sent, h.received⟩, rfl⟩
    · split
      · exact ⟨⟨rfl, rfl, fun _ ↦ rfl, fun _ ↦ rfl⟩, rfl⟩
      · exact ⟨⟨rfl, rfl, fun _ ↦ rfl, fun _ ↦ rfl⟩, rfl⟩

theorem sameStreams_settled (w client : ℕ) (ret : Int) (ok : Bool) :
    s.SameStreams (s.settled w client ret ok) ∧
      (s.settled w client ret ok).workers = s.workers.set w (.finishing client) := by
  have hconn : ∀ k : Conn, k.sent = (s.conns client).sent →
      k.received = (s.conns client).received →
      s.SameStreams ((s.withWorker w (.finishing client)).withConn client k) := by
    intro k hsent hreceived
    have h := (s.withWorker w (.finishing client)).sameStreams_withConn client hsent hreceived
    exact ⟨h.handler, h.calls, h.sent, h.received⟩
  unfold settled
  split
  · exact ⟨hconn _ rfl rfl, rfl⟩
  split
  · exact ⟨by apply hconn <;> cases ok <;> rfl, rfl⟩
  split
  · exact ⟨by apply hconn <;> cases ok <;> rfl, rfl⟩
  · exact ⟨⟨rfl, rfl, fun _ ↦ rfl, fun _ ↦ rfl⟩, rfl⟩

theorem flow_of_step (hstep : v.step s a = some t) : Flow v s t a := by
  cases v.taken_of_step hstep with
  | sends client bytes => exact .sent client bytes rfl
  | ready e hloop hroom hmay =>
      cases e with
      | listen => exact .of_workers_eq (by simp) ⟨rfl, rfl, fun _ ↦ rfl, fun _ ↦ rfl⟩ rfl
      | conn client epollin epollout =>
          have h := s.sameStreams_withConn client
            (k := { s.conns client with armed := none }) rfl rfl
          exact .of_workers_eq (by simp) ⟨h.handler, h.calls, h.sent, h.received⟩ rfl
  | wake hloop => exact .of_workers_eq (by simp) ⟨rfl, rfl, fun _ ↦ rfl, fun _ ↦ rfl⟩ rfl
  | dispatch ok e events hloop hevents =>
      have h := sameStreams_handleEvent (s := s) events ok e
      exact .of_workers_eq (by simp) h.1 h.2
  | ctl ok client k hclient hk =>
      have hstreams : k.sent = (s.conns client).sent ∧ k.received = (s.conns client).received := by
        rcases hk with ⟨-, rfl⟩ | ⟨-, rfl⟩ <;> cases ok <;> exact ⟨rfl, rfl⟩
      have h := s.sameStreams_withConn client hstreams.1 hstreams.2
      exact .of_workers_eq (by simp) ⟨h.handler, h.calls, h.sent, h.received⟩ rfl
  | send taken client hloop =>
      have h := s.sameStreams_withConn client
        (k := { s.conns client with wire := (s.conns client).wire ++ okBytes.take taken }) rfl rfl
      exact .of_workers_eq (by simp) ⟨h.handler, h.calls, h.sent, h.received⟩ rfl
  | again hloop hevents =>
      exact .of_workers_eq (by simp) ⟨rfl, rfl, fun _ ↦ rfl, fun _ ↦ rfl⟩ rfl
  | pick w client tasks hw htasks =>
      exact .of_withWorker hw (fun _ ↦ rfl) (y := .reading client) (fun _ ↦ rfl) (by simp)
        (by simp) ⟨rfl, rfl, fun _ ↦ rfl, fun _ ↦ rfl⟩ rfl
  | recv w client r hw hmay => exact .received w client r hw hmay rfl
  | call w client buffer size hw => exact .passed w client buffer size hw rfl
  | settle w client ret ok hw =>
      have h := sameStreams_settled (s := s) w client ret ok
      exact .of_withWorker hw (fun _ ↦ rfl) (fun _ ↦ rfl) (by simp) (by simp) h.1 h.2
  | finish w client hw =>
      exact .of_withWorker hw (fun _ ↦ rfl) (y := .idle) (fun _ ↦ rfl) (by simp)
        (by simp) ⟨rfl, rfl, fun _ ↦ rfl, fun _ ↦ rfl⟩ rfl

theorem InBounds.start (v : FlowServer σ) (handler : σ) : (Server.start v handler).InBounds := by
  intro w client buffer size hw
  have hmem := List.mem_of_getElem? hw
  simp [Server.start] at hmem

theorem InBounds.step (h : s.InBounds) (hstep : v.step s a = some t) : t.InBounds := by
  cases flow_of_step hstep with
  | still _ ha hsame hhand hcalling =>
      exact fun w c buffer size hw ↦ h w c buffer size (hcalling _ _ _ _ hw)
  | sent client bytes heq =>
      subst heq
      exact h
  | received w client r hw hmay heq =>
      subst heq
      intro i c buffer size hi
      unfold Server.received at hi
      cases hr : onReadable r with
      | answer ret =>
          simp only [hr, withWorker, withConn_workers, Slots.set_getElem? hw] at hi
          split at hi
          · simp at hi
          · exact h i c buffer size hi
      | call buffer' size' =>
          simp only [hr, withWorker, withConn_workers, Slots.set_getElem? hw] at hi
          split at hi
          · obtain ⟨-, rfl, rfl⟩ : client = c ∧ buffer' = buffer ∧ size' = size := by
              simpa using hi
            exact onReadable_call hr
          · exact h i c buffer size hi
  | passed w client buffer size hw heq =>
      subst heq
      intro i c buffer' size' hi
      unfold FlowServer.handle at hi
      split at hi <;> simp only [withWorker, Slots.set_getElem? hw] at hi <;> split at hi
      · simp at hi
      · exact h i c buffer' size' hi
      · simp at hi
      · exact h i c buffer' size' hi

end Server

end SimpleFlow
