import SimpleFlow.EpollMemory
import Mathlib.Data.List.Nodup

/-!
# No pointer to a deleted context is followed

Nobody but `read_func` can touch a context after it was deleted, unless idle
clients are evicted. `read_func` cannot either, and eviction does no harm, if no
connection is dispatched again before the thread that has re-armed it is through
with `read_func`.
-/

namespace SimpleFlow

namespace EpollSocket

variable (v : EpollSocket)

/-- The contexts that a step reads, writes or deletes. -/
def touches (s : Epoll) : Act → List ℕ
  | .dispatch _ =>
      match s.events with
      | .conn client epollin epollout :: _ => if epollin || epollout then [client] else []
      | _ => []
  | .write _ =>
      match s.loop with
      | .writing client => [client]
      | _ => []
  | .close =>
      match s.loop with
      | .closing client _ => [client]
      | _ => []
  | .release =>
      match s.loop with
      | .releasing client _ .deleting => [client]
      | _ => []
  | .sweep _ => if v.maxIdleSec ≤ 0 then [] else s.eclients
  | .read w _ | .workerClose w | .workerRelease w | .finish w =>
      match s.workers[w]? with
      | some (.reading client) | some (.closing client) | some (.releasing client .deleting)
      | some (.finishing client) => [client]
      | _ => []
  | _ => []

/-- The step follows no pointer to a deleted context. -/
def Safe (s : Epoll) (a : Act) : Prop :=
  ∀ c ∈ v.touches s a, s.contexts c ≠ none

/-- The connection that a step hands to a pool thread or to the event loop. -/
def dispatched (s : Epoll) : Act → Option ℕ
  | .dispatch _ => s.events.head?.bind Event.client
  | _ => none

/-- The step does not dispatch a connection on which a thread lingers. -/
def NotOvertaken (s : Epoll) (a : Act) : Prop :=
  ∀ client ∈ dispatched s a, .finishing client ∉ s.workers

instance (s : Epoll) (a : Act) : Decidable (v.Safe s a) :=
  inferInstanceAs (Decidable (∀ c ∈ v.touches s a, s.contexts c ≠ none))

instance (s : Epoll) (a : Act) : Decidable (NotOvertaken s a) :=
  inferInstanceAs (Decidable (∀ client ∈ dispatched s a, .finishing client ∉ s.workers))

end EpollSocket

namespace Epoll

open EpollSocket

variable {v : EpollSocket} {s t : Epoll} {a : EpollSocket.Act}

/-- The search for idle clients finds nobody whom a pool thread reads from. -/
def Quiet (v : EpollSocket) (s : Epoll) : Prop :=
  v.maxIdleSec ≤ 0 ∨ ∀ c, 0 < (s.life c).tokens .inHand → (s.life c).reading = true

theorem turn_of_taken (h : s.Placed) (hquiet : s.Quiet v) (hstep : v.Taken s a t) (c : ℕ) :
    (s.life c).Turn (t.life c) := by
  cases hstep with
  | check hloop => apply rest_of_loop hloop <;> split <;> rfl
  | ready e hloop _ hmay => exact turn_ready hloop hmay c
  | wake hloop => exact rest_of_loop hloop rfl rfl rfl c
  | failed eintr hloop => apply rest_of_loop hloop <;> cases eintr <;> rfl
  | knock now events hloop hevents =>
      exact turn_dispatch (v := v) h hloop (.knock now events hloop hevents) c
  | refuse now hloop => exact rest_of_loop hloop rfl rfl rfl c
  | accept now hloop => exact turn_accept (v := v) h hloop (.accept now hloop) c
  | task now client o events hloop hevents =>
      exact turn_dispatch (v := v) h hloop (.task now client o events hloop hevents) c
  | full now client o events hloop hevents =>
      exact turn_dispatch (v := v) h hloop (.full now client o events hloop hevents) c
  | writeable now client events hloop hevents =>
      exact turn_dispatch (v := v) h hloop (.writeable now client events hloop hevents) c
  | skip now client events hloop hevents =>
      exact turn_dispatch (v := v) h hloop (.skip now client events hloop hevents) c
  | ctl ok client hloop harmed =>
      rcases hloop with hloop | ⟨ret, hloop⟩ <;> exact turn_ctl h hloop rfl rfl rfl harmed c
  | ctlClose ok client hloop =>
      rcases hloop with hloop | ⟨ret, hloop⟩ <;> exact rest_of_loop hloop rfl rfl rfl c
  | write ret client hloop => exact rest_of_loop hloop rfl rfl rfl c
  | close client removeEvs hloop => exact turn_close h hloop c
  | test client removeEvs r r' hloop =>
      exact rest_of_loop (y := .releasing client removeEvs r') hloop rfl rfl
        (by cases removeEvs <;> rfl) c
  | release client removeEvs hloop => exact turn_release hloop h c
  | sweep now hloop hevents => exact turn_sweep h hloop hevents hquiet c
  | evict client removeEvs hloop => exact rest_of_loop hloop rfl rfl rfl c
  | evicted hloop => exact rest_of_loop hloop rfl rfl rfl c
  | stop => exact .rest (fun _ ↦ rfl) rfl
  | pick w client tasks hw htasks => exact turn_pick hw htasks c
  | read w client ret hw => exact rest_of_worker (y := .answered client ret) hw rfl rfl rfl c
  | settleClose w client ok ret hw =>
      exact rest_of_worker (y := .closing client) hw rfl rfl rfl c
  | settle w client ok ret hw harmed => exact turn_settle h hw harmed c
  | workerClose w client hw => exact turn_workerClose h hw c
  | workerTest w client r r' hw =>
      exact rest_of_worker (y := .releasing client r') hw rfl rfl rfl c
  | workerRelease w client hw => exact turn_workerRelease h hw c
  | finish w client hw => exact turn_finish hw c
  | finishClosed w hw => exact rest_of_worker (y := .idle) hw rfl rfl rfl c

theorem Placed.start (v : EpollSocket) : (Epoll.start v).Placed := by
  have hnone : ∀ f : EpollWorker → Option ℕ, f .idle = none → ∀ c,
      workerCount f (List.replicate v.poolSize .idle) c = 0 := by
    intro f hf c
    simp [workerCount, List.countP_replicate, hf]
  have hhand := hnone EpollWorker.hand rfl
  have hleaving := hnone EpollWorker.leaving rfl
  refine ⟨?_, fun _ _ ↦ rfl, rfl⟩
  intro c
  constructor <;>
    simp [life, Epoll.start, Server.eventTokens, EpollLoop.hand, EpollLoop.evictees,
      EpollLoop.leaving, hhand, hleaving]

theorem created_of_taken (h : s.Placed) (hstep : v.Taken s a t) (c : ℕ) (hc : t.created < c) :
    t.contexts c = none := by
  have hmap : ∀ client (f : EpollContext → EpollContext), s.created < c →
      Function.update s.contexts client ((s.contexts client).map f) c = none := by
    intro client f hlt
    by_cases heq : c = client
    · subst heq
      simp [h.created c hlt]
    · simp [heq, h.created c hlt]
  have hdelete : ∀ client, s.created < c → Function.update s.contexts client none c = none := by
    intro client hlt
    by_cases heq : c = client <;> simp [heq, h.created c hlt]
  cases hstep with
  | accept now =>
      have hlt : s.created + 1 < c := hc
      have hne : c ≠ s.created + 1 := by omega
      simp [withContext, hne, h.created c (by omega)]
  | task now client | full now client | writeable now client => exact hmap client _ hc
  | release client | workerRelease _ client => exact hdelete client hc
  | finish w client => exact hmap client _ hc
  | ready e =>
      cases e <;> exact h.created c hc
  | sweep now =>
      unfold clearIdleClients at hc ⊢
      split at hc <;> rename_i hidle
      · rw [if_pos hidle]
        exact h.created c hc
      · rw [if_neg hidle]
        exact h.created c hc
  | _ => exact h.created c hc

theorem clients_of_taken (h : s.Placed) (hstep : v.Taken s a t) :
    t.clients = t.eclients.length := by
  have hclients := h.clients
  have hunregister : ∀ client, s.eclients.count client = 1 →
      (s.clients - 1 : Int) = (s.eclients.erase client).length := by
    intro client hone
    have hmem : client ∈ s.eclients := List.count_pos_iff.mp (by omega)
    have hpos := List.length_pos_of_mem hmem
    rw [List.length_erase_of_mem hmem, hclients]
    omega
  cases hstep with
  | accept => simp [hclients]
  | close client removeEvs hloop =>
      apply hunregister
      apply h.registered_one
      have hpos : 0 < held s.loop.hand client + s.loop.evictees.count client := by
        cases removeEvs <;> simp [hloop, EpollLoop.hand, EpollLoop.evictees]
      simp only [life]
      omega
  | workerClose w client hw =>
      apply hunregister
      apply h.registered_one
      have hpos := workerCount_set hw EpollWorker.hand .idle client
      simp only [EpollWorker.hand, held_none, held_some, if_true] at hpos
      simp only [life]
      omega
  | ready e => cases e <;> exact hclients
  | sweep now =>
      unfold clearIdleClients
      split <;> exact hclients
  | _ => exact hclients

theorem Placed.taken (h : s.Placed) (hquiet : s.Quiet v) (hstep : v.Taken s a t) : t.Placed :=
  ⟨fun c ↦ (h.sound c).turn (turn_of_taken h hquiet hstep c), created_of_taken h hstep,
    clients_of_taken h hstep⟩

/-! ## What a step touches -/

theorem Placed.context_of_mem {c : ℕ} (h : s.Placed) (hmem : c ∈ s.eclients) :
    s.contexts c ≠ none := by
  have hpos : 0 < (s.life c).tokens .registered := List.count_pos_iff.mpr hmem
  have hlive := (h.sound c).live
  intro hnone
  have htoken : (s.life c).tokens .live = 0 := by simp [life, hnone]
  omega

theorem workerCount_pos {f : EpollWorker → Option ℕ} {workers : List EpollWorker} {w c : ℕ}
    {x : EpollWorker} (hw : workers[w]? = some x) (hx : f x = some c) :
    0 < workerCount f workers c :=
  Slots.countP_pos_of_getElem? hw (by simp [hx])

theorem Placed.context_of_worker {w : ℕ} {x : EpollWorker} {c : ℕ} (h : s.Placed)
    (hw : s.workers[w]? = some x) (hx : x.hand = some c ∨ x.leaving = some c) :
    s.contexts c ≠ none := by
  have hpos : 0 < (s.life c).tokens .inHand + (s.life c).tokens .leaving := by
    rcases hx with hx | hx
    · have hcount := workerCount_pos hw hx
      simp only [life]
      omega
    · have hcount := workerCount_pos hw hx
      simp only [life]
      omega
  obtain ⟨k, hk⟩ := h.context_of_pos (c := c) (by omega)
  simp [hk]

/-- Whoever is not past `handle_readable_event` holds what it points to. -/
theorem Placed.safe (h : s.Placed) (hstep : v.Taken s a t) (hfinish : ∀ w, a ≠ .finish w) :
    v.Safe s a := by
  intro c hc
  cases hstep with
  | task now client o events hloop hevents | full now client o events hloop hevents =>
      obtain rfl : c = client := by simpa [touches, hevents] using hc
      obtain ⟨k, hk⟩ := h.context_of_event hevents
      simp [hk]
  | writeable now client events hloop hevents =>
      obtain rfl : c = client := by simpa [touches, hevents] using hc
      obtain ⟨k, hk⟩ := h.context_of_event hevents
      simp [hk]
  | knock now events hloop hevents => simp [touches, hevents] at hc
  | skip now client events hloop hevents => simp [touches, hevents] at hc
  | write ret client hloop =>
      obtain rfl : c = client := by simpa [touches, hloop] using hc
      have hheld : 0 < (s.life c).tokens .atLoop := by simp [life, hloop, EpollLoop.hand]
      obtain ⟨k, hk⟩ := h.context_of_pos (c := c) (by omega)
      simp [hk]
  | close client removeEvs hloop =>
      obtain rfl : c = client := by simpa [touches, hloop] using hc
      have hheld : 0 < (s.life c).tokens .atLoop + (s.life c).tokens .evictee := by
        cases removeEvs <;> simp [life, hloop, EpollLoop.hand, EpollLoop.evictees]
      obtain ⟨k, hk⟩ := h.context_of_pos (c := c) (by omega)
      simp [hk]
  | release client removeEvs hloop =>
      obtain rfl : c = client := by simpa [touches, hloop] using hc
      have hheld : 0 < (s.life c).tokens .leaving := by
        simp only [life, hloop, EpollLoop.leaving, held_some, if_true]
        omega
      obtain ⟨k, hk⟩ := h.context_of_pos (c := c) (by omega)
      simp [hk]
  | sweep now hloop hevents =>
      simp only [touches] at hc
      split at hc
      · cases hc
      · exact h.context_of_mem hc
  | read w client ret hw =>
      obtain rfl : c = client := by simpa [touches, hw] using hc
      exact h.context_of_worker hw (.inl rfl)
  | workerClose w client hw =>
      obtain rfl : c = client := by simpa [touches, hw] using hc
      exact h.context_of_worker hw (.inl rfl)
  | test client removeEvs r r' hloop hnext =>
      cases r with
      | deleting => cases hnext
      | counting | testing empty | storing => simp [touches, hloop] at hc
  | workerTest w client r r' hw hnext =>
      cases r with
      | deleting => cases hnext
      | counting | testing empty | storing => simp [touches, hw] at hc
  | workerRelease w client hw =>
      obtain rfl : c = client := by simpa [touches, hw] using hc
      exact h.context_of_worker hw (.inr rfl)
  | finish w client hw => exact absurd rfl (hfinish w)
  | finishClosed w hw => exact absurd rfl (hfinish w)
  | _ => cases hc

theorem finishing_mem_of_pos {c : ℕ} (hpos : 0 < (s.life c).tokens .lingering) :
    .finishing c ∈ s.workers := by
  obtain ⟨x, hx, hlingers⟩ := List.countP_pos_iff.mp hpos
  cases x with
  | finishing client =>
      obtain rfl : client = c := by simpa [EpollWorker.lingers] using hlingers
      exact hx
  | _ => simp [EpollWorker.lingers] at hlingers

theorem pos_of_finishing_mem {w c : ℕ} (hw : s.workers[w]? = some (.finishing c)) :
    0 < (s.life c).tokens .lingering :=
  Slots.countP_pos_of_getElem? hw (by simp [EpollWorker.lingers])

/-- A connection on which a thread lingers stays where it is in `events`. -/
theorem stored_le {c : ℕ} (hstep : v.Taken s a t) (hcalm : NotOvertaken s a)
    (hpos : 0 < (s.life c).tokens .lingering) :
    (s.life c).tokens .stored ≤ (t.life c).tokens .stored := by
  have hlingers := finishing_mem_of_pos hpos
  have hdispatch : ∀ client epollin epollout events,
      s.events = .conn client epollin epollout :: events →
      (∃ now, a = .dispatch now) →
      Server.eventTokens s.events c ≤ Server.eventTokens events c := by
    rintro client epollin epollout events hevents ⟨now, rfl⟩
    have hne : client ≠ c := by
      rintro rfl
      exact hcalm client (by simp [dispatched, hevents, Event.client]) hlingers
    simp [hevents, Server.eventTokens_cons, Event.client, Ne.symm hne]
  cases hstep with
  | ready e => cases e <;> simp [life, report, withArmed, Server.eventTokens_concat]
  | knock now events hloop hevents =>
      simp [life, hevents, Server.eventTokens_cons, Event.client]
  | task now client o events hloop hevents | full now client o events hloop hevents =>
      exact hdispatch client true o events hevents ⟨now, rfl⟩
  | writeable now client events hloop hevents =>
      exact hdispatch client false true events hevents ⟨now, rfl⟩
  | skip now client events hloop hevents =>
      exact hdispatch client false false events hevents ⟨now, rfl⟩
  | sweep now =>
      simp only [life, clearIdleClients]
      split <;> exact Nat.le_refl _
  | _ => exact Nat.le_refl _

/-! ## Memory safety -/

/-- Which contexts exist. -/
def Accounted (s : Epoll) : Prop :=
  s.clients = s.eclients.length ∧ s.eclients.Nodup ∧
    ∀ c, s.contexts c ≠ none ↔ c ∈ s.eclients ∨ s.loop.leaving = some c ∨
      ∃ x ∈ s.workers, x.leaving = some c

theorem Placed.accounted (h : s.Placed) : s.Accounted := by
  refine ⟨h.clients, ?_, ?_⟩
  · rw [List.nodup_iff_count_le_one]
    intro c
    have hlive := (h.sound c).live
    have hone := (h.sound c).one
    have htoken : (s.life c).tokens .registered = s.eclients.count c := rfl
    omega
  · intro c
    have hlive := (h.sound c).live
    constructor
    · intro hc
      have htoken : (s.life c).tokens .live = 1 := by
        simp [life, Option.isSome_iff_ne_none.mpr hc]
      by_cases hmem : c ∈ s.eclients
      · exact .inl hmem
      · have hnone : (s.life c).tokens .registered = 0 := List.count_eq_zero.mpr hmem
        have hleaves : 0 < (s.life c).tokens .leaving := by omega
        simp only [life, held] at hleaves
        split at hleaves
        · rename_i hloop
          exact .inr (.inl hloop)
        · have hcount : 0 < workerCount EpollWorker.leaving s.workers c := by omega
          obtain ⟨x, hx, hleaving⟩ := List.countP_pos_iff.mp hcount
          exact .inr (.inr ⟨x, hx, by simpa using hleaving⟩)
    · rintro (hmem | hloop | ⟨x, hx, hleaving⟩)
      · exact h.context_of_mem hmem
      · have hpos : 0 < (s.life c).tokens .leaving := by
          simp only [life, hloop, held_some, if_true]
          omega
        obtain ⟨k, hk⟩ := h.context_of_pos (c := c) (by omega)
        simp [hk]
      · obtain ⟨w, hw⟩ := List.mem_iff_getElem?.mp hx
        exact h.context_of_worker hw (.inr hleaving)

theorem Placed.step (hidle : v.maxIdleSec ≤ 0) (s : Epoll) (a : EpollSocket.Act) (t : Epoll)
    (h : s.Placed) (hstep : v.system.step s a = some t) : t.Placed :=
  h.taken (.inl hidle) (v.taken_of_step hstep)

theorem Placed.eachStep_safe (h : s.Placed) (hidle : v.maxIdleSec ≤ 0)
    (as : List EpollSocket.Act) :
    v.system.EachStep (fun s a ↦ (∀ w, a ≠ .finish w) → v.Safe s a) s as :=
  LabelledSystem.eachStep_of_eachStep (fun s a t h _ ↦ Placed.step hidle s a t h)
    (fun _ _ _ h _ hstep ↦ h.safe (v.taken_of_step hstep)) h (LabelledSystem.eachStep_true _ as)

/-- A connection is accepted, read, written and closed before the thread that
has read it is through with `read_func`. -/
def overtaken : List EpollSocket.Act :=
  [.check, .ready .listen, .wake, .dispatch 0, .accept true 0, .ctl true, .sweep 0,
    .check, .ready (.conn 1 true false), .wake, .dispatch 0, .sweep 0,
    .pick 0, .read 0 readOver, .settle 0 true,
    .check, .ready (.conn 1 false true), .wake, .dispatch 0, .write .close, .ctl true,
    .close, .release, .release, .release, .finish 0]

example : ¬(EpollSocket.mk 8 0 (-1) 1).system.EachStep (EpollSocket.mk 8 0 (-1) 1).Safe
    (Epoll.start ⟨8, 0, -1, 1⟩) overtaken := by
  decide

/-- The contexts are in their places, and who lingers on one lingers alone. -/
def Calm (s : Epoll) : Prop :=
  s.Placed ∧ ∀ c, (s.life c).Calm

theorem Calm.start (v : EpollSocket) : (Epoll.start v).Calm := by
  refine ⟨.start v, fun c ↦ ?_⟩
  have hnone : ∀ f : EpollWorker → Option ℕ, f .idle = none →
      workerCount f (List.replicate v.poolSize .idle) c = 0 := by
    intro f hf
    simp [workerCount, List.countP_replicate, hf]
  have hhand := hnone EpollWorker.hand rfl
  have hlingers := hnone EpollWorker.lingers rfl
  constructor <;>
    simp [life, Epoll.start, EpollLoop.hand, EpollLoop.evictees, hhand, hlingers]

theorem Calm.taken (h : s.Calm) (ha : NotOvertaken s a) (hstep : v.Taken s a t) : t.Calm := by
  have hquiet : s.Quiet v := .inr fun c hpos ↦ (h.2 c).reading (by omega)
  exact ⟨h.1.taken hquiet hstep, fun c ↦ (h.2 c).turn (h.1.sound c)
    (turn_of_taken h.1 hquiet hstep c) (stored_le hstep ha)⟩

theorem Calm.step (s : Epoll) (a : EpollSocket.Act) (t : Epoll) (h : s.Calm)
    (ha : NotOvertaken s a) (hstep : v.system.step s a = some t) : t.Calm :=
  h.taken ha (v.taken_of_step hstep)

/-- Whoever lingers alone on a connection holds its context, too. -/
theorem Calm.safe (h : s.Calm) (hstep : v.Taken s a t) : v.Safe s a := by
  by_cases hfinish : ∃ w, a = .finish w
  · obtain ⟨w, rfl⟩ := hfinish
    intro c hc
    cases hstep with
    | finish w client hw =>
        obtain rfl : c = client := by simpa [touches, hw] using hc
        have hpos := pos_of_finishing_mem hw
        have halone := (h.2 c).alone
        apply h.1.context_of_mem
        exact List.count_pos_iff.mp (show 0 < (s.life c).tokens .registered by omega)
    | finishClosed w hw => simp [touches, hw] at hc
  · exact h.1.safe hstep fun w heq ↦ hfinish ⟨w, heq⟩

theorem Calm.eachStep_safe {as : List EpollSocket.Act} (h : s.Calm)
    (hcalm : v.system.EachStep NotOvertaken s as) : v.system.EachStep v.Safe s as :=
  LabelledSystem.eachStep_of_eachStep Calm.step
    (fun _ _ _ h _ hstep ↦ h.safe (v.taken_of_step hstep)) h hcalm

/-- What the results about runs ask for: idle clients are not evicted, or no
connection is dispatched while a thread lingers on it. -/
def Careful (v : EpollSocket) (as : List EpollSocket.Act) : Prop :=
  v.maxIdleSec ≤ 0 ∨ v.system.EachStep NotOvertaken (Epoll.start v) as

theorem placed_of_exec {as : List EpollSocket.Act} (hcareful : Careful v as)
    (hrun : v.system.exec (Epoll.start v) as = some s) : s.Placed := by
  rcases hcareful with hidle | hcalm
  · exact LabelledSystem.exec_invariant (Placed.step hidle) (.start v) hrun
  · exact ((LabelledSystem.always_of_eachStep Calm.step (.start v) hcalm).last hrun).1

/-- A connection is read, re-armed and evicted when it has been idle for long,
and the socket is stopped. -/
def evicted : List EpollSocket.Act :=
  [.check, .ready .listen, .wake, .dispatch 0, .accept true 0, .ctl true, .sweep 0, .evict,
    .check, .ready (.conn 1 true false), .wake, .dispatch 0, .sweep 100, .evict,
    .pick 0, .read 0 readContinue, .settle 0 true, .finish 0, .stop,
    .check, .wake, .sweep 100, .evict, .close, .release, .release, .release, .release, .evict,
    .check]

end Epoll

end SimpleFlow
