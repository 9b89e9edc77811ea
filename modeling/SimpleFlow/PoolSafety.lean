import SimpleFlow.ThreadPool
import SimpleFlow.Library.Simulation
import SimpleFlow.Library.WorkQueue

/-!
# What the mutex of the pool protects

At most one thread, caller or owner is between `lock` and `unlock`, so a thread
that has found a task finds it still there when it takes it. That makes the
pool a queue served by several hands.
-/

namespace SimpleFlow

variable {α : Type}

namespace PoolThread

def holds : PoolThread α → Bool
  | .testing | .deciding | .taken _ | .leaving | .faulted => true
  | _ => false

/-- The task in the hands of the thread. -/
def task : PoolThread α → Option α
  | .taken task | .running task => some task
  | _ => none

@[simp] theorem holds_wake (x : PoolThread α) : x.wake.holds = x.holds := by
  cases x <;> rfl

@[simp] theorem task_wake (x : PoolThread α) : x.wake.task = x.task := by
  cases x <;> rfl

theorem wake_eq_of_ne {x y : PoolThread α} (h : x.wake = y) (hy : y ≠ .woken) : x = y := by
  cases x with
  | waiting => exact absurd h.symm hy
  | _ => exact h

end PoolThread

def PoolCaller.holds : PoolCaller α → Bool
  | .testing _ | .pushing _ | .signalling | .unlocking _ => true
  | _ => false

namespace PoolOwner

def holds : PoolOwner → Bool
  | .setting | .unlocking => true
  | _ => false

/-- Whether the owner has set `STOPPED`. -/
def hasStopped : PoolOwner → Bool
  | .unlocking | .broadcasting _ | .joining _ | .destroyed _ | .faulted => true
  | _ => false

end PoolOwner

namespace Pool

/-- How many are between `lock` and `unlock`. -/
def holders (s : Pool α) : ℕ :=
  s.threads.countP PoolThread.holds + s.callers.countP PoolCaller.holds + s.owner.holds.toNat

/-- The state of the pool follows its owner. -/
structure Phased (poolSize : ℕ) (s : Pool α) : Prop where
  stopped : s.state = .stopped ↔ s.owner.hasStopped = true
  fresh : s.state = .fresh → s.threads = []
  creating : ∀ i, s.owner = .creating i → s.state = .started ∧ s.threads.length = i
  size : s.threads.length ≤ poolSize

/-- The mutex excludes, and who has seen a task under it has one. -/
structure Guarded (s : Pool α) : Prop where
  mutex : s.holders = s.mutex.toNat
  deciding : .deciding ∈ s.threads → s.state = .stopped ∨ s.tasks ≠ []
  faulted : .faulted ∉ s.threads

theorem Guarded.holders_le_one {s : Pool α} (h : s.Guarded) : s.holders ≤ 1 := by
  rw [h.mutex]
  exact Bool.toNat_le s.mutex

/-- The pool as a queue whose hands are its threads. -/
def queue (s : Pool α) : WorkQueue α where
  queue := s.tasks
  hands := s.threads.map PoolThread.task
  pushed := s.accepted
  taken := s.begun
  finished := s.finished

end Pool

namespace ThreadPool

variable {v : ThreadPool} {s u : Pool α} {w : ℕ}

theorem ThreadMove.frame {x y : PoolThread α} (h : ThreadMove s x y u) :
    u.state = s.state ∧ u.owner = s.owner ∧ u.threads = s.threads ∧ u.callers = s.callers := by
  cases h <;> exact ⟨rfl, rfl, rfl, rfl⟩

theorem ThreadMove.mutex {x y : PoolThread α} (h : ThreadMove s x y u)
    (hx : x.holds = true → s.mutex = true) :
    u.mutex.toNat + x.holds.toNat = s.mutex.toNat + y.holds.toNat := by
  cases h with
  | lock x hx' hfree => rcases hx' with rfl | rfl <;> simp [PoolThread.holds, hfree]
  | _ => simp_all [PoolThread.holds]

theorem CallerMove.frame {x y : PoolCaller α} (h : v.CallerMove s w x y u) :
    u.state = s.state ∧ u.owner = s.owner ∧ u.threads.length = s.threads.length ∧
      u.callers = s.callers := by
  cases h <;> simp [Pool.withThread]

theorem CallerMove.mutex {x y : PoolCaller α} (h : v.CallerMove s w x y u)
    (hx : x.holds = true → s.mutex = true) :
    u.mutex.toNat + x.holds.toNat = s.mutex.toNat + y.holds.toNat := by
  cases h <;> simp_all [PoolCaller.holds, Pool.withThread]

end ThreadPool

namespace Pool

open ThreadPool

variable {v : ThreadPool} {s t u : Pool α} {w : ℕ}

/-! ## The owner and the state -/

theorem Phased.congr (h : s.Phased v.poolSize) (hstate : t.state = s.state)
    (howner : t.owner = s.owner) (hlength : t.threads.length = s.threads.length) :
    t.Phased v.poolSize := by
  refine ⟨?_, ?_, ?_, ?_⟩
  · rw [hstate, howner]
    exact h.stopped
  · intro hfresh
    rw [hstate] at hfresh
    apply List.eq_nil_of_length_eq_zero
    rw [hlength, h.fresh hfresh, List.length_nil]
  · rw [hstate, howner, hlength]
    exact h.creating
  · rw [hlength]
    exact h.size

theorem Phased.owner {a : ThreadPool.Act α} (h : s.Phased v.poolSize) (hmove : v.OwnerMove s a t) :
    t.Phased v.poolSize := by
  obtain ⟨hstopped, hfresh, hcreating, hsize⟩ := h
  cases hmove with
  | same => exact ⟨hstopped, hfresh, hcreating, hsize⟩
  | start howner hstate =>
      have hnew : s.state = .fresh := by
        cases hs : s.state with
        | fresh => rfl
        | started => exact absurd hs hstate
        | stopped => simp [howner, PoolOwner.hasStopped, hs] at hstopped
      refine ⟨by simp [PoolOwner.hasStopped], by simp, ?_, hsize⟩
      intro i hi
      cases hi
      exact ⟨rfl, by simp [hfresh hnew]⟩
  | create i howner hi =>
      obtain ⟨hstate, hlength⟩ := hcreating i howner
      refine ⟨by simp [PoolOwner.hasStopped, hstate], by simp [hstate], ?_, ?_⟩
      · intro j hj
        cases hj
        exact ⟨hstate, by simp [hlength]⟩
      · simp only [List.length_append, List.length_singleton]
        omega
  | created i _ howner =>
      obtain ⟨hstate, -⟩ := hcreating i howner
      exact ⟨by simp [PoolOwner.hasStopped, hstate], by simp [hstate], by simp, hsize⟩
  | destroy howner =>
      exact ⟨by simpa [PoolOwner.hasStopped, howner] using hstopped, hfresh, by simp, hsize⟩
  | lock howner =>
      exact ⟨by simpa [PoolOwner.hasStopped, howner] using hstopped, hfresh, by simp, hsize⟩
  | set => exact ⟨by simp [PoolOwner.hasStopped], by simp, by simp, hsize⟩
  | unlock howner =>
      exact ⟨by simpa [PoolOwner.hasStopped, howner] using hstopped, hfresh, by simp, hsize⟩
  | broadcast i howner =>
      exact ⟨by simpa [PoolOwner.hasStopped, howner] using hstopped,
        fun hs ↦ by simp [hfresh hs], by simp, by simpa using hsize⟩
  | join i howner =>
      exact ⟨by simpa [PoolOwner.hasStopped, howner] using hstopped, hfresh, by simp, hsize⟩
  | fault i howner =>
      exact ⟨by simpa [PoolOwner.hasStopped, howner] using hstopped, hfresh, by simp, hsize⟩
  | joined i howner =>
      exact ⟨by simpa [PoolOwner.hasStopped, howner] using hstopped, hfresh, by simp, hsize⟩

theorem Phased.step {a : ThreadPool.Act α} (h : s.Phased v.poolSize)
    (hstep : (v.system α).step s a = some t) :
    t.Phased v.poolSize := by
  cases v.taken_of_step hstep with
  | thread w _ hmove =>
      obtain ⟨hstate, howner, hthreads, -⟩ := hmove.frame
      exact h.congr hstate howner (by simp [withThread, hthreads])
  | spurious w => exact h.congr rfl rfl (by simp [withThread])
  | call c task => exact h.congr rfl rfl rfl
  | caller c w _ hmove =>
      obtain ⟨hstate, howner, hthreads, -⟩ := hmove.frame
      exact h.congr hstate howner hthreads
  | owner _ hmove => exact h.owner hmove

/-! ## Mutual exclusion -/

theorem Guarded.mutex_of_thread {x : PoolThread α} (h : s.Guarded) (hw : s.threads[w]? = some x)
    (hx : x.holds = true) : s.mutex = true := by
  have hpos := Slots.countP_pos_of_getElem? hw hx
  have hmutex := h.mutex
  cases hm : s.mutex with
  | true => rfl
  | false =>
      simp only [holders, hm, Bool.toNat_false] at hmutex
      omega

theorem Guarded.mutex_of_caller {c : ℕ} {x : PoolCaller α} (h : s.Guarded)
    (hc : s.callers[c]? = some x) (hx : x.holds = true) : s.mutex = true := by
  have hpos := Slots.countP_pos_of_getElem? hc hx
  have hmutex := h.mutex
  cases hm : s.mutex with
  | true => rfl
  | false =>
      simp only [holders, hm, Bool.toNat_false] at hmutex
      omega

theorem Guarded.thread {x y : PoolThread α} (h : s.Guarded) (hw : s.threads[w]? = some x)
    (hmove : ThreadMove s x y u) : (u.withThread w y).Guarded := by
  obtain ⟨-, howner, hthreads, hcallers⟩ := hmove.frame
  have hmutex : (u.withThread w y).holders = u.mutex.toNat := by
    have hcount := Slots.countP_set_toNat hw PoolThread.holds y
    have hheld := hmove.mutex (h.mutex_of_thread hw)
    have hold := h.mutex
    simp only [holders, withThread, howner, hthreads, hcallers] at hold ⊢
    omega
  refine ⟨hmutex, ?_, ?_⟩
  · intro hmem
    have hold : .deciding ∈ s.threads ∨ y = .deciding := by
      rcases List.mem_or_eq_of_mem_set hmem with hmem | heq
      · exact .inl (hthreads ▸ hmem)
      · exact .inr heq.symm
    cases hmove with
    | pass hwork => exact hwork
    | take task tasks =>
        -- this thread now holds the mutex, so no other one has decided
        exfalso
        have hle : (s.threads.set w (.taken task)).countP PoolThread.holds ≤ 1 := by
          have hle := hmutex ▸ Bool.toNat_le _
          simp only [holders, withThread] at hle
          omega
        obtain ⟨j, hj⟩ := List.mem_iff_getElem?.mp hmem
        have hhere : (s.threads.set w (.taken task))[w]? = some (.taken task) :=
          Slots.set_getElem?_self hw _
        exact absurd (Slots.eq_of_countP_le_one hle hj hhere rfl rfl) (by simp)
    | _ => exact h.deciding (by simpa using hold)
  · intro hmem
    rcases List.mem_or_eq_of_mem_set hmem with hmem | heq
    · exact h.faulted (hthreads ▸ hmem)
    · subst heq
      cases hmove with
      | fault hstate htasks =>
          rcases h.deciding (List.mem_of_getElem? hw) with hstopped | hwork
          · exact hstate hstopped
          · exact hwork htasks

theorem mem_of_mem_woken {x : PoolThread α} (hx : x ≠ .woken)
    (hmem : x ∈ (s.withThread w .woken).threads) : x ∈ s.threads :=
  Slots.mem_of_mem_set_of_ne hmem hx

theorem Guarded.woken (h : s.Guarded) (hw : s.threads[w]? = some .waiting) :
    (s.withThread w .woken).Guarded := by
  refine ⟨?_, ?_, ?_⟩
  · have hcount := Slots.countP_set_toNat hw PoolThread.holds .woken
    have hold := h.mutex
    simp only [holders, withThread] at hold ⊢
    simp only [PoolThread.holds] at hcount
    omega
  · intro hmem
    exact h.deciding (mem_of_mem_woken (by simp) hmem)
  · intro hmem
    exact h.faulted (mem_of_mem_woken (by simp) hmem)

theorem Guarded.caller {c : ℕ} {x y : PoolCaller α} (h : s.Guarded) (hc : s.callers[c]? = some x)
    (hmove : v.CallerMove s w x y u) : (u.withCaller c y).Guarded := by
  obtain ⟨-, howner, -, hcallers⟩ := hmove.frame
  have hthreads : u.threads.countP PoolThread.holds = s.threads.countP PoolThread.holds := by
    cases hmove with
    | wake hw => simpa [withThread, PoolThread.holds] using
        Slots.countP_set_toNat hw PoolThread.holds .woken
    | _ => rfl
  refine ⟨?_, ?_, ?_⟩
  · have hcount := Slots.countP_set_toNat hc PoolCaller.holds y
    have hheld := hmove.mutex (h.mutex_of_caller hc)
    have hold := h.mutex
    simp only [holders, withCaller, howner, hthreads, hcallers] at hold ⊢
    omega
  · intro hmem
    cases hmove with
    | push task => exact .inr (by simp [withCaller])
    | wake hw => exact h.deciding (mem_of_mem_woken (by simp) hmem)
    | _ => exact h.deciding hmem
  · intro hmem
    cases hmove with
    | wake hw => exact h.faulted (mem_of_mem_woken (by simp) hmem)
    | _ => exact h.faulted hmem

theorem Guarded.owner {a : ThreadPool.Act α} (h : s.Guarded) (hphase : s.Phased v.poolSize)
    (hmove : v.OwnerMove s a t) : t.Guarded := by
  obtain ⟨hmutex, hdeciding, hfaulted⟩ := h
  have hone := Bool.toNat_le s.mutex
  cases hmove with
  | same => exact ⟨hmutex, hdeciding, hfaulted⟩
  | start howner hstate =>
      have hnone : s.threads = [] := by
        cases hs : s.state with
        | fresh => exact hphase.fresh hs
        | started => exact absurd hs hstate
        | stopped => simpa [howner, PoolOwner.hasStopped, hs] using hphase.stopped
      refine ⟨?_, by simp [hnone], by simp [hnone]⟩
      simpa [holders, howner, PoolOwner.holds] using hmutex
  | create i howner hi =>
      refine ⟨?_, by simpa using hdeciding, by simpa using hfaulted⟩
      simpa [holders, howner, PoolOwner.holds, PoolThread.holds] using hmutex
  | set howner =>
      refine ⟨?_, fun _ ↦ .inl rfl, hfaulted⟩
      simpa [holders, howner, PoolOwner.holds] using hmutex
  | lock howner hfree =>
      refine ⟨?_, hdeciding, hfaulted⟩
      simp [holders, howner, PoolOwner.holds, hfree] at hmutex ⊢
      exact hmutex
  | unlock howner =>
      refine ⟨?_, hdeciding, hfaulted⟩
      simp only [holders, howner, PoolOwner.holds, Bool.toNat_true, Bool.toNat_false] at hmutex ⊢
      omega
  | broadcast i howner =>
      have hback : ∀ x : PoolThread α, x ≠ .woken → x ∈ s.threads.map PoolThread.wake →
          x ∈ s.threads := by
        intro x hx hmem
        obtain ⟨z, hz, heq⟩ := List.mem_map.mp hmem
        exact PoolThread.wake_eq_of_ne heq hx ▸ hz
      refine ⟨?_, fun hmem ↦ hdeciding (hback _ (by simp) hmem),
        fun hmem ↦ hfaulted (hback _ (by simp) hmem)⟩
      have hsame : PoolThread.holds ∘ PoolThread.wake =
          (PoolThread.holds : PoolThread α → Bool) := by
        funext x
        exact PoolThread.holds_wake x
      simpa [holders, howner, PoolOwner.holds, List.countP_map, hsame] using hmutex
  | created i _ howner | destroy howner | join i howner | fault i howner | joined i howner =>
      exact ⟨by simpa [holders, howner, PoolOwner.holds] using hmutex, hdeciding, hfaulted⟩

theorem Guarded.step {a : ThreadPool.Act α} (h : s.Guarded) (hphase : s.Phased v.poolSize)
    (hstep : (v.system α).step s a = some t) : t.Guarded := by
  cases v.taken_of_step hstep with
  | thread w hw hmove => exact h.thread hw hmove
  | spurious w hw => exact h.woken hw
  | call c task hc =>
      refine ⟨?_, h.deciding, h.faulted⟩
      have hcount := Slots.countP_set_toNat hc PoolCaller.holds (.locking task)
      have hold := h.mutex
      simp only [holders, withCaller, PoolCaller.holds] at hold hcount ⊢
      omega
  | caller c w hc hmove => exact h.caller hc hmove
  | owner _ hmove => exact h.owner hphase hmove

/-! ## The queue behind the pool -/

theorem Phased.fresh_pool (callers : ℕ) : (Pool.fresh α callers).Phased v.poolSize :=
  ⟨by simp [Pool.fresh, PoolOwner.hasStopped], fun _ ↦ rfl, by simp [Pool.fresh],
    by simp [Pool.fresh]⟩

theorem Guarded.fresh_pool (callers : ℕ) : (Pool.fresh α callers).Guarded :=
  ⟨by simp [Pool.fresh, holders, PoolCaller.holds, PoolOwner.holds, List.countP_replicate],
    by simp [Pool.fresh], by simp [Pool.fresh]⟩

/-- What a step of the pool does to the queue. -/
def queueActs (v : ThreadPool) (s : Pool α) : ThreadPool.Act α → List (WorkQueue.Act α)
  | .create true =>
      match s.owner with
      | .creating i => if i < v.poolSize then [.hire] else []
      | _ => []
  | .caller c _ =>
      match s.callers[c]? with
      | some (.pushing task) => [.push task]
      | _ => []
  | .thread w =>
      match s.threads[w]? with
      | some .deciding => if s.state = .stopped then [] else [.take w]
      | some (.running _) => [.finish w]
      | _ => []
  | _ => []

theorem hands_set {threads : List (PoolThread α)} {x y : PoolThread α} (hw : threads[w]? = some x)
    (hxy : y.task = x.task) :
    (threads.set w y).map PoolThread.task = threads.map PoolThread.task := by
  apply List.ext_getElem?
  intro j
  rw [List.getElem?_map, List.getElem?_map, Slots.set_getElem? hw]
  split
  · rename_i hj
    subst hj
    simp [hw, hxy]
  · rfl

theorem queue_thread {x y : PoolThread α} (h : s.Guarded) (hw : s.threads[w]? = some x)
    (hmove : ThreadMove s x y u) :
    (WorkQueue.system α).exec s.queue (queueActs v s (.thread w)) =
      some (u.withThread w y).queue := by
  have hhand : s.queue.hands[w]? = some x.task := by
    simp [queue, hw]
  cases hmove with
  | take task tasks hstate htasks =>
      have hqueue : s.queue.queue = task :: tasks := htasks
      have hacts : queueActs v s (.thread w) = [.take w] := by
        simp [queueActs, hw, hstate]
      rw [hacts]
      simp only [LabelledSystem.exec, WorkQueue.system, WorkQueue.step, hhand, hqueue,
        PoolThread.task, Option.bind_some]
      simp [queue, withThread, PoolThread.task]
  | run task =>
      have hacts : queueActs v s (.thread w) = [.finish w] := by
        simp [queueActs, hw]
      rw [hacts]
      simp only [LabelledSystem.exec, WorkQueue.system, WorkQueue.step, hhand,
        PoolThread.task, Option.bind_some]
      simp [queue, withThread, PoolThread.task]
  | fault hstate htasks =>
      rcases h.deciding (List.mem_of_getElem? hw) with hstopped | hwork
      · exact absurd hstopped hstate
      · exact absurd htasks hwork
  | leave hstate =>
      have hsame := hands_set hw (y := .leaving) rfl
      simp [queueActs, hw, hstate, queue, withThread, hsame]
  | lock x hx =>
      have hsame := hands_set hw (y := .testing) (by rcases hx with rfl | rfl <;> rfl)
      rcases hx with rfl | rfl <;> simp [queueActs, hw, queue, withThread, hsame]
  | sleep =>
      have hsame := hands_set hw (y := .waiting) rfl
      simp [queueActs, hw, queue, withThread, hsame]
  | pass =>
      have hsame := hands_set hw (y := .deciding) rfl
      simp [queueActs, hw, queue, withThread, hsame]
  | release task =>
      have hsame := hands_set hw (y := .running task) rfl
      simp [queueActs, hw, queue, withThread, hsame]
  | unlock =>
      have hsame := hands_set hw (y := .exiting) rfl
      simp [queueActs, hw, queue, withThread, hsame]
  | exit =>
      have hsame := hands_set hw (y := .exited) rfl
      simp [queueActs, hw, queue, withThread, hsame]

theorem queue_caller {c : ℕ} {x y : PoolCaller α} (hc : s.callers[c]? = some x)
    (hmove : v.CallerMove s w x y u) :
    (WorkQueue.system α).exec s.queue (queueActs v s (.caller c w)) =
      some (u.withCaller c y).queue := by
  cases hmove with
  | wake hw =>
      have hsame := hands_set hw (y := .woken) rfl
      simp [queueActs, hc, queue, withThread, withCaller, hsame]
  | push task => simp [queueActs, hc, LabelledSystem.exec, WorkQueue.system, WorkQueue.step,
      queue, withCaller]
  | _ => simp [queueActs, hc, queue, withCaller]

theorem queue_owner {a : ThreadPool.Act α} (hmove : v.OwnerMove s a t) :
    (WorkQueue.system α).exec s.queue (queueActs v s a) = some t.queue := by
  cases hmove with
  | create i howner hi =>
      simp only [queueActs, howner, if_pos hi, LabelledSystem.exec, WorkQueue.system,
        WorkQueue.step, Option.bind_some]
      simp [queue, PoolThread.task]
  | created i ok howner hend =>
      cases ok with
      | false => simp [queueActs, queue]
      | true =>
          have hi : ¬i < v.poolSize := fun hi ↦ by simpa using hend hi
          simp [queueActs, howner, hi, queue]
  | broadcast i howner =>
      have hsame : PoolThread.task ∘ PoolThread.wake =
          (PoolThread.task : PoolThread α → Option α) := by
        funext x
        exact PoolThread.task_wake x
      simp [queueActs, queue, hsame]
  | _ => simp [queueActs, queue]

/-- The pool and the queue that it is. -/
structure Queued (poolSize : ℕ) (s : Pool α) (q : WorkQueue α) : Prop where
  phased : s.Phased poolSize
  guarded : s.Guarded
  same : q = s.queue

theorem simulates_queue (v : ThreadPool) :
    (v.system α).Simulates (WorkQueue.system α) (Queued v.poolSize) (queueActs v) := by
  rintro s a t q ⟨hphase, hguard, rfl⟩ hstep
  refine ⟨t.queue, ?_, hphase.step hstep, hguard.step hphase hstep, rfl⟩
  cases v.taken_of_step hstep with
  | thread w hw hmove => exact queue_thread hguard hw hmove
  | spurious w hw =>
      have hsame := hands_set hw (y := .woken) rfl
      simp [queueActs, queue, withThread, hsame]
  | call c task => simp [queueActs, queue, withCaller]
  | caller c w hc hmove => exact queue_caller hc hmove
  | owner _ hmove => exact queue_owner hmove

theorem exec_queued {callers : ℕ} {as : List (ThreadPool.Act α)}
    (hrun : (v.system α).exec (Pool.fresh α callers) as = some s) :
    s.Phased v.poolSize ∧ s.Guarded ∧ s.queue.Kept := by
  have hstart : Queued v.poolSize (Pool.fresh α callers) (WorkQueue.start 0) :=
    ⟨.fresh_pool callers, .fresh_pool callers, rfl⟩
  obtain ⟨q, hq, hphase, hguard, rfl⟩ := (simulates_queue v).exec hstart hrun
  exact ⟨hphase, hguard, WorkQueue.kept_of_exec hq⟩

/-- However the steps are ordered, one thread at a time holds the mutex, no
thread takes from an empty deque, and the tasks that `add_task` accepted are
begun in that order, each by one thread and once. -/
theorem begun_in_order (v : ThreadPool) {callers : ℕ} {as : List (ThreadPool.Act α)}
    (hrun : (v.system α).exec (Pool.fresh α callers) as = some s) :
    s.holders ≤ 1 ∧ .faulted ∉ s.threads ∧ s.accepted = s.begun ++ s.tasks ∧
      s.begun.Perm (s.finished ++ s.threads.filterMap PoolThread.task) := by
  obtain ⟨-, hguard, hkept⟩ := exec_queued hrun
  refine ⟨hguard.holders_le_one, hguard.faulted, hkept.order, ?_⟩
  have hplace := hkept.place
  simpa [queue, WorkQueue.held, List.filterMap_map, Function.comp_def] using hplace

/-- One thread, one caller, and the task 7 in the hands of the thread. -/
theorem begun_in_order_of_one :
    let s : Pool ℕ := ⟨.started, false, [], [.running 7], [.outside], .outside, [7], [7], []⟩
    s.holders ≤ 1 ∧ .faulted ∉ s.threads ∧ s.accepted = s.begun ++ s.tasks ∧
      s.begun.Perm (s.finished ++ s.threads.filterMap PoolThread.task) := by
  intro s
  have hrun : ((ThreadPool.mk 1 (-1)).system ℕ).exec (Pool.fresh ℕ 1)
      ([.start, .create true, .create true, .thread 0, .thread 0, .call 0 7] ++
        List.replicate 5 (.caller 0 0) ++ List.replicate 4 (.thread 0)) = some s := by
    decide
  exact begun_in_order _ hrun

end Pool

end SimpleFlow
