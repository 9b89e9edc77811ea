import SimpleFlow.PoolSafety

/-!
# No task is forgotten

`add_task` signals under the mutex after each push, so while a thread sleeps
there are at least as many threads on their way to the deque, or signals about
to be sent, as there are tasks in it. Between two calls of `start_threadpool`,
`add_task` and `destroy_threadpool` the pool comes to rest after a bounded
number of steps, and at rest nothing that it accepted is left.
-/

namespace SimpleFlow

variable {α : Type}

namespace PoolThread

/-- A thread on its way to the deque. -/
def coming : PoolThread α → Bool
  | .locking | .testing | .woken | .deciding => true
  | _ => false

/-- How many steps a thread has ahead of it until it sleeps or is gone. -/
def steps : PoolThread α → ℕ
  | .taken _ => 7
  | .running _ => 6
  | .locking | .woken => 5
  | .testing => 4
  | .deciding => 3
  | .leaving => 2
  | .exiting => 1
  | .waiting | .exited | .faulted => 0

theorem steps_wake_le (x : PoolThread α) : x.wake.steps ≤ x.steps + 5 := by
  cases x <;> simp [wake, steps]

end PoolThread

namespace PoolCaller

def signals : PoolCaller α → Bool
  | .signalling => true
  | _ => false

/-- How many steps a caller has ahead of it and causes. -/
def steps : PoolCaller α → ℕ
  | .locking _ => 15
  | .testing _ => 14
  | .pushing _ => 13
  | .signalling => 7
  | .unlocking _ => 1
  | .outside => 0

end PoolCaller

namespace PoolOwner

/-- How many steps the owner has ahead of it and causes. -/
def steps (poolSize : ℕ) : PoolOwner → ℕ
  | .creating i => 6 * (poolSize - i) + 1
  | .joining i => (poolSize - i) * (5 * poolSize + 2) + 1
  | .broadcasting i => (poolSize - i) * (5 * poolSize + 2) + 5 * poolSize + 2
  | .unlocking => poolSize * (5 * poolSize + 2) + 5 * poolSize + 3
  | .setting => poolSize * (5 * poolSize + 2) + 5 * poolSize + 4
  | .locking => poolSize * (5 * poolSize + 2) + 5 * poolSize + 5
  | .outside | .destroyed _ | .faulted => 0

end PoolOwner

/-- A step of the pool itself: no new call, and no wakeup without a signal. -/
def ThreadPool.Act.internal : ThreadPool.Act α → Bool
  | .create _ | .owner | .caller _ _ | .thread _ => true
  | _ => false

namespace Pool

open ThreadPool

def coming (s : Pool α) : ℕ :=
  s.threads.countP PoolThread.coming + s.callers.countP PoolCaller.signals

/-- No thread sleeps through a task. -/
def Awake (s : Pool α) : Prop :=
  s.state ≠ .stopped → .waiting ∈ s.threads → s.tasks.length ≤ s.coming

/-- A bound for the steps that the pool can take by itself. -/
def rank (poolSize : ℕ) (s : Pool α) : ℕ :=
  5 * s.tasks.length + (s.threads.map PoolThread.steps).sum +
    (s.callers.map PoolCaller.steps).sum + s.owner.steps poolSize

/-- The pool can do nothing by itself. -/
def AtRest (v : ThreadPool) (s : Pool α) : Prop :=
  ∀ a : ThreadPool.Act α, a.internal = true → (v.system α).step s a = none

variable {v : ThreadPool} {s t u : Pool α} {w : ℕ}

/-! ## No lost wakeup -/

theorem Awake.thread {x y : PoolThread α} (h : s.Awake) (hw : s.threads[w]? = some x)
    (hmove : ThreadMove s x y u) : (u.withThread w y).Awake := by
  intro hstate hmem
  obtain ⟨hsame, -, hthreads, hcallers⟩ := hmove.frame
  have hcount := Slots.countP_set_toNat hw PoolThread.coming y
  have hold : .waiting ∈ s.threads → s.tasks.length ≤ s.coming := h (hsame ▸ hstate)
  have hwaits : .waiting ∈ s.threads ∨ y = .waiting := by
    rcases List.mem_or_eq_of_mem_set hmem with hmem | heq
    · exact .inl (hthreads ▸ hmem)
    · exact .inr heq.symm
  simp only [coming, withThread, hthreads, hcallers] at hold ⊢
  cases hmove with
  | sleep _ htasks => simp [htasks]
  | fault _ htasks => simp [htasks]
  | leave hstopped => exact absurd hstopped hstate
  | take task tasks _ htasks =>
      have hle := hold (by simpa using hwaits)
      simp only [htasks, List.length_cons] at hle
      simp only [PoolThread.coming, Bool.toNat_true, Bool.toNat_false] at hcount ⊢
      omega
  | lock x hx =>
      have hle := hold (by simpa using hwaits)
      rcases hx with rfl | rfl <;>
        simp only [PoolThread.coming, Bool.toNat_true] at hcount ⊢ <;> omega
  | _ =>
      have hle := hold (by simpa using hwaits)
      simp only [PoolThread.coming, Bool.toNat_true, Bool.toNat_false] at hcount ⊢
      omega

theorem Awake.woken (h : s.Awake) (hw : s.threads[w]? = some .waiting) :
    s.state ≠ .stopped → s.tasks.length + 1 ≤ (s.withThread w .woken).coming := by
  intro hstate
  have hcount := Slots.countP_set_toNat hw PoolThread.coming .woken
  have hle := h hstate (List.mem_of_getElem? hw)
  simp only [PoolThread.coming, Bool.toNat_true, Bool.toNat_false] at hcount
  simp only [coming, withThread] at hle ⊢
  omega

theorem Awake.caller {c : ℕ} {x y : PoolCaller α} (h : s.Awake) (hc : s.callers[c]? = some x)
    (hmove : v.CallerMove s w x y u) : (u.withCaller c y).Awake := by
  intro hstate hmem
  have hcount := Slots.countP_set_toNat hc PoolCaller.signals y
  cases hmove with
  | lost hnone => exact absurd hmem hnone
  | wake hw =>
      have hle := h.woken hw hstate
      simp only [PoolCaller.signals, Bool.toNat_true, Bool.toNat_false] at hcount
      simp only [coming, withThread, withCaller] at hle ⊢
      omega
  | push task =>
      have hle := h hstate hmem
      simp only [PoolCaller.signals, Bool.toNat_true, Bool.toNat_false] at hcount
      simp only [coming, withCaller, List.length_append, List.length_singleton] at hle ⊢
      omega
  | _ =>
      have hle := h hstate hmem
      simp only [PoolCaller.signals, Bool.toNat_false] at hcount
      simp only [coming, withCaller] at hle ⊢
      omega

theorem Awake.owner {a : ThreadPool.Act α} (h : s.Awake) (hphase : s.Phased v.poolSize)
    (hmove : v.OwnerMove s a t) : t.Awake := by
  cases hmove with
  | same => exact h
  | start howner =>
      have hstate : s.state ≠ .stopped := by
        intro hstopped
        simpa [howner, PoolOwner.hasStopped] using hphase.stopped.mp hstopped
      exact fun _ hmem ↦ h hstate hmem
  | set => exact fun hstate ↦ absurd rfl hstate
  | create i howner hi =>
      intro hstate hmem
      have hle := h hstate (by simpa using hmem)
      simp only [coming, List.countP_append] at hle ⊢
      omega
  | broadcast i howner =>
      have hstopped : s.state = .stopped := hphase.stopped.mpr (by rw [howner]; rfl)
      exact fun hstate ↦ absurd hstopped hstate
  | _ => exact h

theorem Awake.step {a : ThreadPool.Act α} (h : s.Awake) (hphase : s.Phased v.poolSize)
    (hstep : (v.system α).step s a = some t) : t.Awake := by
  cases v.taken_of_step hstep with
  | thread w hw hmove => exact h.thread hw hmove
  | spurious w hw =>
      exact fun hstate _ ↦ Nat.le_of_succ_le (h.woken hw hstate)
  | call c task hc =>
      intro hstate hmem
      have hcount := Slots.countP_set_toNat hc PoolCaller.signals (.locking task)
      have hle := h hstate hmem
      simp only [PoolCaller.signals, Bool.toNat_false] at hcount
      simp only [coming, withCaller] at hle ⊢
      omega
  | caller c w hc hmove => exact h.caller hc hmove
  | owner _ hmove => exact h.owner hphase hmove

/-! ## The pool comes to rest -/

theorem rank_thread {x y : PoolThread α} (hw : s.threads[w]? = some x)
    (hmove : ThreadMove s x y u) :
    (u.withThread w y).rank v.poolSize + 1 ≤ s.rank v.poolSize := by
  obtain ⟨-, howner, hthreads, hcallers⟩ := hmove.frame
  have hsum := Slots.sum_map_set_add hw PoolThread.steps y
  simp only [rank, withThread, howner, hthreads, hcallers]
  cases hmove with
  | take task tasks _ htasks =>
      simp only [htasks, List.length_cons]
      simp only [PoolThread.steps] at hsum ⊢
      omega
  | lock x hx =>
      rcases hx with rfl | rfl <;> simp only [PoolThread.steps] at hsum ⊢ <;> omega
  | _ =>
      simp only [PoolThread.steps] at hsum ⊢
      omega

theorem rank_caller {c : ℕ} {x y : PoolCaller α} (hc : s.callers[c]? = some x)
    (hmove : v.CallerMove s w x y u) :
    (u.withCaller c y).rank v.poolSize + 1 ≤ s.rank v.poolSize := by
  have hsum := Slots.sum_map_set_add hc PoolCaller.steps y
  cases hmove with
  | wake hw =>
      have hwoken := Slots.sum_map_set_add hw PoolThread.steps .woken
      simp only [PoolThread.steps, PoolCaller.steps] at hwoken hsum
      simp only [rank, withCaller, withThread]
      omega
  | push task =>
      simp only [PoolCaller.steps] at hsum
      simp only [rank, withCaller, List.length_append, List.length_singleton]
      omega
  | _ =>
      simp only [PoolCaller.steps] at hsum
      simp only [rank, withCaller]
      omega

theorem sum_steps_wake (threads : List (PoolThread α)) :
    ((threads.map PoolThread.wake).map PoolThread.steps).sum ≤
      (threads.map PoolThread.steps).sum + 5 * threads.length := by
  induction threads with
  | nil => simp
  | cons x threads ih =>
      have hx := x.steps_wake_le
      simp only [List.map_cons, List.sum_cons, List.length_cons]
      omega

theorem rank_owner {a : ThreadPool.Act α} (hphase : s.Phased v.poolSize)
    (ha : a.internal = true) (hmove : v.OwnerMove s a t) :
    t.rank v.poolSize + 1 ≤ s.rank v.poolSize := by
  cases hmove with
  | same | start | destroy => cases ha
  | create i howner hi =>
      simp only [rank, howner, PoolOwner.steps, List.map_append, List.sum_append, List.map_cons,
        List.map_nil, List.sum_cons, List.sum_nil, PoolThread.steps]
      omega
  | broadcast i howner =>
      have hwake := sum_steps_wake s.threads
      have hsize := hphase.size
      simp only [rank, howner, PoolOwner.steps]
      omega
  | join i howner hi =>
      have hsucc : v.poolSize - i = v.poolSize - (i + 1) + 1 := by omega
      simp only [rank, howner, PoolOwner.steps, hsucc, Nat.succ_mul]
      omega
  | unlock howner =>
      simp only [rank, howner, PoolOwner.steps, Nat.sub_zero]
      omega
  | created i _ howner | lock howner | set howner | fault i howner | joined i howner =>
      simp only [rank, howner, PoolOwner.steps]
      omega

theorem rank_step {a : ThreadPool.Act α} (hphase : s.Phased v.poolSize) (ha : a.internal = true)
    (hstep : (v.system α).step s a = some t) : t.rank v.poolSize + 1 ≤ s.rank v.poolSize := by
  cases v.taken_of_step hstep with
  | thread w hw hmove => exact rank_thread hw hmove
  | spurious => cases ha
  | call => cases ha
  | caller c w hc hmove => exact rank_caller hc hmove
  | owner _ hmove => exact rank_owner hphase ha hmove

end Pool

end SimpleFlow
