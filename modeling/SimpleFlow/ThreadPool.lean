import SimpleFlow.Library.LabelledSystem
import SimpleFlow.Library.Slots

/-!
# The thread pool

`ThreadPool` keeps its tasks in a deque behind `m_task_mutex`; a thread that
finds the deque empty sleeps on `m_task_cond_var`. The threads, the callers of
`add_task` and the owner, who calls `start_threadpool` and `destroy_threadpool`,
take their steps in any order. An `Act` names whose step is next. A thread that
holds the mutex still takes one step at a time, so that what the mutex protects
is a result and not an assumption.

The pool is started and destroyed once. The callbacks of the threads are not
set.
-/

namespace SimpleFlow

/-- `m_pool_state`; it is -1 before `start_threadpool`. -/
inductive PoolState where
  | fresh
  | started
  | stopped
  deriving DecidableEq, Repr

/-- Where a thread is in `execute_thread`: before `lock`; before the condition
of the inner loop; inside `pthread_cond_wait`; woken there and in need of the
mutex; past the inner loop; before `unlock` with its task; before `task->run`;
before the `unlock` of the exit path; before `pthread_exit`; gone; or after
`front` of an empty deque. -/
inductive PoolThread (α : Type) where
  | locking
  | testing
  | waiting
  | woken
  | deciding
  | taken (task : α)
  | running (task : α)
  | leaving
  | exiting
  | exited
  | faulted
  deriving DecidableEq, Repr

/-- Where a caller is in `add_task`: before `lock`, before the test of the
limit, before `push_back`, before `signal`, or before the `unlock` after which
it answers `ret`. -/
inductive PoolCaller (α : Type) where
  | outside
  | locking (task : α)
  | testing (task : α)
  | pushing (task : α)
  | signalling
  | unlocking (ret : Int)
  deriving DecidableEq, Repr

/-- A `size_t` that is made an `int`. -/
def intOfSize (n : ℕ) : Int := (n : Int).bmod 4294967296

/-- Where the owner is: in the loop of `start_threadpool`, or in
`destroy_threadpool` before `lock`, before the state is set, before `unlock`,
before the broadcast after `i` joins, before the join of `m_threads[i]`, or
after its return. `m_threads[i]` may not exist. -/
inductive PoolOwner where
  | outside
  | creating (i : ℕ)
  | locking
  | setting
  | unlocking
  | broadcasting (i : ℕ)
  | joining (i : ℕ)
  | destroyed (ret : Int)
  | faulted
  deriving DecidableEq, Repr

/-- `m_pool_size` and `m_task_size_limit` -/
structure ThreadPool where
  poolSize : ℕ
  taskSizeLimit : Int

/-- `mutex` says whether the mutex is locked. `accepted`, `begun` and `finished`
record for the proofs which tasks were pushed, popped and run. -/
structure Pool (α : Type) where
  state : PoolState
  mutex : Bool
  tasks : List α
  threads : List (PoolThread α)
  callers : List (PoolCaller α)
  owner : PoolOwner
  accepted : List α
  begun : List α
  finished : List α
  deriving DecidableEq, Repr

namespace Pool

variable {α : Type}

/-- A pool as its constructor leaves it. -/
def fresh (α : Type) (callers : ℕ) : Pool α where
  state := .fresh
  mutex := false
  tasks := []
  threads := []
  callers := List.replicate callers .outside
  owner := .outside
  accepted := []
  begun := []
  finished := []

def withThread (s : Pool α) (w : ℕ) (x : PoolThread α) : Pool α :=
  { s with threads := s.threads.set w x }

def withCaller (s : Pool α) (c : ℕ) (x : PoolCaller α) : Pool α :=
  { s with callers := s.callers.set c x }

end Pool

namespace PoolThread

variable {α : Type}

/-- What a signal does to a thread. -/
def wake : PoolThread α → PoolThread α
  | .waiting => .woken
  | x => x

def isWaiting : PoolThread α → Bool
  | .waiting => true
  | _ => false

end PoolThread

namespace ThreadPool

/-- The owner starts the pool, a `pthread_create` succeeds or fails, the owner
calls `destroy_threadpool` and goes on in it; a caller calls `add_task` and goes
on in it, where its signal reaches the thread `w`; a thread goes on in
`execute_thread`, or wakes without a signal. -/
inductive Act (α : Type) where
  | start
  | create (ok : Bool)
  | destroy
  | owner
  | call (c : ℕ) (task : α)
  | caller (c w : ℕ)
  | thread (w : ℕ)
  | spurious (w : ℕ)
  deriving DecidableEq, Repr

variable {α : Type} (v : ThreadPool)

/-- The next step of `execute_thread` in the thread `w`. -/
def executeThread (s : Pool α) (w : ℕ) : PoolThread α → Option (Pool α)
  | .locking | .woken =>
      if s.mutex then none else some ({ s with mutex := true }.withThread w .testing)
  | .testing =>
      if s.state ≠ .stopped ∧ s.tasks.isEmpty then
        -- `pthread_cond_wait` releases the mutex as it goes to sleep
        some ({ s with mutex := false }.withThread w .waiting)
      else some (s.withThread w .deciding)
  | .waiting => none
  | .deciding =>
      if s.state = .stopped then some (s.withThread w .leaving)
      else
        match s.tasks with
        | [] => some (s.withThread w .faulted)
        | task :: tasks =>
            some ({ s with tasks := tasks, begun := s.begun ++ [task] }.withThread w (.taken task))
  | .taken task => some ({ s with mutex := false }.withThread w (.running task))
  | .running task => some ({ s with finished := s.finished ++ [task] }.withThread w .locking)
  | .leaving => some ({ s with mutex := false }.withThread w .exiting)
  | .exiting => some (s.withThread w .exited)
  | .exited => none
  | .faulted => none

/-- The next step of `add_task` in the caller `c`. `signal` wakes a thread that
waits; when none does, it is lost. -/
def addTask (s : Pool α) (c w : ℕ) : PoolCaller α → Option (Pool α)
  | .outside => none
  | .locking task =>
      if s.mutex then none else some ({ s with mutex := true }.withCaller c (.testing task))
  | .testing task =>
      if 0 < v.taskSizeLimit ∧ v.taskSizeLimit < intOfSize s.tasks.length then
        some (s.withCaller c (.unlocking (-1)))
      else some (s.withCaller c (.pushing task))
  | .pushing task =>
      some ({ s with tasks := s.tasks ++ [task], accepted := s.accepted ++ [task] }.withCaller c
        .signalling)
  | .signalling =>
      if s.threads.any PoolThread.isWaiting then
        match s.threads[w]? with
        | some .waiting => some ((s.withThread w .woken).withCaller c (.unlocking 0))
        | _ => none
      else some (s.withCaller c (.unlocking 0))
  | .unlocking _ => some ({ s with mutex := false }.withCaller c .outside)

/-- The next step of `destroy_threadpool`. -/
def destroyThreadpool (s : Pool α) : Option (Pool α) :=
  match s.owner with
  | .locking => if s.mutex then none else some { s with mutex := true, owner := .setting }
  | .setting => some { s with state := .stopped, owner := .unlocking }
  | .unlocking => some { s with mutex := false, owner := .broadcasting 0 }
  | .broadcasting i =>
      some { s with threads := s.threads.map PoolThread.wake, owner := .joining i }
  | .joining i =>
      if i < v.poolSize then
        match s.threads[i]? with
        | some .exited => some { s with owner := .broadcasting (i + 1) }
        | some _ => none
        | none => some { s with owner := .faulted }
      else some { s with owner := .destroyed (intOfSize s.tasks.length) }
  | _ => none

/-- `start_threadpool` up to its loop. -/
def startThreadpool (s : Pool α) : Pool α :=
  if v.poolSize = 0 ∨ s.state = .started then s
  else { s with state := .started, owner := .creating 0 }

/-- The next round of the loop of `start_threadpool`. -/
def createThread (s : Pool α) (ok : Bool) : Option (Pool α) :=
  match s.owner with
  | .creating i =>
      if i < v.poolSize ∧ ok then
        some { s with threads := s.threads ++ [.locking], owner := .creating (i + 1) }
      else some { s with owner := .outside }
  | _ => none

/-- One step of the owner, of a caller or of a thread. -/
def step (s : Pool α) : Act α → Option (Pool α)
  | .start => if s.owner = .outside then some (v.startThreadpool s) else none
  | .create ok => v.createThread s ok
  | .destroy => if s.owner = .outside then some { s with owner := .locking } else none
  | .owner => v.destroyThreadpool s
  | .call c task =>
      match s.callers[c]? with
      | some .outside => some (s.withCaller c (.locking task))
      | _ => none
  | .caller c w =>
      match s.callers[c]? with
      | some x => v.addTask s c w x
      | none => none
  | .thread w =>
      match s.threads[w]? with
      | some x => executeThread s w x
      | none => none
  | .spurious w =>
      match s.threads[w]? with
      | some .waiting => some (s.withThread w .woken)
      | _ => none

/-- The pool with any number of callers, under any scheduling. -/
def system (α : Type) : LabelledSystem (Pool α) (Act α) := ⟨v.step⟩

/-! ## The steps with what each of them needs -/

/-- A thread goes from `x` to `y` and leaves the rest of the pool as in `u`. -/
inductive ThreadMove (s : Pool α) : PoolThread α → PoolThread α → Pool α → Prop
  | lock (x : PoolThread α) (hx : x = .locking ∨ x = .woken) (hfree : s.mutex = false) :
      ThreadMove s x .testing { s with mutex := true }
  | sleep (hstate : s.state ≠ .stopped) (htasks : s.tasks = []) :
      ThreadMove s .testing .waiting { s with mutex := false }
  | pass (hwork : s.state = .stopped ∨ s.tasks ≠ []) : ThreadMove s .testing .deciding s
  | leave (hstate : s.state = .stopped) : ThreadMove s .deciding .leaving s
  | fault (hstate : s.state ≠ .stopped) (htasks : s.tasks = []) :
      ThreadMove s .deciding .faulted s
  | take (task : α) (tasks : List α) (hstate : s.state ≠ .stopped)
      (htasks : s.tasks = task :: tasks) :
      ThreadMove s .deciding (.taken task)
        { s with tasks := tasks, begun := s.begun ++ [task] }
  | release (task : α) : ThreadMove s (.taken task) (.running task) { s with mutex := false }
  | run (task : α) :
      ThreadMove s (.running task) .locking { s with finished := s.finished ++ [task] }
  | unlock : ThreadMove s .leaving .exiting { s with mutex := false }
  | exit : ThreadMove s .exiting .exited s

/-- A caller goes from `x` to `y` and leaves the rest of the pool as in `u`;
its signal may reach the thread `w`. -/
inductive CallerMove (s : Pool α) (w : ℕ) : PoolCaller α → PoolCaller α → Pool α → Prop
  | lock (task : α) (hfree : s.mutex = false) :
      CallerMove s w (.locking task) (.testing task) { s with mutex := true }
  | refuse (task : α) (hlimit : 0 < v.taskSizeLimit)
      (hfull : v.taskSizeLimit < intOfSize s.tasks.length) :
      CallerMove s w (.testing task) (.unlocking (-1)) s
  | accept (task : α) (hroom : 0 < v.taskSizeLimit → intOfSize s.tasks.length ≤ v.taskSizeLimit) :
      CallerMove s w (.testing task) (.pushing task) s
  | push (task : α) :
      CallerMove s w (.pushing task) .signalling
        { s with tasks := s.tasks ++ [task], accepted := s.accepted ++ [task] }
  | wake (hw : s.threads[w]? = some .waiting) :
      CallerMove s w .signalling (.unlocking 0) (s.withThread w .woken)
  | lost (hnone : .waiting ∉ s.threads) : CallerMove s w .signalling (.unlocking 0) s
  | unlock (ret : Int) : CallerMove s w (.unlocking ret) .outside { s with mutex := false }

/-- The steps of the owner. -/
inductive OwnerMove (s : Pool α) : Act α → Pool α → Prop
  | same (howner : s.owner = .outside) : OwnerMove s .start s
  | start (howner : s.owner = .outside) (hstate : s.state ≠ .started) :
      OwnerMove s .start { s with state := .started, owner := .creating 0 }
  | create (i : ℕ) (howner : s.owner = .creating i) (hi : i < v.poolSize) :
      OwnerMove s (.create true)
        { s with threads := s.threads ++ [.locking], owner := .creating (i + 1) }
  | created (i : ℕ) (ok : Bool) (howner : s.owner = .creating i)
      (hend : i < v.poolSize → ok = false) :
      OwnerMove s (.create ok) { s with owner := .outside }
  | destroy (howner : s.owner = .outside) : OwnerMove s .destroy { s with owner := .locking }
  | lock (howner : s.owner = .locking) (hfree : s.mutex = false) :
      OwnerMove s .owner { s with mutex := true, owner := .setting }
  | set (howner : s.owner = .setting) :
      OwnerMove s .owner { s with state := .stopped, owner := .unlocking }
  | unlock (howner : s.owner = .unlocking) :
      OwnerMove s .owner { s with mutex := false, owner := .broadcasting 0 }
  | broadcast (i : ℕ) (howner : s.owner = .broadcasting i) :
      OwnerMove s .owner { s with threads := s.threads.map PoolThread.wake, owner := .joining i }
  | join (i : ℕ) (howner : s.owner = .joining i) (hi : i < v.poolSize)
      (hthread : s.threads[i]? = some .exited) :
      OwnerMove s .owner { s with owner := .broadcasting (i + 1) }
  | fault (i : ℕ) (howner : s.owner = .joining i) (hi : i < v.poolSize)
      (hthread : s.threads[i]? = none) : OwnerMove s .owner { s with owner := .faulted }
  | joined (i : ℕ) (howner : s.owner = .joining i) (hi : v.poolSize ≤ i) :
      OwnerMove s .owner { s with owner := .destroyed (intOfSize s.tasks.length) }

inductive Taken (s : Pool α) : Act α → Pool α → Prop
  | thread (w : ℕ) {x y : PoolThread α} {u : Pool α} (hw : s.threads[w]? = some x)
      (hmove : ThreadMove s x y u) : Taken s (.thread w) (u.withThread w y)
  | spurious (w : ℕ) (hw : s.threads[w]? = some .waiting) :
      Taken s (.spurious w) (s.withThread w .woken)
  | call (c : ℕ) (task : α) (hc : s.callers[c]? = some .outside) :
      Taken s (.call c task) (s.withCaller c (.locking task))
  | caller (c w : ℕ) {x y : PoolCaller α} {u : Pool α} (hc : s.callers[c]? = some x)
      (hmove : v.CallerMove s w x y u) : Taken s (.caller c w) (u.withCaller c y)
  | owner (a : Act α) {t : Pool α} (hmove : v.OwnerMove s a t) : Taken s a t

theorem waiting_mem_of_any {threads : List (PoolThread α)} :
    threads.any PoolThread.isWaiting = true ↔ .waiting ∈ threads := by
  rw [List.any_eq_true]
  constructor
  · rintro ⟨x, hx, hwaits⟩
    cases x <;> first | exact hx | simp [PoolThread.isWaiting] at hwaits
  · intro h
    exact ⟨.waiting, h, rfl⟩

theorem threadMove_of_execute {s t : Pool α} {w : ℕ} {x : PoolThread α}
    (h : executeThread s w x = some t) :
    ∃ y u, ThreadMove s x y u ∧ t = u.withThread w y := by
  cases x with
  | locking =>
      simp only [executeThread] at h
      split at h
      · cases h
      · rename_i hfree
        exact ⟨_, _, .lock _ (.inl rfl) (by simpa using hfree), (Option.some.inj h).symm⟩
  | woken =>
      simp only [executeThread] at h
      split at h
      · cases h
      · rename_i hfree
        exact ⟨_, _, .lock _ (.inr rfl) (by simpa using hfree), (Option.some.inj h).symm⟩
  | testing =>
      simp only [executeThread] at h
      split at h
      · rename_i htest
        exact ⟨_, _, .sleep htest.1 (by simpa using htest.2), (Option.some.inj h).symm⟩
      · rename_i htest
        refine ⟨_, _, .pass ?_, (Option.some.inj h).symm⟩
        by_cases hstate : s.state = .stopped
        · exact .inl hstate
        · exact .inr (by simpa [hstate] using htest)
  | waiting => cases h
  | deciding =>
      simp only [executeThread] at h
      split at h
      · rename_i hstate
        exact ⟨_, _, .leave hstate, (Option.some.inj h).symm⟩
      · rename_i hstate
        split at h
        · rename_i htasks
          exact ⟨_, _, .fault hstate htasks, (Option.some.inj h).symm⟩
        · rename_i task tasks htasks
          exact ⟨_, _, .take task tasks hstate htasks, (Option.some.inj h).symm⟩
  | taken task => exact ⟨_, _, .release task, (Option.some.inj h).symm⟩
  | running task => exact ⟨_, _, .run task, (Option.some.inj h).symm⟩
  | leaving => exact ⟨_, _, .unlock, (Option.some.inj h).symm⟩
  | exiting => exact ⟨_, _, .exit, (Option.some.inj h).symm⟩
  | exited => cases h
  | faulted => cases h

theorem callerMove_of_addTask {s t : Pool α} {c w : ℕ} {x : PoolCaller α}
    (h : v.addTask s c w x = some t) :
    ∃ y u, v.CallerMove s w x y u ∧ t = u.withCaller c y := by
  cases x with
  | outside => cases h
  | locking task =>
      simp only [addTask] at h
      split at h
      · cases h
      · rename_i hfree
        exact ⟨_, _, .lock task (by simpa using hfree), (Option.some.inj h).symm⟩
  | testing task =>
      simp only [addTask] at h
      split at h
      · rename_i hfull
        exact ⟨_, _, .refuse task hfull.1 hfull.2, (Option.some.inj h).symm⟩
      · rename_i hroom
        exact ⟨_, _, .accept task (fun hlimit ↦ Int.not_lt.mp fun hfull ↦ hroom ⟨hlimit, hfull⟩),
          (Option.some.inj h).symm⟩
  | pushing task => exact ⟨_, _, .push task, (Option.some.inj h).symm⟩
  | signalling =>
      simp only [addTask] at h
      split at h
      · split at h
        · rename_i hw
          exact ⟨_, _, .wake hw, (Option.some.inj h).symm⟩
        · cases h
      · rename_i hany
        exact ⟨_, _, .lost (mt waiting_mem_of_any.mpr hany), (Option.some.inj h).symm⟩
  | unlocking ret => exact ⟨_, _, .unlock ret, (Option.some.inj h).symm⟩

theorem ownerMove_of_destroy {s t : Pool α} (h : v.destroyThreadpool s = some t) :
    v.OwnerMove s .owner t := by
  unfold destroyThreadpool at h
  split at h
  · rename_i howner
    split at h
    · cases h
    · rename_i hfree
      obtain rfl := Option.some.inj h
      exact .lock howner (by simpa using hfree)
  · rename_i howner
    obtain rfl := Option.some.inj h
    exact .set howner
  · rename_i howner
    obtain rfl := Option.some.inj h
    exact .unlock howner
  · rename_i i howner
    obtain rfl := Option.some.inj h
    exact .broadcast i howner
  · rename_i i howner
    split at h
    · rename_i hi
      split at h
      · rename_i hthread
        obtain rfl := Option.some.inj h
        exact .join i howner hi hthread
      · cases h
      · rename_i hthread
        obtain rfl := Option.some.inj h
        exact .fault i howner hi hthread
    · rename_i hi
      obtain rfl := Option.some.inj h
      exact .joined i howner (Nat.not_lt.mp hi)
  · cases h

theorem ownerMove_of_create {s t : Pool α} {ok : Bool} (h : v.createThread s ok = some t) :
    v.OwnerMove s (.create ok) t := by
  unfold createThread at h
  split at h
  · rename_i i howner
    split at h
    · rename_i hok
      obtain rfl := Option.some.inj h
      rw [hok.2]
      exact .create i howner hok.1
    · rename_i hend
      obtain rfl := Option.some.inj h
      exact .created i ok howner fun hi ↦ by simpa [hi] using hend
  · cases h

theorem ownerMove_of_start {s : Pool α} (howner : s.owner = .outside) :
    v.OwnerMove s .start (v.startThreadpool s) := by
  unfold startThreadpool
  split
  · exact .same howner
  · rename_i hnew
    exact .start howner fun hstarted ↦ hnew (.inr hstarted)

theorem taken_of_step {s t : Pool α} {a : Act α} (h : (v.system α).step s a = some t) :
    v.Taken s a t := by
  simp only [system, step] at h
  split at h
  · split at h
    · rename_i howner
      obtain rfl := Option.some.inj h
      exact .owner _ (v.ownerMove_of_start howner)
    · cases h
  · exact .owner _ (v.ownerMove_of_create h)
  · split at h
    · rename_i howner
      obtain rfl := Option.some.inj h
      exact .owner _ (.destroy howner)
    · cases h
  · exact .owner _ (v.ownerMove_of_destroy h)
  · split at h
    · rename_i hc
      obtain rfl := Option.some.inj h
      exact .call _ _ hc
    · cases h
  · split at h
    · rename_i hc
      obtain ⟨y, u, hmove, rfl⟩ := v.callerMove_of_addTask h
      exact .caller _ _ hc hmove
    · cases h
  · split at h
    · rename_i hw
      obtain ⟨y, u, hmove, rfl⟩ := threadMove_of_execute h
      exact .thread _ hw hmove
    · cases h
  · split at h
    · rename_i hw
      obtain rfl := Option.some.inj h
      exact .spurious _ hw
    · cases h

end ThreadPool

end SimpleFlow
