import SimpleFlow.PoolProgress

/-!
# The pool at rest and the end of the pool

A pool that can do nothing by itself has a free mutex and no caller inside
`add_task`. If it was not destroyed, its threads sleep and every task is
finished. If it is being destroyed, all its threads are gone and
`destroy_threadpool` has returned, unless `start_threadpool` had failed: then it
reads past the end of `m_threads`.
-/

namespace SimpleFlow

variable {α : Type}

def PoolThread.leaves : PoolThread α → Bool
  | .leaving | .exiting | .exited => true
  | _ => false

namespace Pool

open ThreadPool

variable {v : ThreadPool} {s t u : Pool α} {w : ℕ}

/-! ## At rest -/

theorem AtRest.no_thread_step {x : PoolThread α} (h : s.AtRest v) (hw : s.threads[w]? = some x) :
    executeThread s w x = none := by
  simpa [system, ThreadPool.step, hw] using h (.thread w) rfl

theorem AtRest.no_caller_step {c : ℕ} {x : PoolCaller α} (h : s.AtRest v)
    (hc : s.callers[c]? = some x) (w : ℕ) : v.addTask s c w x = none := by
  simpa [system, ThreadPool.step, hc] using h (.caller c w) rfl

theorem AtRest.no_owner_step (h : s.AtRest v) : v.destroyThreadpool s = none :=
  h .owner rfl

theorem AtRest.thread_not_holding {x : PoolThread α} (h : s.AtRest v) (hguard : s.Guarded)
    (hmem : x ∈ s.threads) : x.holds = false := by
  obtain ⟨w, hw⟩ := List.mem_iff_getElem?.mp hmem
  have hstuck := h.no_thread_step hw
  cases x with
  | testing =>
      simp only [executeThread] at hstuck
      split at hstuck <;> cases hstuck
  | deciding =>
      simp only [executeThread] at hstuck
      split at hstuck
      · cases hstuck
      · split at hstuck <;> cases hstuck
  | taken | leaving => cases hstuck
  | faulted => exact absurd hmem hguard.faulted
  | _ => rfl

theorem AtRest.caller_not_holding {x : PoolCaller α} (h : s.AtRest v) (hmem : x ∈ s.callers) :
    x.holds = false := by
  obtain ⟨c, hc⟩ := List.mem_iff_getElem?.mp hmem
  cases x with
  | testing =>
      have hstuck := h.no_caller_step hc 0
      simp only [addTask] at hstuck
      split at hstuck <;> cases hstuck
  | signalling =>
      by_cases hany : s.threads.any PoolThread.isWaiting = true
      · -- the signal reaches some thread that waits
        obtain ⟨w, hw⟩ := List.mem_iff_getElem?.mp (waiting_mem_of_any.mp hany)
        have hstuck := h.no_caller_step hc w
        simp [addTask, hany, hw] at hstuck
      · have hstuck := h.no_caller_step hc 0
        simp [addTask, hany] at hstuck
  | pushing | unlocking => cases h.no_caller_step hc 0
  | _ => rfl

theorem AtRest.owner_not_holding (h : s.AtRest v) : s.owner.holds = false := by
  have hstuck := h.no_owner_step
  cases howner : s.owner with
  | setting | unlocking => simp [destroyThreadpool, howner] at hstuck
  | _ => rfl

theorem AtRest.mutex (h : s.AtRest v) (hguard : s.Guarded) : s.mutex = false := by
  have hthreads : s.threads.countP PoolThread.holds = 0 := by
    rw [List.countP_eq_zero]
    intro x hx
    simp [h.thread_not_holding hguard hx]
  have hcallers : s.callers.countP PoolCaller.holds = 0 := by
    rw [List.countP_eq_zero]
    intro x hx
    simp [h.caller_not_holding hx]
  have hmutex := hguard.mutex
  rw [holders, hthreads, hcallers, h.owner_not_holding] at hmutex
  cases hm : s.mutex with
  | false => rfl
  | true => simp [hm] at hmutex

theorem AtRest.thread {x : PoolThread α} (h : s.AtRest v) (hguard : s.Guarded)
    (hmem : x ∈ s.threads) : x = .waiting ∨ x = .exited := by
  obtain ⟨w, hw⟩ := List.mem_iff_getElem?.mp hmem
  have hstuck := h.no_thread_step hw
  have hheld := h.thread_not_holding hguard hmem
  cases x with
  | waiting => exact .inl rfl
  | exited => exact .inr rfl
  | locking | woken => simp [executeThread, h.mutex hguard] at hstuck
  | running | exiting => cases hstuck
  | testing | deciding | taken | leaving | faulted => cases hheld

theorem AtRest.caller {x : PoolCaller α} (h : s.AtRest v) (hguard : s.Guarded)
    (hmem : x ∈ s.callers) : x = .outside := by
  obtain ⟨c, hc⟩ := List.mem_iff_getElem?.mp hmem
  have hheld := h.caller_not_holding hmem
  cases x with
  | outside => rfl
  | locking =>
      have hstuck := h.no_caller_step hc 0
      simp [addTask, h.mutex hguard] at hstuck
  | testing | pushing | signalling | unlocking => cases hheld

/-- At rest the owner is in no call, or in a join that does not come back. -/
theorem AtRest.owner (h : s.AtRest v) (hguard : s.Guarded) :
    s.owner = .outside ∨ (∃ ret, s.owner = .destroyed ret) ∨ s.owner = .faulted ∨
      ∃ i x, s.owner = .joining i ∧ i < v.poolSize ∧ s.threads[i]? = some x ∧ x ≠ .exited := by
  have hstuck := h.no_owner_step
  have hheld := h.owner_not_holding
  cases howner : s.owner with
  | outside => exact .inl rfl
  | destroyed ret => exact .inr (.inl ⟨ret, rfl⟩)
  | faulted => exact .inr (.inr (.inl rfl))
  | creating i =>
      have hcreate := h (.create false) rfl
      simp [system, ThreadPool.step, createThread, howner] at hcreate
  | locking => simp [destroyThreadpool, howner, h.mutex hguard] at hstuck
  | broadcasting i => simp [destroyThreadpool, howner] at hstuck
  | joining i =>
      simp only [destroyThreadpool, howner] at hstuck
      split at hstuck
      · rename_i hi
        split at hstuck
        · cases hstuck
        · rename_i x hne hx
          exact .inr (.inr (.inr ⟨i, x, rfl, hi, hx, fun heq ↦ hne (heq ▸ rfl)⟩))
        · cases hstuck
      · cases hstuck
  | setting | unlocking => simp [howner, PoolOwner.holds] at hheld

/-! ## Who has left -/

/-- Threads leave only a pool that is being destroyed; none sleeps there after
the first broadcast, and the owner waits for each of them. -/
structure Leaving (poolSize : ℕ) (s : Pool α) : Prop where
  leaves : ∀ x ∈ s.threads, x.leaves = true → s.state = .stopped
  asleep : s.state = .stopped → .waiting ∈ s.threads →
    s.owner = .unlocking ∨ s.owner = .broadcasting 0
  joined : ∀ i, s.owner = .broadcasting i ∨ s.owner = .joining i →
    ∀ j < i, s.threads[j]? = some .exited
  destroyed : ∀ ret, s.owner = .destroyed ret →
    s.threads.length = poolSize ∧ ∀ x ∈ s.threads, x = .exited
  faulted : s.owner = .faulted → s.threads.length < poolSize

theorem Leaving.fresh_pool (callers : ℕ) : (Pool.fresh α callers).Leaving v.poolSize := by
  constructor <;> simp [Pool.fresh]

theorem Leaving.thread {x y : PoolThread α} (h : s.Leaving v.poolSize) (hw : s.threads[w]? = some x)
    (hmove : ThreadMove s x y u) : (u.withThread w y).Leaving v.poolSize := by
  obtain ⟨hstate, howner, hthreads, -⟩ := hmove.frame
  have hx : x ≠ .exited := by
    rintro rfl
    cases hmove with
    | lock x hx => simp at hx
  refine ⟨?_, ?_, ?_, ?_, ?_⟩
  · intro z hz hleaves
    rw [withThread, hstate]
    rcases List.mem_or_eq_of_mem_set hz with hz | rfl
    · exact h.leaves z (hthreads ▸ hz) hleaves
    · cases hmove with
      | leave hstopped => exact hstopped
      | unlock => exact h.leaves _ (List.mem_of_getElem? hw) rfl
      | exit => exact h.leaves _ (List.mem_of_getElem? hw) rfl
      | _ => cases hleaves
  · intro hstopped hmem
    rw [withThread, hstate] at hstopped
    rw [withThread, howner]
    rcases List.mem_or_eq_of_mem_set hmem with hmem | heq
    · exact h.asleep hstopped (hthreads ▸ hmem)
    · subst heq
      cases hmove with
      | sleep hrunning => exact absurd hstopped hrunning
  · intro i hi j hj
    have hold := h.joined i (by simpa [withThread, howner] using hi) j hj
    have hne : w ≠ j := by
      rintro rfl
      exact hx (Option.some.inj (hw.symm.trans hold))
    rw [withThread, hthreads, Slots.set_getElem? hw, if_neg hne]
    exact hold
  · intro ret hret
    have hold := h.destroyed ret (by simpa [withThread, howner] using hret)
    exact absurd (hold.2 x (List.mem_of_getElem? hw)) hx
  · intro hfault
    simpa [withThread, hthreads] using h.faulted (by simpa [withThread, howner] using hfault)

theorem Leaving.woken (h : s.Leaving v.poolSize) (hw : s.threads[w]? = some .waiting) :
    (s.withThread w .woken).Leaving v.poolSize := by
  refine ⟨?_, ?_, ?_, ?_, ?_⟩
  · apply Slots.forall_set h.leaves
    intro hleaves
    cases hleaves
  · intro hstopped hmem
    exact h.asleep hstopped (mem_of_mem_woken (by simp) hmem)
  · intro i hi j hj
    have hold := h.joined i hi j hj
    have hne : w ≠ j := by
      rintro rfl
      cases hw.symm.trans hold
    rw [withThread, Slots.set_getElem? hw, if_neg hne]
    exact hold
  · intro ret hret
    cases (h.destroyed ret hret).2 _ (List.mem_of_getElem? hw)
  · intro hfault
    simpa [withThread] using h.faulted hfault

theorem Leaving.caller {c : ℕ} {x y : PoolCaller α} (h : s.Leaving v.poolSize)
    (hmove : v.CallerMove s w x y u) : (u.withCaller c y).Leaving v.poolSize := by
  have hu : u.Leaving v.poolSize := by
    cases hmove with
    | wake hw => exact h.woken hw
    | _ => exact ⟨h.leaves, h.asleep, h.joined, h.destroyed, h.faulted⟩
  exact ⟨hu.leaves, hu.asleep, hu.joined, hu.destroyed, hu.faulted⟩

/-- Once the state is `STOPPED`, the owner wakes everyone before it joins. -/
theorem Leaving.no_waiting (h : s.Leaving v.poolSize) (hphase : s.Phased v.poolSize)
    (hstopped : s.owner.hasStopped = true) (hpast : s.owner ≠ .unlocking)
    (hpast' : s.owner ≠ .broadcasting 0) : .waiting ∉ s.threads := by
  intro hmem
  rcases h.asleep (hphase.stopped.mpr hstopped) hmem with howner | howner
  · exact hpast howner
  · exact hpast' howner

theorem waiting_not_mem_wake (threads : List (PoolThread α)) :
    .waiting ∉ threads.map PoolThread.wake := by
  intro hmem
  obtain ⟨x, -, hx⟩ := List.mem_map.mp hmem
  cases x <;> simp [PoolThread.wake] at hx

theorem Leaving.owner {a : ThreadPool.Act α} (h : s.Leaving v.poolSize)
    (hphase : s.Phased v.poolSize)
    (hmove : v.OwnerMove s a t) : t.Leaving v.poolSize := by
  obtain ⟨hleaves, hasleep, hjoined, hdestroyed, hfaulted⟩ := h
  cases hmove with
  | same => exact ⟨hleaves, hasleep, hjoined, hdestroyed, hfaulted⟩
  | start howner hstate =>
      have hnone : s.threads = [] := by
        cases hs : s.state with
        | fresh => exact hphase.fresh hs
        | started => exact absurd hs hstate
        | stopped => simpa [howner, PoolOwner.hasStopped, hs] using hphase.stopped
      constructor <;> simp [hnone]
  | create i howner hi =>
      have hrunning : s.state ≠ .stopped := by
        intro hstopped
        simpa [howner, PoolOwner.hasStopped] using hphase.stopped.mp hstopped
      refine ⟨?_, fun hstopped ↦ absurd hstopped hrunning, by simp, by simp, by simp⟩
      intro x hx hl
      rcases List.mem_append.mp hx with hx | hx
      · exact hleaves x hx hl
      · rw [List.mem_singleton.mp hx] at hl
        cases hl
  | created i _ howner =>
      have hrunning : s.state ≠ .stopped := by
        intro hstopped
        simpa [howner, PoolOwner.hasStopped] using hphase.stopped.mp hstopped
      exact ⟨hleaves, fun hstopped ↦ absurd hstopped hrunning, by simp, by simp, by simp⟩
  | destroy howner | lock howner =>
      have hrunning : s.state ≠ .stopped := by
        intro hstopped
        simpa [howner, PoolOwner.hasStopped] using hphase.stopped.mp hstopped
      exact ⟨hleaves, fun hstopped ↦ absurd hstopped hrunning, by simp, by simp, by simp⟩
  | set howner => exact ⟨fun _ _ _ ↦ rfl, fun _ _ ↦ .inl rfl, by simp, by simp, by simp⟩
  | unlock howner => exact ⟨hleaves, fun _ _ ↦ .inr rfl, by simp, by simp, by simp⟩
  | broadcast i howner =>
      have hstopped : s.state = .stopped := hphase.stopped.mpr (by rw [howner]; rfl)
      refine ⟨fun _ _ _ ↦ hstopped, fun _ hmem ↦ absurd hmem (waiting_not_mem_wake _), ?_,
        by simp, by simp⟩
      intro k hk j hj
      obtain rfl : i = k := by simpa using hk
      have hold := hjoined i (.inl howner) j hj
      simp [hold, PoolThread.wake]
  | join i howner hi hthread =>
      have hnone := Leaving.no_waiting ⟨hleaves, hasleep, hjoined, hdestroyed, hfaulted⟩ hphase
        (by rw [howner]; rfl) (by simp [howner]) (by simp [howner])
      refine ⟨hleaves, fun _ hmem ↦ absurd hmem hnone, ?_, by simp, by simp⟩
      intro k hk j hj
      obtain rfl : i + 1 = k := by simpa using hk
      rcases Nat.lt_succ_iff_lt_or_eq.mp hj with hlt | rfl
      · exact hjoined i (.inr howner) j hlt
      · exact hthread
  | fault i howner hi hthread =>
      have hnone := Leaving.no_waiting ⟨hleaves, hasleep, hjoined, hdestroyed, hfaulted⟩ hphase
        (by rw [howner]; rfl) (by simp [howner]) (by simp [howner])
      have hlength := List.getElem?_eq_none_iff.mp hthread
      exact ⟨hleaves, fun _ hmem ↦ absurd hmem hnone, by simp, by simp,
        fun _ ↦ Nat.lt_of_le_of_lt hlength hi⟩
  | joined i howner hi =>
      have hnone := Leaving.no_waiting ⟨hleaves, hasleep, hjoined, hdestroyed, hfaulted⟩ hphase
        (by rw [howner]; rfl) (by simp [howner]) (by simp [howner])
      have hsize := hphase.size
      have hlength : i ≤ s.threads.length := by
        by_contra hshort
        have hlast := hjoined i (.inr howner) s.threads.length (by omega)
        simp at hlast
      refine ⟨hleaves, fun _ hmem ↦ absurd hmem hnone, by simp, ?_, by simp⟩
      refine fun _ _ ↦ ⟨by simp only; omega, ?_⟩
      intro x hx
      obtain ⟨j, hj⟩ := List.mem_iff_getElem?.mp hx
      have hlt : j < s.threads.length := (List.getElem?_eq_some_iff.mp hj).1
      have hexited := hjoined i (.inr howner) j (by omega)
      exact Option.some.inj (hj.symm.trans hexited)

theorem Leaving.step {a : ThreadPool.Act α} (h : s.Leaving v.poolSize)
    (hphase : s.Phased v.poolSize)
    (hstep : (v.system α).step s a = some t) : t.Leaving v.poolSize := by
  cases v.taken_of_step hstep with
  | thread w hw hmove => exact h.thread hw hmove
  | spurious w hw => exact h.woken hw
  | call c task => exact ⟨h.leaves, h.asleep, h.joined, h.destroyed, h.faulted⟩
  | caller c w _ hmove => exact h.caller hmove
  | owner _ hmove => exact h.owner hphase hmove

/-! ## What the pool has done when it rests -/

theorem exec_invariants {callers : ℕ} {as : List (ThreadPool.Act α)}
    (hrun : (v.system α).exec (Pool.fresh α callers) as = some s) :
    s.Phased v.poolSize ∧ s.Awake ∧ s.Leaving v.poolSize := by
  have hstart : (Pool.fresh α callers).Phased v.poolSize ∧ (Pool.fresh α callers).Awake ∧
      (Pool.fresh α callers).Leaving v.poolSize :=
    ⟨.fresh_pool callers, fun _ hmem ↦ by simp [Pool.fresh] at hmem, .fresh_pool callers⟩
  refine LabelledSystem.exec_invariant
    (P := fun r ↦ r.Phased v.poolSize ∧ r.Awake ∧ r.Leaving v.poolSize) ?_ hstart hrun
  rintro s a t ⟨hphase, hawake, hleaving⟩ hstep
  exact ⟨hphase.step hstep, hawake.step hphase hstep, hleaving.step hphase hstep⟩

theorem length_le_rank {bs : List (ThreadPool.Act α)} (hphase : s.Phased v.poolSize)
    (hinternal : ∀ b ∈ bs, b.internal = true) (hrun : (v.system α).exec s bs = some t) :
    bs.length ≤ s.rank v.poolSize := by
  have hbound := @LabelledSystem.exec_rank _ _ (v.system α) (Phased v.poolSize)
    (fun _ ↦ False) (fun b ↦ b.internal = true) (rank v.poolSize) (fun _ ↦ 0)
    (fun s b t hphase hb hstep ↦ .inr ⟨hphase.step hstep, by
      have hlower := rank_step hphase hb hstep
      omega⟩)
    (fun _ _ _ hfalse ↦ hfalse.elim) s t bs hphase hinternal hrun
  rcases hbound with hfalse | ⟨-, hle⟩
  · exact hfalse.elim
  · omega

/-- From any state that the pool can reach, its own steps come to an end, and
unless it was destroyed they end with every accepted task finished. -/
theorem drained (v : ThreadPool) {callers : ℕ} {as bs : List (ThreadPool.Act α)}
    (hrun : (v.system α).exec (Pool.fresh α callers) as = some s)
    (hinternal : ∀ b ∈ bs, b.internal = true) (hrest : (v.system α).exec s bs = some t) :
    bs.length ≤ s.rank v.poolSize ∧
      (t.AtRest v → t.threads ≠ [] → t.state ≠ .stopped →
        t.tasks = [] ∧ t.finished.Perm t.accepted ∧ ∀ x ∈ t.callers, x = .outside) := by
  refine ⟨length_le_rank (exec_invariants hrun).1 hinternal hrest, ?_⟩
  intro hatRest hthreads hstate
  have hall : (v.system α).exec (Pool.fresh α callers) (as ++ bs) = some t := by
    rw [LabelledSystem.exec_append_of_exec hrun]
    exact hrest
  obtain ⟨-, hguard, hkept⟩ := exec_queued hall
  obtain ⟨-, hawake, hleaving⟩ := exec_invariants hall
  have hwaits : ∀ x ∈ t.threads, x = .waiting := by
    intro x hx
    rcases hatRest.thread hguard hx with hwaiting | rfl
    · exact hwaiting
    · exact absurd (hleaving.leaves _ hx rfl) hstate
  have hcallers : ∀ x ∈ t.callers, x = .outside := fun x ↦ hatRest.caller hguard
  have hcoming : t.coming = 0 := by
    have hcount : t.threads.countP PoolThread.coming = 0 := by
      rw [List.countP_eq_zero]
      intro x hx
      simp [hwaits x hx, PoolThread.coming]
    have hcount' : t.callers.countP PoolCaller.signals = 0 := by
      rw [List.countP_eq_zero]
      intro x hx
      simp [hcallers x hx, PoolCaller.signals]
    rw [coming, hcount, hcount']
  obtain ⟨x, hx⟩ := List.exists_mem_of_ne_nil _ hthreads
  have hle := hawake hstate (hwaits x hx ▸ hx)
  have htasks : t.tasks = [] := List.eq_nil_of_length_eq_zero (by omega)
  have hheld : t.queue.held = [] := by
    simp only [queue, WorkQueue.held, List.filterMap_map, List.filterMap_eq_nil_iff]
    intro x hx
    simp [hwaits x hx, PoolThread.task]
  refine ⟨htasks, ?_, hcallers⟩
  have horder : t.accepted = t.begun ++ t.tasks := hkept.order
  have hplace : t.begun.Perm (t.finished ++ t.queue.held) := hkept.place
  rw [hheld, List.append_nil] at hplace
  rw [horder, htasks, List.append_nil]
  exact hplace.symm

/-- The thread that slept when the task came runs it and sleeps again. -/
theorem drained_of_one :
    let s : Pool ℕ := ⟨.started, false, [], [.waiting], [.locking 7], .outside, [], [], []⟩
    let t : Pool ℕ := ⟨.started, false, [], [.waiting], [.outside], .outside, [7], [7], [7]⟩
    12 ≤ s.rank 1 ∧
      (t.AtRest ⟨1, -1⟩ → t.threads ≠ [] → t.state ≠ .stopped →
        t.tasks = [] ∧ t.finished.Perm t.accepted ∧ ∀ x ∈ t.callers, x = .outside) := by
  intro s t
  have hrun : ((ThreadPool.mk 1 (-1)).system ℕ).exec (Pool.fresh ℕ 1)
      [.start, .create true, .create true, .thread 0, .thread 0, .call 0 7] = some s := by
    decide
  have hrest : ((ThreadPool.mk 1 (-1)).system ℕ).exec s
      (List.replicate 5 (.caller 0 0) ++ List.replicate 7 (.thread 0)) = some t := by
    decide
  exact drained _ hrun (by decide) hrest

theorem begun_of_stopped {a : ThreadPool.Act α} (hphase : s.Phased v.poolSize)
    (hstopped : s.owner.hasStopped = true) (hstep : (v.system α).step s a = some t) :
    t.begun = s.begun ∧ t.owner.hasStopped = true := by
  have hstate : s.state = .stopped := hphase.stopped.mpr hstopped
  cases v.taken_of_step hstep with
  | thread w hw hmove =>
      obtain ⟨-, howner, -, -⟩ := hmove.frame
      refine ⟨?_, by rw [withThread, howner]; exact hstopped⟩
      cases hmove with
      | take _ _ hrunning => exact absurd hstate hrunning
      | _ => rfl
  | spurious | call => exact ⟨rfl, hstopped⟩
  | caller c w hc hmove =>
      obtain ⟨-, howner, -, -⟩ := hmove.frame
      refine ⟨?_, by rw [withCaller, howner]; exact hstopped⟩
      cases hmove <;> rfl
  | owner _ hmove =>
      cases hmove with
      | same | start howner | create _ howner | created _ _ howner | destroy howner
      | lock howner | set howner =>
          simp_all [PoolOwner.hasStopped]
      | _ => exact ⟨rfl, rfl⟩

/-- From the moment `STOPPED` is set no task is begun any more, and the steps of
the pool come to an end: `destroy_threadpool` has then returned if every thread
had been created, and has read past the end of `m_threads` if not. When it
returns all threads are gone, and it answers how many accepted tasks were never
begun, as an `int`. -/
theorem destroyed (v : ThreadPool) {callers : ℕ} {as bs : List (ThreadPool.Act α)}
    (hrun : (v.system α).exec (Pool.fresh α callers) as = some s)
    (hstopped : s.owner.hasStopped = true) (hrest : (v.system α).exec s bs = some t) :
    t.begun = s.begun ∧
      ((∀ b ∈ bs, b.internal = true) → bs.length ≤ s.rank v.poolSize) ∧
      (t.AtRest v →
        (∃ ret, t.owner = .destroyed ret) ∧ t.threads.length = v.poolSize ∨
          t.owner = .faulted ∧ t.threads.length < v.poolSize) ∧
      ∀ t' ret, (v.system α).step t .owner = some t' → t'.owner = .destroyed ret →
        (∀ x ∈ t'.threads, x = .exited) ∧ t'.finished.Perm t'.begun ∧
          ∃ left, t'.begun.length + left = t'.accepted.length ∧ ret = intOfSize left := by
  have hphase := (exec_invariants hrun).1
  have hall : (v.system α).exec (Pool.fresh α callers) (as ++ bs) = some t := by
    rw [LabelledSystem.exec_append_of_exec hrun]
    exact hrest
  obtain ⟨hphase', hguard, -⟩ := exec_queued hall
  obtain ⟨-, -, hleaving⟩ := exec_invariants hall
  obtain ⟨-, hbegun, hstill⟩ : t.Phased v.poolSize ∧ t.begun = s.begun ∧
      t.owner.hasStopped = true := by
    refine LabelledSystem.exec_invariant
      (P := fun r ↦ r.Phased v.poolSize ∧ r.begun = s.begun ∧ r.owner.hasStopped = true)
      ?_ ⟨hphase, rfl, hstopped⟩ hrest
    rintro r a r' ⟨hr, hsame, hend⟩ hstep
    obtain ⟨hsame', hend'⟩ := begun_of_stopped hr hend hstep
    exact ⟨hr.step hstep, hsame'.trans hsame, hend'⟩
  refine ⟨hbegun, fun hinternal ↦ length_le_rank hphase hinternal hrest, ?_, ?_⟩
  · intro hatRest
    rcases hatRest.owner hguard with howner | ⟨ret, howner⟩ | howner | ⟨i, x, howner, -, hx, hne⟩
    · rw [howner] at hstill
      cases hstill
    · exact .inl ⟨⟨ret, howner⟩, (hleaving.destroyed ret howner).1⟩
    · exact .inr ⟨howner, hleaving.faulted howner⟩
    · rcases hatRest.thread hguard (List.mem_of_getElem? hx) with rfl | hexited
      · exact absurd (List.mem_of_getElem? hx)
          (hleaving.no_waiting hphase' hstill (by simp [howner]) (by simp [howner]))
      · exact absurd hexited hne
  · intro t' ret hstep hret
    have hlast : (v.system α).exec (Pool.fresh α callers) (as ++ bs ++ [.owner]) = some t' := by
      rw [LabelledSystem.exec_concat, hall]
      exact hstep
    obtain ⟨-, -, hkept⟩ := exec_queued hlast
    have hgone := ((exec_invariants hlast).2.2.destroyed ret hret).2
    have horder : t'.accepted = t'.begun ++ t'.tasks := hkept.order
    have hplace : t'.begun.Perm (t'.finished ++ t'.queue.held) := hkept.place
    have hheld : t'.queue.held = [] := by
      simp only [queue, WorkQueue.held, List.filterMap_map, List.filterMap_eq_nil_iff]
      intro x hx
      simp [hgone x hx, PoolThread.task]
    have hlength : ret = intOfSize t'.tasks.length := by
      cases v.taken_of_step hstep with
      | owner _ hmove =>
          cases hmove with
          | joined => exact (PoolOwner.destroyed.inj hret).symm
          | _ => simp at hret
    rw [hheld, List.append_nil] at hplace
    exact ⟨hgone, hplace.symm, t'.tasks.length, by rw [horder, List.length_append], hlength⟩

/-- A task that no thread has begun when the pool stops is counted. -/
theorem destroyed_with_one_left :
    let t : Pool ℕ := ⟨.stopped, false, [7], [.exited], [.outside], .destroyed 1, [7], [], []⟩
    (∀ x ∈ t.threads, x = .exited) ∧ t.finished.Perm t.begun ∧
      ∃ left, t.begun.length + left = t.accepted.length ∧ 1 = intOfSize left := by
  intro t
  have hrun : ((ThreadPool.mk 1 (-1)).system ℕ).exec (Pool.fresh ℕ 1)
      ([.start, .create true, .create true, .call 0 7] ++ List.replicate 5 (.caller 0 0) ++
        [.destroy, .owner, .owner]) =
      some ⟨.stopped, true, [7], [.locking], [.outside], .unlocking, [7], [], []⟩ := by
    decide
  have hrest : ((ThreadPool.mk 1 (-1)).system ℕ).exec
      ⟨.stopped, true, [7], [.locking], [.outside], .unlocking, [7], [], []⟩
      (.owner :: List.replicate 5 (.thread 0) ++ List.replicate 3 .owner) =
      some ⟨.stopped, false, [7], [.exited], [.outside], .joining 1, [7], [], []⟩ := by
    decide
  exact (destroyed _ hrun rfl hrest).2.2.2 t 1 (by decide) rfl

end Pool

end SimpleFlow
