import SimpleFlow.ServerTokens

/-!
# Connections that nothing looks after

A connection is looked after while it has its token. When `epoll_ctl` does what
it is asked and every event has one of the two bits, the only step that drops a
token is the one that meets an answer other than `READ_OVER`, `READ_CONTINUE`
and `READ_CLOSE`; and a registered connection without a token never gets one
again.
-/

namespace SimpleFlow

open LabelledSystem

/-- `epoll_ctl` succeeds, and an event for a connection says that it is
readable or writable. -/
def Act.kept : Act → Bool
  | .ready (.conn _ epollin epollout) => epollin || epollout
  | .ctl ok => ok
  | .settle _ ok => ok
  | _ => true

def Act.settling : Act → Option ℕ
  | .settle w _ => some w
  | _ => none

/-- The answer that the thread acts on next is one of the three. -/
def Worker.answerKnown : Worker → Bool
  | .answered _ ret => ret = readOver ∨ ret = readContinue ∨ ret = readClose
  | _ => true

namespace Server

variable {σ : Type}

/-- Every registered connection is armed, or its event waits for the loop or is
being handled, or a read task for it is queued or running. -/
def NoStranded (s : Server σ) : Prop :=
  ∀ c, (s.conns c).registered = true →
    (s.conns c).armed.isSome = true ∨ (∃ e ∈ s.events, e.client = some c) ∨
      s.loop.client = some c ∨ c ∈ s.tasks ∨ ∃ x ∈ s.workers, x.client = some c

/-- The same, but a task whose thread has let go of the connection does not
count. -/
def Attended (s : Server σ) : Prop := ∀ c, (s.conns c).registered = true → 0 < s.tokens c

/-- The kernel keeps its word in this step. -/
def KernelKeeps (_ : Server σ) (a : Act) : Prop := a.kept = true

instance (s : Server σ) (a : Act) : Decidable (s.KernelKeeps a) :=
  inferInstanceAs (Decidable (a.kept = true))

def KnownAnswer (s : Server σ) (a : Act) : Prop :=
  ∀ w ∈ a.settling, ∀ x ∈ s.workers[w]?, x.answerKnown = true

instance (s : Server σ) (a : Act) : Decidable (s.KnownAnswer a) :=
  inferInstanceAs (Decidable (∀ w ∈ a.settling, ∀ x ∈ s.workers[w]?, x.answerKnown = true))

theorem Attended.noStranded {s : Server σ} (h : s.Attended) : s.NoStranded := by
  intro c hreg
  by_contra hnone
  simp only [not_or, not_exists, not_and] at hnone
  obtain ⟨harmed, hevents, hloop, htasks, hworkers⟩ := hnone
  have htoken : (s.conns c).token = 0 := by simp [Conn.token, harmed]
  have hevent : eventTokens s.events c = 0 := by
    simpa [eventTokens, List.countP_eq_zero] using hevents
  have hheld : held s.loop.client c = 0 := by simp [held, hloop]
  have hcount : s.tasks.count c = 0 := List.count_eq_zero.mpr htasks
  have hworker : workerTokens s.workers c = 0 := by
    rw [workerTokens, List.countP_eq_zero]
    intro x hx hholder
    apply hworkers x hx
    cases x <;> simp_all [Worker.holder]
  have hpos := h c hreg
  simp only [tokens] at hpos
  omega

/-- The invariant of a kernel that keeps its word. -/
structure Served (s : Server σ) : Prop where
  exclusive : s.Exclusive
  attended : s.Attended
  bits : ∀ client, .conn client false false ∉ s.events

variable {v : FlowServer σ} {s t : Server σ} {a : Act}

theorem mem_events_of_step (hstep : v.step s a = some t) {e : Event} (he : e ∈ t.events) :
    e ∈ s.events ∨ a = .ready e := by
  cases v.taken_of_step hstep with
  | ready e' hloop hroom hmay =>
      have hmem : e ∈ s.events ++ [e'] := by
        cases e' <;> exact he
      rcases List.mem_append.mp hmem with hold | hnew
      · exact .inl hold
      · exact .inr (by rw [List.mem_singleton.mp hnew])
  | dispatch ok e' events hloop hevents =>
      have hmem : e ∈ events := by
        unfold handleEvent at he
        split at he
        · split at he <;> exact he
        · split at he
          · split at he <;> exact he
          · split at he <;> exact he
      exact .inl (hevents ▸ List.mem_cons_of_mem _ hmem)
  | recv w client r hw hmay =>
      unfold received at he
      split at he <;> exact .inl he
  | call w client buffer size hw =>
      unfold FlowServer.handle at he
      split at he <;> exact .inl he
  | settle w client ret ok hw =>
      unfold settled at he
      split at he
      · exact .inl he
      split at he
      · exact .inl he
      split at he <;> exact .inl he
  | _ => exact .inl he

theorem Served.drops_iff (h : s.Served) (hR : s.KernelKeeps a) (hstep : v.step s a = some t) :
    s.Drops a ↔ ¬s.KnownAnswer a := by
  cases v.taken_of_step hstep with
  | dispatch ok e events hloop hevents =>
      simp only [Drops, KnownAnswer, Act.settling]
      simp only [Option.mem_def, reduceCtorEq, false_implies, implies_true, not_true, iff_false,
        not_exists]
      intro client hhead
      exact h.bits client (List.mem_of_mem_head? hhead)
  | ctl ok client k hclient hk =>
      obtain rfl : ok = true := hR
      simp [Drops, KnownAnswer, Act.settling]
  | settle w client ret ok hw =>
      obtain rfl : ok = true := hR
      simp only [Drops, KnownAnswer, Act.settling, hw, Option.mem_def, Option.some.injEq,
        Worker.answered.injEq, forall_eq', Worker.answerKnown, decide_eq_true_eq]
      constructor
      · intro hdrops hknown
        obtain ⟨hclose, hrest⟩ := hdrops client ret ⟨rfl, rfl⟩
        obtain ⟨hcontinue, hover⟩ := hrest trivial
        rcases hknown with h | h | h
        · exact hover h
        · exact hcontinue h
        · exact hclose h
      · rintro hunknown _ _ ⟨rfl, rfl⟩
        exact ⟨fun h ↦ hunknown (.inr (.inr h)),
          fun _ ↦ ⟨fun h ↦ hunknown (.inr (.inl h)), fun h ↦ hunknown (.inl h)⟩⟩
  | _ => simp [Drops, KnownAnswer, Act.settling]

theorem Served.step (h : s.Served) (hR : s.KernelKeeps a) (hstep : v.step s a = some t) :
    (t.Attended ↔ s.KnownAnswer a) ∧ (s.KnownAnswer a → t.Served) := by
  have hl := v.ledger_of_step h.exclusive hstep
  have hbits : ∀ client, .conn client false false ∉ t.events := by
    intro client hmem
    rcases mem_events_of_step hstep hmem with hold | rfl
    · exact h.bits client hold
    · simp [KernelKeeps, Act.kept] at hR
  have hdrops := h.drops_iff hR hstep
  have hattended : t.Attended ↔ ¬s.Drops a := by
    cases hl with
    | moved hkeeps hm =>
        refine iff_of_true (fun c hc ↦ ?_) hkeeps
        rw [hm.tokens]
        exact h.attended c (hm.registered c ▸ hc)
    | opened hkeeps htok hreg hacc =>
        refine iff_of_true (fun c hc ↦ ?_) hkeeps
        rw [htok]
        rw [hreg] at hc
        split at hc
        · rename_i hnew
          simp [hnew]
        · exact Nat.add_pos_left (h.attended c hc) _
    | closed client hkeeps hheld htok hreg hacc =>
        refine iff_of_true (fun c hc ↦ ?_) hkeeps
        rw [htok]
        rw [hreg] at hc
        split at hc
        · simp at hc
        · rename_i hne
          simpa [hne] using h.attended c hc
    | dropped client hd hheld htok hreg hacc =>
        refine iff_of_false (fun hall ↦ ?_) (not_not_intro hd)
        have hpos := hall client (by rw [hreg]; exact h.exclusive.registered client hheld)
        simp [htok] at hpos
  rw [hdrops, not_not] at hattended
  exact ⟨hattended, fun hC ↦ ⟨h.exclusive.ledger hl, hattended.mpr hC, hbits⟩⟩

theorem Served.start (v : FlowServer σ) (handler : σ) : (Server.start v handler).Served :=
  ⟨.start v handler, fun _ hc ↦ by simp [Server.start, Conn.none] at hc,
    fun _ hmem ↦ by simp [Server.start] at hmem⟩

/-- A registered connection without a token. -/
structure Abandoned (client : ℕ) (s : Server σ) : Prop where
  exclusive : s.Exclusive
  registered : (s.conns client).registered = true
  tokens : s.tokens client = 0

/-- Nothing reads from it, arms it or closes it ever again. -/
theorem Abandoned.step {client : ℕ} (h : s.Abandoned client) (hstep : v.step s a = some t) :
    t.Abandoned client := by
  have hl := v.ledger_of_step h.exclusive hstep
  have ht := h.exclusive.ledger hl
  cases hl with
  | moved hkeeps hm =>
      exact ⟨ht, (hm.registered client).trans h.registered, (hm.tokens client).trans h.tokens⟩
  | opened hkeeps htok hreg hacc =>
      have hne : client ≠ s.accepted + 1 := by
        rintro rfl
        have := h.exclusive.accepted _ (Nat.lt_succ_self _)
        simp [h.registered] at this
      exact ⟨ht, by rw [hreg, if_neg hne, h.registered], by rw [htok, if_neg hne, h.tokens]⟩
  | closed client' hkeeps hheld htok hreg hacc =>
      have hne : client ≠ client' := by
        rintro rfl
        rw [h.tokens] at hheld
        omega
      exact ⟨ht, by rw [hreg, if_neg hne, h.registered], by rw [htok, if_neg hne, h.tokens]⟩
  | dropped client' hd hheld htok hreg hacc =>
      refine ⟨ht, by rw [hreg, h.registered], ?_⟩
      rw [htok, h.tokens, ite_self]

end Server

section Runs

variable {σ : Type} (v : FlowServer σ) (handler : σ) (acts : List Act)

/-- Along every run with a kernel that keeps its word, no connection is
stranded as long as every answer that is acted on is one of the three; and
connections keep their tokens exactly as long. -/
theorem no_stranded_connection
    (hR : v.system.EachStep Server.KernelKeeps (Server.start v handler) acts) :
    (v.system.EachStep Server.KnownAnswer (Server.start v handler) acts →
      v.system.Always Server.NoStranded (Server.start v handler) acts) ∧
    (v.system.Always Server.Attended (Server.start v handler) acts ↔
      v.system.EachStep Server.KnownAnswer (Server.start v handler) acts) := by
  have hiff : v.system.Always Server.Attended (Server.start v handler) acts ↔
      v.system.EachStep Server.KnownAnswer (Server.start v handler) acts :=
    always_iff_eachStep_of (I := Server.Served) (fun _ h ↦ h.attended)
      (fun _ _ _ h hR hstep ↦ h.step hR hstep) (.start v handler) hR
  exact ⟨fun hC ↦ (hiff.mpr hC).mono fun _ h ↦ h.noStranded, hiff⟩

/-- A connection that has lost its token stays registered without one. -/
theorem abandoned_forever {s : Server σ} {client : ℕ} (h : s.Abandoned client) :
    v.system.Always (Server.Abandoned client) s acts :=
  always_of_invariant (fun _ _ _ h hstep ↦ h.step hstep) h acts

end Runs

def FlowHandler.answeringTwo : FlowHandler Unit where
  doHandle := fun s _ _ ↦ .ok (2, s)

theorem no_stranded_connection_base :
    (FlowServer.mk FlowHandler.base 10 1).system.Always Server.NoStranded
      (Server.start (FlowServer.mk FlowHandler.base 10 1) ())
      (Act.connect ++ Act.queue 1 [97] ++ Act.serve [97] (by decide) ++ [.finish 0]) :=
  (no_stranded_connection (FlowServer.mk FlowHandler.base 10 1) () _
    (by decide +kernel)).1 (by decide +kernel)

/-- After an answer of 2 the connection is registered and nowhere. -/
theorem not_always_noStranded :
    (FlowServer.mk FlowHandler.answeringTwo 10 1).system.EachStep Server.KernelKeeps
        (Server.start (FlowServer.mk FlowHandler.answeringTwo 10 1) ())
        (Act.connect ++ Act.queue 1 [97] ++ Act.serve [97] (by decide) ++ [.finish 0]) ∧
      ¬(FlowServer.mk FlowHandler.answeringTwo 10 1).system.Always Server.NoStranded
        (Server.start (FlowServer.mk FlowHandler.answeringTwo 10 1) ())
        (Act.connect ++ Act.queue 1 [97] ++ Act.serve [97] (by decide) ++ [.finish 0]) := by
  refine ⟨by decide +kernel, fun h ↦ ?_⟩
  have hone := h.mono (Q := fun s ↦ (s.conns 1).registered = true →
    (s.conns 1).armed.isSome = true ∨ (∃ e ∈ s.events, e.client = some 1) ∨
      s.loop.client = some 1 ∨ 1 ∈ s.tasks ∨ ∃ x ∈ s.workers, x.client = some 1) fun s hs ↦ hs 1
  revert hone
  decide +kernel

end SimpleFlow
