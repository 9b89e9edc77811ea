import SimpleFlow.AgentLoop

/-!
# The run-time limit

`start_watch` never initialises `run_time`. Under a limit the counter goes up
by one with each accepted chunk, and the loop is left when it has reached the
limit; whether that is after the right number of chunks depends on the value it
began with.
-/

namespace SimpleFlow

open LabelledSystem

namespace Watch

variable {σ : Type}

/-- How many `do_handle` calls have returned a value that is not negative. -/
def acceptances (s : Watch σ) : ℕ := s.calls.countP fun c ↦ 0 ≤ c.answer

/-- The loop has been left if and only if the `limit`-th chunk has been
accepted, and the counter has not overflowed. -/
def Metered (limit : Int) (s : Watch σ) : Prop :=
  (s.pc = .done ↔ (s.acceptances : Int) = limit) ∧ s.pc ≠ .overflowed

instance (limit : Int) (s : Watch σ) : Decidable (s.Metered limit) :=
  inferInstanceAs (Decidable ((_ ↔ _) ∧ _))

/-- The counter, when it began with `r`. -/
structure Ticked (limit r : Int) (s : Watch σ) : Prop where
  counted : s.pc ≠ .overflowed → s.runTime = r + s.acceptances ∧ s.runTime ≤ intMax
  running : s.pc ≠ .done → s.pc ≠ .overflowed → s.acceptances = 0 ∨ s.runTime < limit
  left : s.pc = .done → 0 < s.acceptances ∧ limit ≤ s.runTime ∧
    (s.acceptances = 1 ∨ s.runTime = limit)
  overflow : s.pc = .overflowed → r + s.acceptances = intMax + 1 ∧
    (s.acceptances = 1 ∨ intMax < limit)

theorem acceptances_of_calls {s t : Watch σ} {n : Int}
    (h : t.calls = s.calls ++ [s.callWith n]) :
    t.acceptances = s.acceptances + if 0 ≤ n then 1 else 0 := by
  rw [acceptances, h, List.countP_append, List.countP_singleton]
  by_cases hn : 0 ≤ n <;> simp [acceptances, callWith, hn]

namespace Ticked

variable {a : FileAgent σ} {limit r : Int} {s t : Watch σ} {o : Obs}

theorem start (reader : FileReader) (hr : r ≤ intMax) (handler : σ) :
    (Watch.start reader r handler).Ticked limit r := by
  constructor <;> simp [Watch.start, acceptances, hr]

/-- Only an accepted chunk touches the counter. -/
theorem of_same (h : s.Ticked limit r) (hs : s.pc ≠ .done ∧ s.pc ≠ .overflowed)
    (ht : t.pc ≠ .done ∧ t.pc ≠ .overflowed) (hrun : t.runTime = s.runTime)
    (hcalls : t.acceptances = s.acceptances) : t.Ticked limit r := by
  refine ⟨fun _ ↦ ?_, fun _ _ ↦ ?_, fun hdone ↦ absurd hdone ht.1, fun hover ↦ absurd hover ht.2⟩
  · rw [hrun, hcalls]
    exact h.counted hs.2
  · rw [hrun, hcalls]
    exact h.running hs.1 hs.2

theorem callHandler (hlimit : 0 < a.runTimeLimit) (h : s.Ticked a.runTimeLimit r)
    (hready : s.ready) : (a.callHandler s).Ticked a.runTimeLimit r := by
  have hs : s.pc ≠ .done ∧ s.pc ≠ .overflowed := by
    rcases hready with hpc | ⟨hpc, -⟩ <;> simp [hpc]
  have hcount := h.counted hs.2
  have hrunning := h.running hs.1 hs.2
  unfold FileAgent.callHandler
  cases hd : a.flowHandler.doHandle s.handler s.reqBuffer s.readSize with
  | error f => exact h.of_same hs (by simp) rfl rfl
  | ok answer =>
      obtain ⟨n, state⟩ := answer
      by_cases hn : n < 0
      · simp only [hn, if_true]
        refine h.of_same hs (by simp) rfl ?_
        rw [acceptances_of_calls rfl, if_neg (by omega)]
        rfl
      · have hmore : ∀ u : Watch σ, u.calls = s.calls ++ [s.callWith n] →
            u.acceptances = s.acceptances + 1 := by
          intro u hu
          rw [acceptances_of_calls hu, if_pos (by omega)]
        simp only [hn, if_false, Watch.accepted, hlimit, if_true]
        split
        · refine ⟨by simp, by simp, by simp, fun _ ↦ ?_⟩
          rw [hmore _ rfl]
          omega
        · refine ⟨fun _ ↦ ?_, fun hdone _ ↦ ?_, fun hdone ↦ ?_, fun hover ↦ ?_⟩
          · rw [hmore _ rfl]
            dsimp only
            omega
          · dsimp only at hdone ⊢
            split at hdone
            · exact absurd rfl hdone
            · omega
          · rw [hmore _ rfl]
            dsimp only at hdone ⊢
            split at hdone
            · omega
            · cases hdone
          · dsimp only at hover
            split at hover <;> cases hover

theorem step (hlimit : 0 < a.runTimeLimit) (h : s.Ticked a.runTimeLimit r)
    (hstep : a.step s o = some t) : t.Ticked a.runTimeLimit r := by
  cases FileAgent.taken_of_step hstep with
  | opened file buffer pc hfrom hbuffer hpc =>
      refine h.of_same ?_ ?_ rfl rfl
      · rcases hfrom with ⟨hhead, -⟩ | hsecond
        · simp [hhead]
        · simp [hsecond]
      · constructor <;> rintro rfl <;> simp [Pc.reading] at hpc
  | noData file content pc hfrom hnil hpc =>
      refine h.of_same ?_ ?_ rfl rfl
      · constructor <;> intro heq <;> simp [heq, Pc.file] at hfrom
      · rcases hpc with rfl | rfl <;> simp
  | filled file content hfrom hne =>
      refine h.of_same ?_ ?_ rfl rfl
      · constructor <;> intro heq <;> simp [heq, Pc.file] at hfrom
      · simp [filled]
  | stat ino hfrom => exact h.of_same (by simp [hfrom]) (by simp) rfl rfl
  | call hready => exact h.callHandler hlimit hready

theorem metered (h : s.Ticked limit r) (hlimit : 0 < limit) (hmax : limit ≤ intMax)
    (hr : r = 0 ∨ limit = 1 ∧ 0 ≤ r ∧ r < intMax) : s.Metered limit := by
  have hover : s.pc ≠ .overflowed := by
    intro hpc
    have := h.overflow hpc
    unfold intMax at *
    omega
  have hcount := h.counted hover
  refine ⟨⟨?_, ?_⟩, hover⟩
  · intro hdone
    have := h.left hdone
    omega
  · intro hall
    by_contra hdone
    have := h.running hdone hover
    omega

end Ticked

end Watch

/-- What `set_run_time_limit` is for, with a counter that begins with `r`: any
handler, any file, any order of outcomes. -/
def ExactlyLimited (limit r : Int) : Prop :=
  ∀ (σ : Type) (H : FlowHandler σ) (reader : FileReader) (handler : σ) (obs : List Obs),
    (((FileAgent.new H).setRunTimeLimit limit).loop).Always (Watch.Metered limit)
      (Watch.start reader r handler) obs

namespace Watch

theorem callHandler_base (limit : Int) (s : Watch Unit) :
    ∃ t, ((FileAgent.new FlowHandler.base).setRunTimeLimit limit).callHandler s = t ∧
      (t.pc = .head ∨ t.pc = .done ∨ t.pc = .overflowed) ∧ t.retryStatus = false ∧
      t.reader = s.reader ∧ t.acceptances = s.acceptances + 1 := by
  refine ⟨_, rfl, ?_⟩
  rcases ((FileAgent.new FlowHandler.base).setRunTimeLimit limit).callHandler_cases s with
      ⟨f, hdo, -⟩ | ⟨n, h, hdo, hn, -⟩ | ⟨n, h, runTime, pc, -, hn, hpc, heq⟩
  · cases hdo
  · cases hdo
    omega
  · rw [heq]
    refine ⟨hpc, rfl, rfl, ?_⟩
    rw [acceptances_of_calls rfl, if_pos hn]

/-- A pass in which the base handler accepts a chunk. -/
theorem exec_accept (limit : Int) {s : Watch Unit} (hpc : s.pc = .head)
    (hretry : s.retryStatus = false) (hoffset : 0 ≤ s.reader.offset) :
    ∃ obs t, (((FileAgent.new FlowHandler.base).setRunTimeLimit limit).loop).exec s obs = some t ∧
      (t.pc = .head ∨ t.pc = .done ∨ t.pc = .overflowed) ∧ t.retryStatus = false ∧
      0 ≤ t.reader.offset ∧ t.acceptances = s.acceptances + 1 := by
  obtain ⟨k, hk⟩ := Int.eq_ofNat_of_zero_le hoffset
  let content : Bytes := List.replicate (k + 1) 0
  have hne : extract content s.reader.offset reqSize ≠ [] := by
    rw [hk, extract_natCast]
    simp [content, reqSize]
  let u : Watch Unit :=
    { s.bzero with pc := .firstOpened 1 }.filled 1 (extract content s.reader.offset reqSize)
  obtain ⟨t, hcall, htpc, htretry, htreader, hcount⟩ := callHandler_base limit u
  refine ⟨[.opened (some 1), .data content, .call], t, ?_, htpc, htretry, ?_, hcount⟩
  · have hread : finishRead { s.bzero with pc := .firstOpened 1 } 1 (some content) .secondOpen =
        u := finishRead_filled (s := { s.bzero with pc := .firstOpened 1 }) hne 1 .secondOpen
    simp only [exec_cons, exec_nil, FileAgent.loop, FileAgent.step, hpc, hretry, openStream,
      Bool.false_eq_true, if_false, Option.bind_some, hread]
    simp only [u, filled] at hcall ⊢
    simp [hcall]
  · rw [htreader]
    simp only [u, filled, bzero]
    omega

/-- Under an exact limit, any number of chunks below it can be accepted without
leaving the loop. -/
theorem exists_run {limit r : Int} (h : ExactlyLimited limit r) (n : ℕ) (hn : (n : Int) < limit) :
    ∃ obs s, (((FileAgent.new FlowHandler.base).setRunTimeLimit limit).loop).exec
        (Watch.start ⟨0, 0⟩ r ()) obs = some s ∧
      s.pc = .head ∧ s.retryStatus = false ∧ 0 ≤ s.reader.offset ∧ s.acceptances = n := by
  induction n with
  | zero => exact ⟨[], _, rfl, rfl, rfl, Int.le_refl 0, rfl⟩
  | succ n ih =>
      obtain ⟨before, s, hrun, hpc, hretry, hoffset, hcount⟩ := ih (by omega)
      obtain ⟨obs, t, hpass, htpc, htretry, htoffset, htcount⟩ :=
        exec_accept limit hpc hretry hoffset
      have hwhole : (((FileAgent.new FlowHandler.base).setRunTimeLimit limit).loop).exec
          (Watch.start ⟨0, 0⟩ r ()) (before ++ obs) = some t := by
        rw [exec_append, hrun]
        exact hpass
      obtain ⟨hdone, hover⟩ := (h Unit FlowHandler.base ⟨0, 0⟩ () (before ++ obs)).last hwhole
      refine ⟨before ++ obs, t, hwhole, ?_, htretry, htoffset, by omega⟩
      rcases htpc with hhead | hleft | hfull
      · exact hhead
      · have hlast := hdone.mp hleft
        omega
      · exact absurd hfull hover

end Watch

/-- The counter is never initialised, and only 0 is right for every limit. -/
theorem exactlyLimited_iff (limit r : Int) (hlimit : 0 < limit) (hmax : limit ≤ intMax)
    (hr : r ≤ intMax) :
    ExactlyLimited limit r ↔ r = 0 ∨ limit = 1 ∧ 0 ≤ r ∧ r < intMax := by
  constructor
  · intro h
    -- one pass more than a run can make that is not yet at the limit
    obtain ⟨before, s, hrun, hpc, hretry, hoffset, hcount⟩ :=
      Watch.exists_run h (limit - 1).toNat (by omega)
    obtain ⟨obs, t, hpass, htpc, -, -, htcount⟩ := Watch.exec_accept limit hpc hretry hoffset
    have hwhole : (((FileAgent.new FlowHandler.base).setRunTimeLimit limit).loop).exec
        (Watch.start ⟨0, 0⟩ r ()) (before ++ obs) = some t := by
      rw [exec_append, hrun]
      exact hpass
    obtain ⟨hdone, hover⟩ := (h Unit FlowHandler.base ⟨0, 0⟩ () (before ++ obs)).last hwhole
    have hticked : t.Ticked limit r :=
      exec_invariant (fun _ _ _ h hstep ↦ h.step hlimit hstep) (.start ⟨0, 0⟩ hr ()) hwhole
    have hcounted := hticked.counted hover
    have hleft := hticked.left (hdone.mpr (by omega))
    omega
  · intro hstart σ H reader handler obs
    have hticked : (((FileAgent.new H).setRunTimeLimit limit).loop).Always
        (Watch.Ticked limit r) (Watch.start reader r handler) obs :=
      always_of_invariant (fun _ _ _ h hstep ↦ h.step hlimit hstep) (.start reader hr handler) obs
    exact hticked.mono fun s h ↦ h.metered hlimit hmax hstart

theorem exactlyLimited_thousand : ExactlyLimited 1000 0 :=
  (exactlyLimited_iff 1000 0 (by decide) (by decide) (by decide)).mpr (.inl rfl)

/-- With a limit of 2 and a counter that begins with 1, the loop is left after
the first chunk. -/
theorem not_exactlyLimited : ¬ExactlyLimited 2 1 := by
  intro h
  have hrun := h Unit FlowHandler.base ⟨0, 0⟩ () [.opened (some 1), .data [97], .call]
  revert hrun
  decide +kernel

end SimpleFlow
