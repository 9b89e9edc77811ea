import SimpleFlow.Shown
import SimpleFlow.Rotation

/-!
# Catching up with a file that stays as it is

Once the file at the path stays unchanged and can be opened, the passes of the
loop read it to its end, as long as the offset lies inside it or is counted in
another file. A rank of the state falls with every step and pays for the passes;
only a refused chunk costs a step that lowers nothing.
-/

namespace SimpleFlow

open LabelledSystem

/-- What can happen while nothing outside changes and no system call fails. -/
def Move.settled : Move → Bool
  | .write _ => false
  | .opened ok => ok
  | .data => true
  | .stat ok => ok
  | .call => true

/-! ## The program counter -/

namespace Pc

def opening : Pc → Option ℕ → Pc
  | .secondOpen, some file => .secondOpened file
  | .secondOpen, none => .check
  | _, some file => .firstOpened file
  | _, none => .secondOpen

def afterEmpty : Pc → Pc
  | .firstOpened _ => .secondOpen
  | _ => .check

/-- The first read of the pass has found nothing. -/
def searched : Pc → Bool
  | .secondOpen => true
  | .secondOpened _ => true
  | .check => true
  | _ => false

end Pc

namespace Watch

variable {σ : Type}

/-- The loop has been left, or will never be. -/
def ended (s : Watch σ) : Bool :=
  match s.pc with
  | .done => true
  | .faulted _ => true
  | .overflowed => true
  | _ => false

def refusals (s : Watch σ) : ℕ := s.calls.countP fun c ↦ c.answer < 0

/-- How many steps are left of the pass that begins at the head, when it finds
nothing; a chunk that waits for the handler comes before the head. -/
def stage (s : Watch σ) : ℕ :=
  match s.pc with
  | .handle => 6
  | .head => if s.retryStatus then 6 else 5
  | .firstOpened _ => 4
  | .secondOpen => 3
  | .secondOpened _ => 2
  | .check => 1
  | _ => 0

theorem stage_le (s : Watch σ) : s.stage ≤ 6 := by
  unfold stage
  split <;> try split
  all_goals decide

theorem pc_finishRead (s : Watch σ) (file : ℕ) (content : Bytes) (next : Pc) :
    (s.finishRead file (some content) next).pc =
      if extract content s.reader.offset reqSize = [] then next else .handle := by
  by_cases hnil : extract content s.reader.offset reqSize = []
  · rw [if_pos hnil, finishRead_nil hnil]
  · rw [if_neg hnil, finishRead_filled hnil]
    rfl

end Watch

namespace FileAgent

variable {σ : Type} {a : FileAgent σ} {s t : Watch σ} {o : Obs}

/-- Where each step leads. -/
theorem pc_of_step (h : a.step s o = some t) :
    (∃ file, o = .opened file ∧ (s.pc = .head ∧ s.retryStatus = false ∨ s.pc = .secondOpen) ∧
      t.pc = s.pc.opening file) ∨
    (∃ file content, o = .data content ∧ s.pc.file = some file ∧
      t.pc = if extract content s.reader.offset reqSize = [] then s.pc.afterEmpty else .handle) ∨
    (∃ ino, o = .stat ino ∧ s.pc = .check ∧ t.pc = .head) ∨
    (o = .call ∧ s.ready ∧ t = a.callHandler s) := by
  unfold step at h
  split at h
  · rename_i file hpc
    split at h
    · simp at h
    · rename_i hretry
      obtain rfl := Option.some.inj h
      refine .inl ⟨file, rfl, .inl ⟨hpc, by simpa using hretry⟩, ?_⟩
      cases file <;> simp [Watch.openStream, Watch.bzero, Watch.finishRead_none, hpc, Pc.opening]
  · rename_i file content hpc
    obtain rfl := Option.some.inj h
    refine .inr (.inl ⟨file, content, rfl, by rw [hpc]; rfl, ?_⟩)
    rw [Watch.pc_finishRead, hpc]
    rfl
  · rename_i file hpc
    obtain rfl := Option.some.inj h
    refine .inl ⟨file, rfl, .inr hpc, ?_⟩
    cases file <;> simp [Watch.openStream, Watch.finishRead_none, hpc, Pc.opening]
  · rename_i file content hpc
    obtain rfl := Option.some.inj h
    refine .inr (.inl ⟨file, content, rfl, by rw [hpc]; rfl, ?_⟩)
    rw [Watch.pc_finishRead, hpc]
    rfl
  · rename_i ino hpc
    obtain rfl := Option.some.inj h
    exact .inr (.inr (.inl ⟨ino, rfl, hpc, rfl⟩))
  · rename_i hpc
    obtain rfl := Option.some.inj h
    exact .inr (.inr (.inr ⟨rfl, .inl hpc, rfl⟩))
  · rename_i hpc
    split at h
    · rename_i hretry
      obtain rfl := Option.some.inj h
      exact .inr (.inr (.inr ⟨rfl, .inr ⟨hpc, hretry⟩, rfl⟩))
    · simp at h
  · simp at h

theorem reader_callHandler (s : Watch σ) : (a.callHandler s).reader = s.reader := by
  rcases a.callHandler_cases s with ⟨f, -, heq⟩ | ⟨n, h, -, -, heq⟩ |
      ⟨n, h, runTime, pc, -, -, -, heq⟩ <;> rw [heq]

theorem passed_callHandler (s : Watch σ) : s.passed <+: (a.callHandler s).passed := by
  rcases a.callHandler_cases s with ⟨f, -, heq⟩ | ⟨n, h, -, -, heq⟩ |
      ⟨n, h, runTime, pc, -, -, -, heq⟩
  · rw [heq]
    exact List.prefix_rfl
  · rw [heq]
    simp [Watch.passed]
  · rw [heq]
    simp [Watch.passed]

/-- A refusal costs a step, an accepted chunk takes the loop back to its head. -/
theorem stage_callHandler (hready : s.ready) :
    (a.callHandler s).ended = true ∨
      (a.callHandler s).pc = .head ∧
        (a.callHandler s).stage + s.refusals + 1 ≤ s.stage + (a.callHandler s).refusals := by
  have hstage : s.stage = 6 := by
    rcases hready with hpc | ⟨hpc, hretry⟩
    · simp [Watch.stage, hpc]
    · simp [Watch.stage, hpc, hretry]
  rcases a.callHandler_cases s with ⟨f, -, heq⟩ | ⟨n, h, -, hn, heq⟩ |
      ⟨n, h, runTime, pc, -, hn, hpc, heq⟩
  · exact .inl (by rw [heq]; rfl)
  · refine .inr ⟨by rw [heq], ?_⟩
    rw [hstage, heq]
    simp only [Watch.stage, Watch.refusals, List.countP_append, Watch.callWith, if_true]
    simp only [List.countP_singleton, hn, decide_true, if_true]
    omega
  · rcases hpc with rfl | rfl | rfl
    · refine .inr ⟨by rw [heq], ?_⟩
      rw [hstage, heq]
      simp only [Watch.stage, Watch.refusals, List.countP_append, Bool.false_eq_true, if_false]
      omega
    · exact .inl (by rw [heq]; rfl)
    · exact .inl (by rw [heq]; rfl)

/-- The loop goes on until it has ended. -/
theorem exists_settled {w : Writer} {s : Scene σ} (hend : s.watch.ended = false) :
    ∃ m t, m.settled = true ∧ (a.onDisk w).step s m = some t := by
  suffices h : ∃ m, m.settled = true ∧ ((a.onDisk w).step s m).isSome = true by
    obtain ⟨m, hm, hsome⟩ := h
    obtain ⟨t, ht⟩ := Option.isSome_iff_exists.mp hsome
    exact ⟨m, t, hm, ht⟩
  cases hpc : s.watch.pc with
  | head =>
      cases hretry : s.watch.retryStatus with
      | true => exact ⟨.call, rfl, by simp [onDisk, sceneStep, observe, step, hpc, hretry]⟩
      | false => exact ⟨.opened true, rfl, by simp [onDisk, sceneStep, observe, step, hpc, hretry]⟩
  | secondOpen => exact ⟨.opened true, rfl, by simp [onDisk, sceneStep, observe, step, hpc]⟩
  | check => exact ⟨.stat true, rfl, by simp [onDisk, sceneStep, observe, step, hpc]⟩
  | handle => exact ⟨.call, rfl, by simp [onDisk, sceneStep, observe, step, hpc]⟩
  | firstOpened file =>
      exact ⟨.data, rfl, by simp [onDisk, sceneStep, observe, step, hpc, Pc.file]⟩
  | secondOpened file =>
      exact ⟨.data, rfl, by simp [onDisk, sceneStep, observe, step, hpc, Pc.file]⟩
  | _ => simp [Watch.ended, hpc] at hend

end FileAgent

namespace Scene

variable {σ : Type} {a : FileAgent σ} {s t : Scene σ} {m : Move} {lo : ℕ → ℕ} {g : ℕ}

/-! ## While files are only appended to and replaced -/

/-- Some byte of the file `g`, from `lo g` on, has not been passed to the
handler. -/
def Owes (lo : ℕ → ℕ) (g : ℕ) (s : Scene σ) : Prop :=
  ∃ p b, lo g ≤ p ∧ (s.disk.content g)[p]? = some b ∧ ¬Shows s.watch.passed g p b

structure Anchored (lo : ℕ → ℕ) (s : Scene σ) : Prop where
  sound : s.watch.Sound
  tidy : s.disk.Tidy
  ino_mem : s.watch.reader.fileIno = 0 ∨ s.watch.reader.fileIno ∈ s.disk.used
  started : s.disk.path = some s.watch.reader.fileIno → 0 ≤ s.watch.reader.offset
  tracked : s.Tracked lo 0

theorem Anchored.unshortened (h : s.Anchored lo) (hstep : (a.onDisk rotating).step s m = some t) :
    s.Unshortened m := by
  cases progress_of_step h.sound hstep with
  | write e d hw hd =>
      cases Disk.rotated_of_apply hw hd with
      | create ino hzero hnew hpath =>
          intro hino
          rcases h.ino_mem with h0 | hmem
          · exact absurd (hino.trans h0) hzero
          · exact absurd (hino ▸ hmem) hnew
      | _ => trivial
  | idle _ u hm =>
      rcases hm with rfl | ⟨ok, rfl⟩ <;> trivial
  | _ => trivial

theorem Anchored.of_reader (h : s.Anchored lo) {u : Watch σ} (hsound : u.Sound)
    (htracked : ({ s with watch := u } : Scene σ).Tracked lo 0)
    (hreader : u.reader = s.watch.reader) : ({ s with watch := u } : Scene σ).Anchored lo := by
  refine ⟨hsound, h.tidy, ?_, ?_, htracked⟩
  · simpa only [hreader] using h.ino_mem
  · simpa only [hreader] using h.started

theorem Anchored.step (h : s.Anchored lo) (hstep : (a.onDisk rotating).step s m = some t) :
    t.Anchored lo := by
  have hsound := sound_of_step h.sound hstep
  have htracked := h.tracked.step h.sound (h.unshortened hstep) hstep
  cases progress_of_step h.sound hstep with
  | write e d hw hd =>
      have hrot := Disk.rotated_of_apply hw hd
      have hsub := Disk.used_subset_of_rotated hrot
      refine ⟨hsound, h.tidy.rotated hrot, h.ino_mem.imp id fun hi ↦ hsub hi, ?_, htracked⟩
      intro hpath
      rcases Disk.path_of_rotated hrot hpath with hold | hnew
      · exact h.started hold
      · rcases h.ino_mem with h0 | hmem
        · have hused := (h.tidy.rotated hrot).path_mem _ hpath
          exact absurd (h0 ▸ hused) (h.tidy.rotated hrot).zero_notMem
        · exact absurd hmem hnew
  | idle _ u hm hfrom hpres hsub hreader hfile => exact h.of_reader hsound htracked hreader
  | noData file u hfrom hnil hpres hreader hfile => exact h.of_reader hsound htracked hreader
  | took file got u hfrom hgot hne hpres hreader hfile =>
      refine ⟨hsound, h.tidy, by simpa [hreader] using h.ino_mem, ?_, htracked⟩
      intro hpath
      rw [hreader] at hpath ⊢
      have hstart := h.started hpath
      dsimp only
      omega
  | stat ok u hfrom hpres hreader hfile =>
      by_cases hsame : u.reader = s.watch.reader
      · exact h.of_reader hsound htracked hsame
      · obtain ⟨f, hpath, -, hnew⟩ := switched hreader hsame
        refine ⟨hsound, h.tidy, .inr ?_, ?_, htracked⟩
        · simpa [hnew] using h.tidy.path_mem f hpath
        · simp [hnew]

/-- At the end of its file the reader owes nothing. -/
theorem Anchored.not_owes (h : s.Anchored lo) (hpath : s.disk.path = some g)
    (hino : s.watch.reader.fileIno = g)
    (hnil : extract (s.disk.content g) s.watch.reader.offset reqSize = [])
    (hpend : s.watch.pending = false) : ¬s.Owes lo g := by
  subst hino
  obtain ⟨k, hk⟩ := Int.eq_ofNat_of_zero_le (h.started hpath)
  rw [hk, extract_natCast, List.take_eq_nil_iff] at hnil
  have hlen : (s.disk.content s.watch.reader.fileIno).length ≤ k := by
    rcases hnil with hzero | hdrop
    · simp [reqSize] at hzero
    · exact List.drop_eq_nil_iff.mp hdrop
  rintro ⟨p, b, hlo, hb, hnot⟩
  have hp := (List.getElem?_eq_some_iff.mp hb).1
  have hshown := h.tracked.shown hpath p b hlo (by omega) hb
  rw [List.drop_zero, Watch.presented_of_not_pending hpend] at hshown
  exact hnot hshown

/-! ## A pass over a file that stays as it is -/

/-- The steps of a pass over the file `g`. -/
inductive Pass (a : FileAgent σ) (g : ℕ) (s : Scene σ) : Watch σ → Prop
  | opened (u : Watch σ)
      (hfrom : s.watch.pc = .head ∧ s.watch.retryStatus = false ∨ s.watch.pc = .secondOpen)
      (hpc : u.pc = s.watch.pc.opening (some g)) (hreader : u.reader = s.watch.reader)
      (hcalls : u.calls = s.watch.calls) : Pass a g s u
  | empty (u : Watch σ) (hfrom : s.watch.pc.file = some g)
      (hnil : extract (s.disk.content g) s.watch.reader.offset reqSize = [])
      (hpc : u.pc = s.watch.pc.afterEmpty) (hreader : u.reader = s.watch.reader)
      (hcalls : u.calls = s.watch.calls) : Pass a g s u
  | took (u : Watch σ) (hfrom : s.watch.pc.file = some g)
      (hne : extract (s.disk.content g) s.watch.reader.offset reqSize ≠ [])
      (hpc : u.pc = .handle)
      (hreader : u.reader = ⟨s.watch.reader.offset +
        (extract (s.disk.content g) s.watch.reader.offset reqSize).length, s.watch.reader.fileIno⟩)
      (hcalls : u.calls = s.watch.calls) : Pass a g s u
  | reset (u : Watch σ) (hfrom : s.watch.pc = .check) (hpc : u.pc = .head)
      (hreader : u.reader = (s.watch.reader.checkAndReset (some g)).2)
      (hcalls : u.calls = s.watch.calls) : Pass a g s u
  | called (hready : s.watch.ready) : Pass a g s (a.callHandler s.watch)

theorem pass_of_step (hpath : s.disk.path = some g)
    (hstream : ∀ f, s.watch.pc.file = some f → f = g) (hm : m.settled = true)
    (hstep : (a.onDisk rotating).step s m = some t) :
    ∃ u, t = { s with watch := u } ∧ Pass a g s u := by
  rcases FileAgent.sceneStep_cases hstep with ⟨e, d, rfl, -⟩ | ⟨o, u, ho, hu, rfl⟩
  · simp [Move.settled] at hm
  refine ⟨u, rfl, ?_⟩
  have hpc := FileAgent.pc_of_step hu
  cases FileAgent.taken_of_step hu with
  | opened file buffer pc hfrom hbuffer =>
      have hfile : file = some g := by
        cases m <;> simp_all [FileAgent.observe, Move.settled]
      rcases hpc with ⟨_, heq, -, hpc⟩ | ⟨_, _, heq, -⟩ | ⟨_, heq, -⟩ | ⟨heq, -⟩ <;> cases heq
      exact .opened _ hfrom (hfile ▸ hpc) rfl rfl
  | noData file content pc hfrom hnil =>
      obtain ⟨-, rfl⟩ := FileAgent.observe_data hfrom ho
      obtain rfl := hstream file hfrom
      rcases hpc with ⟨_, heq, -⟩ | ⟨_, _, heq, -, hpc⟩ | ⟨_, heq, -⟩ | ⟨heq, -⟩ <;> cases heq
      rw [if_pos hnil] at hpc
      exact .empty _ hfrom hnil hpc rfl rfl
  | filled file content hfrom hne =>
      obtain ⟨-, rfl⟩ := FileAgent.observe_data hfrom ho
      obtain rfl := hstream file hfrom
      exact .took _ hfrom hne rfl rfl rfl
  | stat ino hfrom =>
      obtain ⟨ok, rfl, rfl⟩ := FileAgent.observe_stat ho
      have hok : ok = true := hm
      refine .reset _ hfrom rfl ?_ rfl
      simp [hok, hpath]
  | call hready => exact .called hready

/-- The file `g` stays at the path. -/
structure Settled (lo : ℕ → ℕ) (g : ℕ) (s : Scene σ) : Prop extends s.Anchored lo where
  path : s.disk.path = some g
  stream_eq : ∀ f, s.watch.pc.file = some f → f = g
  found_nothing : s.watch.pc.searched = true →
    extract (s.disk.content g) s.watch.reader.offset reqSize = []

theorem Settled.step (h : s.Settled lo g) (hm : m.settled = true)
    (hstep : (a.onDisk rotating).step s m = some t) : t.Settled lo g := by
  have hanchored := h.toAnchored.step hstep
  obtain ⟨u, rfl, hpass⟩ := pass_of_step h.path h.stream_eq hm hstep
  refine ⟨hanchored, h.path, ?_, ?_⟩
  · intro f hf
    cases hpass with
    | opened _ hfrom hpc =>
        rcases hfrom with ⟨hhead, -⟩ | hsecond
        · simpa [hpc, hhead, Pc.opening, Pc.file, eq_comm] using hf
        · simpa [hpc, hsecond, Pc.opening, Pc.file, eq_comm] using hf
    | empty _ hfrom hnil hpc =>
        rw [hpc] at hf
        cases hs : s.watch.pc <;> simp [hs, Pc.afterEmpty, Pc.file] at hf
    | called hready =>
        rcases FileAgent.stage_callHandler (a := a) hready with hend | ⟨hpc, -⟩
        · cases hs : (a.callHandler s.watch).pc <;> simp_all [Watch.ended, Pc.file]
        · simp [hpc, Pc.file] at hf
    | took _ _ _ hpc => simp [hpc, Pc.file] at hf
    | reset _ _ hpc => simp [hpc, Pc.file] at hf
  · intro hsearched
    cases hpass with
    | opened _ hfrom hpc hreader =>
        rcases hfrom with ⟨hhead, -⟩ | hsecond
        · simp [hpc, hhead, Pc.opening, Pc.searched] at hsearched
        · rw [hreader]
          exact h.found_nothing (by rw [hsecond]; rfl)
    | empty _ hfrom hnil hpc hreader =>
        rw [hreader]
        exact hnil
    | called hready =>
        rcases FileAgent.stage_callHandler (a := a) hready with hend | ⟨hpc, -⟩
        · cases hs : (a.callHandler s.watch).pc <;> simp_all [Watch.ended, Pc.searched]
        · simp [hpc, Pc.searched] at hsearched
    | took _ _ _ hpc => simp [hpc, Pc.searched] at hsearched
    | reset _ _ hpc => simp [hpc, Pc.searched] at hsearched

/-! ## The rank -/

/-- What is left to read, first in the wrong file and then in the right one. -/
def unread (g : ℕ) (s : Scene σ) : ℕ :=
  let left := (s.disk.content g).length - s.watch.reader.offset.toNat
  if s.watch.reader.fileIno = g then left else (s.disk.content g).length + 1 + left

def rank (g : ℕ) (s : Scene σ) : ℕ := 8 * s.unread g + s.watch.stage

theorem rank_step (h : s.Settled lo g) (hm : m.settled = true)
    (hstep : (a.onDisk rotating).step s m = some t) :
    (t.watch.ended = true ∨ ¬t.Owes lo g) ∨
      t.Settled lo g ∧ t.rank g + s.watch.refusals + 1 ≤ s.rank g + t.watch.refusals := by
  have hsettled := h.step hm hstep
  obtain ⟨u, rfl, hpass⟩ := pass_of_step h.path h.stream_eq hm hstep
  cases hpass with
  | opened _ hfrom hpc hreader hcalls =>
      refine .inr ⟨hsettled, ?_⟩
      have hstage : u.stage + 1 ≤ s.watch.stage := by
        rcases hfrom with ⟨hhead, hretry⟩ | hsecond
        · simp [Watch.stage, hpc, hhead, hretry, Pc.opening]
        · simp [Watch.stage, hpc, hsecond, Pc.opening]
      simp only [rank, unread, Watch.refusals, hreader, hcalls]
      omega
  | empty _ hfrom hnil hpc hreader hcalls =>
      refine .inr ⟨hsettled, ?_⟩
      have hstage : u.stage + 1 ≤ s.watch.stage := by
        cases hs : s.watch.pc <;> simp_all [Watch.stage, Pc.afterEmpty, Pc.file]
      simp only [rank, unread, Watch.refusals, hreader, hcalls]
      omega
  | took _ hfrom hne hpc hreader hcalls =>
      refine .inr ⟨hsettled, ?_⟩
      have hstage : u.stage ≤ 6 := u.stage_le
      obtain ⟨k, hk⟩ := Int.eq_ofNat_of_zero_le (offset_nonneg_of_extract hne)
      have hpos := List.length_pos_of_ne_nil hne
      have hlt : k < (s.disk.content g).length := by
        by_contra hle
        rw [hk, extract_eq_nil (by omega)] at hne
        exact hne rfl
      simp only [rank, unread, Watch.refusals, hreader, hcalls]
      rw [hk] at hpos ⊢
      split <;> omega
  | reset _ hfrom hpc hreader hcalls =>
      have hnil := h.found_nothing (by rw [hfrom]; rfl)
      by_cases hino : s.watch.reader.fileIno = g
      · have hpend : s.watch.pending = false := by
          rw [Watch.pending_of_reading (by rw [hfrom]; rfl), h.sound.retry_false_of_check hfrom]
        have hnone := h.toAnchored.not_owes h.path hino hnil hpend
        exact .inl (.inr (by simpa only [Owes, Watch.passed, hcalls] using hnone))
      · refine .inr ⟨hsettled, ?_⟩
        have hstage : u.stage ≤ 6 := u.stage_le
        have hfrom' : s.watch.stage = 1 := by simp [Watch.stage, hfrom]
        simp only [rank, unread, Watch.refusals, hreader, hcalls, FileReader.checkAndReset,
          Ne.symm hino, hino, if_false, if_true, Int.toNat_zero]
        omega
  | called hready =>
      rcases FileAgent.stage_callHandler (a := a) hready with hend | ⟨hpc, hstage⟩
      · exact .inl (.inl hend)
      · refine .inr ⟨hsettled, ?_⟩
        simp only [rank, unread, FileAgent.reader_callHandler]
        omega

/-- What has been passed stays passed. -/
theorem not_owes_step (hstep : (a.onDisk rotating).step s m = some t) (hm : m.settled = true)
    (h : ¬s.Owes lo g) : ¬t.Owes lo g := by
  rcases FileAgent.sceneStep_cases hstep with ⟨e, d, rfl, -⟩ | ⟨o, u, ho, hu, rfl⟩
  · simp [Move.settled] at hm
  have hpassed : s.watch.passed ⊆ u.passed := by
    cases FileAgent.taken_of_step hu with
    | call hready => exact (FileAgent.passed_callHandler s.watch).subset
    | _ => exact List.Subset.refl _
  rintro ⟨p, b, hlo, hb, hnot⟩
  exact h ⟨p, b, hlo, hb, fun hshown ↦ hnot (hshown.mono hpassed)⟩

theorem ended_step (hend : s.watch.ended = true) (hm : m.settled = true) :
    (a.onDisk rotating).step s m ≠ some t := by
  intro hstep
  rcases FileAgent.sceneStep_cases hstep with ⟨e, d, rfl, -⟩ | ⟨o, u, ho, hu, rfl⟩
  · simp [Move.settled] at hm
  · cases hpc : s.watch.pc <;> simp_all [Watch.ended, FileAgent.step]

end Scene

/-! ## What the loop delivers -/

namespace FileAgent

variable {σ : Type} (a : FileAgent σ) (s : Scene σ)

/-- In every continuation with the disk as it is and no failing call, the loop
ends, or what `P` says is owed has been passed, or else the loop goes on, and
has made no more than `n` steps besides those that a refusal cost. -/
def Drains (P : Scene σ → Prop) : Prop :=
  ∃ n, ∀ ms t, (∀ m ∈ ms, m.settled = true) → (a.onDisk rotating).exec s ms = some t →
    t.watch.ended = true ∨ ¬P t ∨
      ms.length + s.watch.refusals ≤ n + t.watch.refusals ∧
        ∃ m u, m.settled = true ∧ (a.onDisk rotating).step t m = some u

abbrev readCall : List Move := [.opened true, .data]

/-- `read; read; check_and_reset; read` -/
def nextCalls : List Move := readCall ++ readCall ++ [.stat true] ++ readCall

/-- One of the next calls fills the buffer for the handler. -/
def FillsBuffer : Prop :=
  ∃ ms t, ms <+: nextCalls ∧ (a.onDisk rotating).exec s ms = some t ∧
    t.watch.pc = .handle ∧ t.watch.chunk ≠ []

end FileAgent

namespace Scene.Settled

variable {σ : Type} {a : FileAgent σ} {s : Scene σ} {lo : ℕ → ℕ} {g : ℕ}

theorem drains (h : s.Settled lo g) : a.Drains s (Owes lo g) := by
  refine ⟨s.rank g, ?_⟩
  intro ms t hms hrun
  have hrank : (t.watch.ended = true ∨ ¬t.Owes lo g) ∨ t.Settled lo g ∧
      t.rank g + s.watch.refusals + ms.length ≤ s.rank g + t.watch.refusals := by
    refine exec_rank (fun _ _ _ h hm hstep ↦ rank_step h hm hstep) ?_ h hms hrun
    rintro u m v (hend | hnone) hm hstep
    · exact absurd hstep (ended_step hend hm)
    · exact .inr (not_owes_step hstep hm hnone)
  rcases hrank with (hend | hnone) | ⟨-, hle⟩
  · exact .inl hend
  · exact .inr (.inl hnone)
  · cases hend : t.watch.ended with
    | true => exact .inl rfl
    | false => exact .inr (.inr ⟨by omega, FileAgent.exists_settled hend⟩)

/-! ## The next calls -/

/-- The steps of a pass change neither the disk nor `retry_status`. -/
abbrev Onward (s t : Scene σ) (pc : Pc) : Prop :=
  t.disk = s.disk ∧ t.watch.retryStatus = s.watch.retryStatus ∧ t.watch.pc = pc

theorem step_opened_head (hpc : s.watch.pc = .head) (hretry : s.watch.retryStatus = false)
    (hpath : s.disk.path = some g) :
    ∃ t, (a.onDisk rotating).step s (.opened true) = some t ∧ Onward s t (.firstOpened g) ∧
      t.watch.reader = s.watch.reader :=
  ⟨{ s with watch := { s.watch.bzero with pc := .firstOpened g } }, by
    simp [FileAgent.onDisk, FileAgent.sceneStep, FileAgent.observe, FileAgent.step, hpc, hretry,
      hpath, Watch.openStream], ⟨rfl, rfl, rfl⟩, rfl⟩

theorem step_opened_second (hpc : s.watch.pc = .secondOpen) (hpath : s.disk.path = some g) :
    ∃ t, (a.onDisk rotating).step s (.opened true) = some t ∧ Onward s t (.secondOpened g) ∧
      t.watch.reader = s.watch.reader :=
  ⟨{ s with watch := { s.watch with pc := .secondOpened g } }, by
    simp [FileAgent.onDisk, FileAgent.sceneStep, FileAgent.observe, FileAgent.step, hpc, hpath,
      Watch.openStream], ⟨rfl, rfl, rfl⟩, rfl⟩

theorem step_data (hfile : s.watch.pc.file = some g) :
    (a.onDisk rotating).step s .data = some
      { s with
        watch := s.watch.finishRead g (some (s.disk.content g)) s.watch.pc.afterEmpty } := by
  cases hpc : s.watch.pc <;> simp_all [Pc.file, FileAgent.onDisk, FileAgent.sceneStep,
    FileAgent.observe, FileAgent.step, Pc.afterEmpty]

theorem step_data_nil (hfile : s.watch.pc.file = some g)
    (hnil : extract (s.disk.content g) s.watch.reader.offset reqSize = []) :
    ∃ t, (a.onDisk rotating).step s .data = some t ∧ Onward s t s.watch.pc.afterEmpty ∧
      t.watch.reader = s.watch.reader := by
  rw [step_data hfile, Watch.finishRead_nil hnil]
  exact ⟨_, rfl, ⟨rfl, rfl, rfl⟩, rfl⟩

theorem step_stat (hpc : s.watch.pc = .check) (hpath : s.disk.path = some g) :
    ∃ t, (a.onDisk rotating).step s (.stat true) = some t ∧ Onward s t .head ∧
      t.watch.reader = (s.watch.reader.checkAndReset (some g)).2 :=
  ⟨{ s with
      watch :=
        { s.watch with reader := (s.watch.reader.checkAndReset (some g)).2, pc := .head } }, by
    simp [FileAgent.onDisk, FileAgent.sceneStep, FileAgent.observe, FileAgent.step, hpc, hpath],
    ⟨rfl, rfl, rfl⟩, rfl⟩

/-- The first read of a pass, when it finds something. -/
theorem exec_read (hpc : s.watch.pc = .head) (hretry : s.watch.retryStatus = false)
    (hpath : s.disk.path = some g)
    (hne : extract (s.disk.content g) s.watch.reader.offset reqSize ≠ []) :
    ∃ t, (a.onDisk rotating).exec s FileAgent.readCall = some t ∧ t.watch.pc = .handle ∧
      t.watch.chunk ≠ [] := by
  obtain ⟨u, hopen, ⟨hdisk, -, hupc⟩, hreader⟩ := step_opened_head (a := a) hpc hretry hpath
  rw [← hdisk, ← hreader] at hne
  rw [exec_cons, hopen, Option.bind_some, exec_cons, step_data (by rw [hupc]; rfl),
    Option.bind_some, Watch.finishRead_filled hne]
  refine ⟨_, rfl, rfl, ?_⟩
  simpa [Watch.chunk, Watch.filled] using hne

/-- A pass that finds nothing, up to its `check_and_reset`. -/
theorem exec_search (hpc : s.watch.pc = .head) (hretry : s.watch.retryStatus = false)
    (hpath : s.disk.path = some g)
    (hnil : extract (s.disk.content g) s.watch.reader.offset reqSize = []) :
    ∃ t, (a.onDisk rotating).exec s
        (FileAgent.readCall ++ FileAgent.readCall ++ [.stat true]) = some t ∧ Onward s t .head ∧
      t.watch.reader = (s.watch.reader.checkAndReset (some g)).2 := by
  obtain ⟨s₁, h₁, ⟨hd₁, hr₁, hpc₁⟩, hreader₁⟩ := step_opened_head (a := a) hpc hretry hpath
  obtain ⟨s₂, h₂, ⟨hd₂, hr₂, hpc₂⟩, hreader₂⟩ := step_data_nil (a := a) (s := s₁) (g := g)
    (by rw [hpc₁]; rfl) (by rw [hd₁, hreader₁]; exact hnil)
  obtain ⟨s₃, h₃, ⟨hd₃, hr₃, hpc₃⟩, hreader₃⟩ := step_opened_second (a := a) (s := s₂) (g := g)
    (by rw [hpc₂, hpc₁]; rfl) (by rw [hd₂, hd₁]; exact hpath)
  obtain ⟨s₄, h₄, ⟨hd₄, hr₄, hpc₄⟩, hreader₄⟩ := step_data_nil (a := a) (s := s₃) (g := g)
    (by rw [hpc₃]; rfl) (by rw [hd₃, hd₂, hd₁, hreader₃, hreader₂, hreader₁]; exact hnil)
  obtain ⟨s₅, h₅, ⟨hd₅, hr₅, hpc₅⟩, hreader₅⟩ := step_stat (a := a) (s := s₄) (g := g)
    (by rw [hpc₄, hpc₃]; rfl) (by rw [hd₄, hd₃, hd₂, hd₁]; exact hpath)
  refine ⟨s₅, ?_, ⟨?_, ?_, hpc₅⟩, ?_⟩
  · simp [exec_cons, h₁, h₂, h₃, h₄, h₅]
  · rw [hd₅, hd₄, hd₃, hd₂, hd₁]
  · rw [hr₅, hr₄, hr₃, hr₂, hr₁]
  · rw [hreader₅, hreader₄, hreader₃, hreader₂, hreader₁]

theorem fillsBuffer (h : s.Settled lo g) (hpc : s.watch.pc = .head)
    (hretry : s.watch.retryStatus = false) (howes : s.Owes lo g) : a.FillsBuffer s := by
  by_cases hnil : extract (s.disk.content g) s.watch.reader.offset reqSize = []
  · have hino : s.watch.reader.fileIno ≠ g := by
      intro hino
      refine h.toAnchored.not_owes h.path hino hnil ?_ howes
      simp [Watch.pending, hpc, hretry]
    obtain ⟨t, hrun, ⟨hdisk, htretry, htpc⟩, hreader⟩ :=
      exec_search (a := a) hpc hretry h.path hnil
    have hzero : t.watch.reader.offset = (0 : ℕ) := by
      rw [hreader]
      simp [FileReader.checkAndReset, Ne.symm hino]
    obtain ⟨p, b, -, hb, -⟩ := howes
    have hne : extract (t.disk.content g) t.watch.reader.offset reqSize ≠ [] := by
      have hlen := (List.getElem?_eq_some_iff.mp hb).1
      rw [hzero, hdisk, extract_natCast]
      simp [List.take_eq_nil_iff, reqSize, List.ne_nil_of_length_pos (Nat.zero_lt_of_lt hlen)]
    obtain ⟨u, hread, hhandle, hchunk⟩ := exec_read (a := a) htpc
      (htretry.trans hretry) (hdisk ▸ h.path) hne
    refine ⟨FileAgent.nextCalls, u, List.prefix_rfl, ?_, hhandle, hchunk⟩
    rw [FileAgent.nextCalls, exec_append, hrun]
    exact hread
  · obtain ⟨t, hread, hhandle, hchunk⟩ := exec_read (a := a) hpc hretry h.path hnil
    refine ⟨FileAgent.readCall, t, ?_, hread, hhandle, hchunk⟩
    rw [FileAgent.nextCalls, List.append_assoc, List.append_assoc]
    exact List.prefix_append _ _

end Scene.Settled

end SimpleFlow
