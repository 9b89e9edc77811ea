import SimpleFlow.InOrder

/-!
# Loss at rotations

`check_and_reset` gives up a generation when the path leads to another one. By
then the old generation cannot be opened any more, so what the reader had not
read when it was renamed is lost, except what a stream that was open at that
moment still yields in its one read.
-/

namespace SimpleFlow

open LabelledSystem

namespace Scene

variable {σ : Type}

/-- `check_and_reset` is about to go over to another inode. -/
def switches (s : Scene σ) : Move → Bool
  | .stat ok => ok && s.disk.path.any fun g ↦ decide (g ≠ s.watch.reader.fileIno)
  | _ => false

/-- When the reader goes over to another inode, every byte that the old
generation had when it was renamed away has been passed. -/
def NoLoss (s : Scene σ) (m : Move) : Prop :=
  s.switches m = true → ∀ n ∈ s.disk.renamedAt s.watch.reader.fileIno,
    ∀ p < n, p ∈ positionsOf s.watch.reader.fileIno s.watch.passed

/-- The reader's generation is renamed away only when it has been read to its
end, or is open in the current read with no more left than that read takes. -/
def CaughtUp (s : Scene σ) (m : Move) : Prop :=
  m = .write .rename → s.disk.path = some s.watch.reader.fileIno →
    ((s.disk.content s.watch.reader.fileIno).length : Int) ≤ s.watch.reader.offset ∨
    s.watch.pc.file = some s.watch.reader.fileIno ∧
      ((s.disk.content s.watch.reader.fileIno).length : Int) ≤ s.watch.reader.offset + reqSize

instance (s : Scene σ) (m : Move) : Decidable (s.NoLoss m) :=
  inferInstanceAs (Decidable (s.switches m = true →
    ∀ n ∈ s.disk.renamedAt s.watch.reader.fileIno,
      ∀ p < n, p ∈ positionsOf s.watch.reader.fileIno s.watch.passed))

instance (s : Scene σ) (m : Move) : Decidable (s.CaughtUp m) :=
  inferInstanceAs (Decidable (m = .write .rename → _ → _))

def ReadUpTo (s : Scene σ) (k : ℕ) : Prop :=
  s.watch.reader.offset = k ∧ ∀ p < k, p ∈ positionsOf s.watch.reader.fileIno s.watch.presented

/-- The invariant: while the reader's generation is at the path it has been
read up to the offset, and once it is renamed away all of it has been read or
the open stream yields the rest. -/
structure Kept (s : Scene σ) : Prop where
  placed : s.Placed
  current : s.disk.path = some s.watch.reader.fileIno →
    (∃ k, s.ReadUpTo k) ∧ ∀ g, s.watch.pc.file = some g → g = s.watch.reader.fileIno
  renamed : ∀ n, s.disk.renamedAt s.watch.reader.fileIno = some n →
    (∀ p < n, p ∈ positionsOf s.watch.reader.fileIno s.watch.presented) ∨
    ∃ k, s.ReadUpTo k ∧ s.watch.pc.file = some s.watch.reader.fileIno ∧ n ≤ k + reqSize

/-- At a switch nothing is open and nothing waits for the handler. -/
theorem Kept.noLoss {H : AcceptingHandler σ} {limit : Int} {s t : Scene σ} {m : Move}
    (h : s.Kept)
    (hstep : ((H.agent limit).onDisk rotating).step s m = some t) :
    s.NoLoss m := by
  intro hswitch n hn p hp
  cases h.placed.turn hstep with
  | stat ok u hfrom hpres hreader hfile =>
      have hread : s.watch.pc.reading = true := by rw [hfrom]; rfl
      rw [← Watch.presented_of_not_pending (h.placed.smooth.not_pending hread)]
      rcases h.renamed n hn with hall | ⟨k, -, hopen, -⟩
      · exact hall p hp
      · simp [hfrom, Pc.file] at hopen
  | idle _ u hm =>
      rcases hm with rfl | ⟨ok, rfl⟩ <;> simp [switches] at hswitch
  | _ => simp [switches] at hswitch

/-! ## Preservation -/

namespace Kept

variable {s : Scene σ}

theorem write (h : s.Kept) {e : DiskEvent} {d : Disk} (he : s.disk.Rotated e d)
    (hC : s.CaughtUp (.write e)) (hplaced : ({ s with disk := d } : Scene σ).Placed) :
    ({ s with disk := d } : Scene σ).Kept := by
  cases he with
  | append ino bytes hino => exact ⟨hplaced, h.current, h.renamed⟩
  | rename ino hpath =>
      refine ⟨hplaced, by simp, ?_⟩
      intro n hn
      by_cases hino : s.watch.reader.fileIno = ino
      · subst hino
        obtain ⟨⟨k, hoff, hall⟩, -⟩ := h.current hpath
        obtain rfl : (s.disk.content s.watch.reader.fileIno).length = n := by simpa using hn
        rcases hC rfl hpath with hle | ⟨hopen, hle⟩
        · left
          intro p hp
          exact hall p (by omega)
        · exact .inr ⟨k, ⟨hoff, hall⟩, hopen, by omega⟩
      · exact h.renamed n (by simpa [hino] using hn)
  | create ino hzero hnew hpath =>
      have hino : s.watch.reader.fileIno ≠ ino := by
        rintro rfl
        exact h.placed.ino_mem.elim hzero hnew
      refine ⟨hplaced, ?_, ?_⟩
      · intro hcur
        exact absurd (Option.some.inj hcur).symm hino
      · intro n hn
        exact h.renamed n (by simpa [hino] using hn)

theorem idle (h : s.Kept) {u : Watch σ} (hplaced : ({ s with watch := u } : Scene σ).Placed)
    (hfrom : s.watch.pc.file = none) (hpres : u.presented = s.watch.presented)
    (hreader : u.reader = s.watch.reader)
    (hfile : ∀ g, u.pc.file = some g → s.disk.path = some g) :
    ({ s with watch := u } : Scene σ).Kept := by
  refine ⟨hplaced, ?_, ?_⟩
  · intro hcur
    simp only [ReadUpTo, hpres, hreader] at hcur ⊢
    refine ⟨(h.current hcur).1, ?_⟩
    intro g hg
    exact Option.some.inj ((hfile g hg).symm.trans hcur)
  · intro n hn
    simp only [hpres, hreader] at hn ⊢
    rcases h.renamed n hn with hall | ⟨k, -, hopen, -⟩
    · exact .inl hall
    · simp [hfrom] at hopen

/-- The end of a read. What it took of the reader's generation lies behind
what had been presented, and it took all that the open stream could yield. -/
theorem read (h : s.Kept) {file : ℕ} {got : Bytes} {u : Watch σ}
    (hplaced : ({ s with watch := u } : Scene σ).Placed) (hfrom : s.watch.pc.file = some file)
    (hgot : got = extract (s.disk.content file) s.watch.reader.offset reqSize)
    (hpres : ∀ g, positionsOf g u.presented = positionsOf g s.watch.presented ++
      if file = g then List.range' s.watch.reader.offset.toNat got.length else [])
    (hreader : u.reader = ⟨s.watch.reader.offset + got.length, s.watch.reader.fileIno⟩)
    (hfile : u.pc.file = none) : ({ s with watch := u } : Scene σ).Kept := by
  have hown : ∀ k, s.ReadUpTo k → file = s.watch.reader.fileIno →
      ({ s with watch := u } : Scene σ).ReadUpTo (k + got.length) := by
    rintro k ⟨hoff, hall⟩ rfl
    refine ⟨by simp [hreader, hoff], ?_⟩
    intro p hp
    simp only [hreader, hpres, hoff, if_true, Int.toNat_natCast, List.mem_append,
      List.mem_range'_1]
    by_cases hpk : p < k
    · exact .inl (hall p hpk)
    · exact .inr ⟨by omega, hp⟩
  refine ⟨hplaced, ?_, ?_⟩
  · intro hcur
    have hcur' : s.disk.path = some s.watch.reader.fileIno := by simpa [hreader] using hcur
    obtain ⟨⟨k, hk⟩, hall⟩ := h.current hcur'
    exact ⟨⟨_, hown k hk (hall file hfrom)⟩, by simp [hfile]⟩
  · intro n hn
    have hn' : s.disk.renamedAt s.watch.reader.fileIno = some n := by simpa [hreader] using hn
    left
    rcases h.renamed n hn' with hall | ⟨k, hk, hopen, hle⟩
    · intro p hp
      simp only [hreader, hpres, List.mem_append]
      exact .inl (hall p hp)
    · obtain rfl : file = s.watch.reader.fileIno := Option.some.inj (hfrom.symm.trans hopen)
      obtain ⟨-, -, hlen⟩ := h.placed.tidy.renamed _ _ hn'
      have hrest : n ≤ k + got.length := by
        rw [hgot, hk.1, extract_natCast, List.length_take, List.length_drop]
        omega
      intro p hp
      exact (hown k hk rfl).2 p (by omega)

theorem stat (h : s.Kept) {ok : Bool} {u : Watch σ}
    (hplaced : ({ s with watch := u } : Scene σ).Placed) (hfrom : s.watch.pc = .check)
    (hpres : u.presented = s.watch.presented)
    (hreader : u.reader =
      (s.watch.reader.checkAndReset (if ok then s.disk.path else none)).2)
    (hfile : u.pc.file = none) : ({ s with watch := u } : Scene σ).Kept := by
  by_cases hsame : u.reader = s.watch.reader
  · exact h.idle hplaced (by simp [hfrom, Pc.file]) hpres hsame (by simp [hfile])
  obtain ⟨g, hpath, -, hnew⟩ := switched hreader hsame
  refine ⟨hplaced, ?_, ?_⟩
  · intro _
    exact ⟨⟨0, by simp [ReadUpTo, hnew]⟩, by simp [hfile]⟩
  · intro n hn
    have hn' : s.disk.renamedAt g = some n := by simpa [hnew] using hn
    exact absurd hpath (h.placed.tidy.renamed g n hn').2.1

theorem step {H : AcceptingHandler σ} {limit : Int} {m : Move} {t : Scene σ} (h : s.Kept)
    (hC : s.CaughtUp m)
    (hstep : ((H.agent limit).onDisk rotating).step s m = some t) :
    t.Kept := by
  have hplaced := h.placed.step hstep
  cases h.placed.turn hstep with
  | write e d he => exact h.write he hC hplaced
  | idle _ u hm hfrom hpres hreader hfile => exact h.idle hplaced hfrom hpres hreader hfile
  | noData file u hfrom hnil hpres hreader hfile =>
      exact h.read hplaced hfrom hnil.symm (by simp [hpres]) (by simp [hreader]) hfile
  | took file got u hfrom hgot hne hpres hreader hfile =>
      refine h.read hplaced hfrom hgot ?_ hreader hfile
      intro g
      rw [hpres, positionsOf_concat, Span.positions]
  | stat ok u hfrom hpres hreader hfile => exact h.stat hplaced hfrom hpres hreader hfile

theorem start (first : Option (ℕ+ × Bytes)) (openOk statOk : Bool) (runTime : Int)
    (handler : σ) :
    (Scene.unrotated first openOk statOk runTime handler).Kept := by
  refine ⟨.start first openOk statOk runTime handler, ?_, ?_⟩
  · intro _
    exact ⟨⟨0, rfl, by simp⟩, by simp [Scene.start, Watch.start, Pc.file]⟩
  · intro n hn
    rcases first with _ | ⟨ino, bytes⟩ <;>
      simp [Scene.start, Disk.initial, Disk.empty, Disk.single] at hn

end Kept

/-! ## What was not read in time -/

/-- The position `p` of a renamed generation `g` has not been presented and
lies behind all that an open stream can still yield. -/
structure Lost (g p : ℕ) (s : Scene σ) : Prop where
  placed : s.Placed
  mem_used : g ∈ s.disk.used
  gone : s.disk.path ≠ some g
  missing : p ∉ positionsOf g s.watch.presented
  short : s.watch.pc.file = some g → s.watch.reader.offset.toNat + reqSize ≤ p
  renamed : ∃ n, s.disk.renamedAt g = some n ∧ p < n

namespace Lost

variable {g p : ℕ} {s t : Scene σ}

theorem write (h : s.Lost g p) {e : DiskEvent} {d : Disk} (he : s.disk.Rotated e d)
    (hplaced : ({ s with disk := d } : Scene σ).Placed) :
    ({ s with disk := d } : Scene σ).Lost g p := by
  refine ⟨hplaced, Disk.used_subset_of_rotated he h.mem_used, ?_, h.missing, h.short, ?_⟩
  · intro hpath
    exact (Disk.path_of_rotated he hpath).elim h.gone fun hnew ↦ hnew h.mem_used
  · cases he with
    | append ino bytes hino => exact h.renamed
    | rename ino hpath =>
        have hne : g ≠ ino := fun heq ↦ h.gone (heq ▸ hpath)
        simpa [hne] using h.renamed
    | create ino hzero hnew hpath =>
        have hne : g ≠ ino := fun heq ↦ hnew (heq ▸ h.mem_used)
        simpa [hne] using h.renamed

theorem step {H : AcceptingHandler σ} {limit : Int} {m : Move} (h : s.Lost g p)
    (hstep : ((H.agent limit).onDisk rotating).step s m = some t) :
    t.Lost g p := by
  have hplaced := h.placed.step hstep
  cases h.placed.turn hstep with
  | write e d he => exact h.write he hplaced
  | idle _ u hm hfrom hpres hreader hfile =>
      refine ⟨hplaced, h.mem_used, h.gone, ?_, ?_, h.renamed⟩
      · simpa only [hpres] using h.missing
      · intro hg
        exact absurd (hfile g hg) h.gone
  | noData file u hfrom hnil hpres hreader hfile =>
      refine ⟨hplaced, h.mem_used, h.gone, ?_, by simp [hfile], h.renamed⟩
      simpa only [hpres] using h.missing
  | took file got u hfrom hgot hne hpres hreader hfile =>
      refine ⟨hplaced, h.mem_used, h.gone, ?_, by simp [hfile], h.renamed⟩
      change p ∉ positionsOf g u.presented
      rw [hpres, positionsOf_concat]
      by_cases hfg : file = g
      · have hshort := h.short (hfg ▸ hfrom)
        have hle := extract_length_le (s.disk.content file) s.watch.reader.offset reqSize
        rw [← hgot] at hle
        simp only [hfg, if_true, Span.positions, List.mem_append, List.mem_range'_1, not_or]
        exact ⟨h.missing, by omega⟩
      · simpa [hfg] using h.missing
  | stat ok u hfrom hpres hreader hfile =>
      refine ⟨hplaced, h.mem_used, h.gone, ?_, by simp [hfile], h.renamed⟩
      simpa only [hpres] using h.missing

/-- The last byte of a generation that is renamed before the reader has caught
up. -/
theorem of_overrun {H : AcceptingHandler σ} {limit : Int} {n : ℕ → ℕ} (h : s.Consumed n)
    (hpath : s.disk.path = some s.watch.reader.fileIno) (hover : ¬s.CaughtUp (.write .rename))
    (hstep : ((H.agent limit).onDisk rotating).step s (.write .rename) =
      some t) :
    t.watch = s.watch ∧
      t.Lost s.watch.reader.fileIno ((s.disk.content s.watch.reader.fileIno).length - 1) := by
  have hplaced := h.placed.step hstep
  simp only [CaughtUp, true_implies, hpath, h.offset, not_or, not_and] at hover
  obtain ⟨hlt, hopen⟩ := hover
  cases h.placed.turn hstep with
  | write e d he =>
      cases he with
      | rename ino hpath' =>
          obtain rfl : s.watch.reader.fileIno = ino := Option.some.inj (hpath.symm.trans hpath')
          refine ⟨rfl, hplaced, h.placed.tidy.path_mem _ hpath, by simp, ?_, ?_, ?_⟩
          · simp only [h.positions, List.mem_range]
            omega
          · intro hfile
            have := hopen hfile
            simp only [h.offset, Int.toNat_natCast]
            omega
          · exact ⟨_, Function.update_self .., by omega⟩
  | idle _ u hm => simp at hm

end Lost

end Scene

/-! ## Runs -/

section Runs

variable {σ : Type} (H : AcceptingHandler σ) (limit : Int) (first : Option (ℕ+ × Bytes))
  (openOk statOk : Bool) (runTime : Int) (handler : σ) (moves : List Move)

/-- In every run in which the reader's generation is renamed only after the
reader has caught up with it, no switch to another inode loses a byte. -/
theorem rotated_without_loss
    (hC : ((H.agent limit).onDisk rotating).EachStep Scene.CaughtUp
      (Scene.unrotated first openOk statOk runTime handler) moves) :
    ((H.agent limit).onDisk rotating).EachStep Scene.NoLoss
      (Scene.unrotated first openOk statOk runTime handler) moves :=
  eachStep_of_eachStep (P := Scene.Kept) (fun _ _ _ h hC hstep ↦ h.step hC hstep)
    (fun _ _ _ h _ hstep ↦ h.noLoss hstep)
    (.start first openOk statOk runTime handler) hC

end Runs

theorem rotated_without_loss_caughtUp :
    ((AcceptingHandler.base.agent (-1)).onDisk rotating).EachStep
      Scene.NoLoss (Scene.unrotated (some (1, [97])) true true 0 ())
      (Move.pass ++ [.write .rename, .write (.create 2)] ++ Move.emptyPass) :=
  rotated_without_loss AcceptingHandler.base (-1) (some (1, [97])) true true 0 () _ (by decide)

/-- A byte is appended behind what was read, and the generation is renamed
before the next read. -/
theorem not_eachStep_noLoss :
    ¬((AcceptingHandler.base.agent (-1)).onDisk rotating).EachStep
      Scene.NoLoss (Scene.unrotated (some (1, [97])) true true 0 ())
      (Move.pass ++ [.write (.append 1 [98]), .write .rename, .write (.create 2)] ++
        Move.emptyPass) := by
  decide

/-- Conversely, a generation that is renamed before the reader has caught up
with it loses bytes at any later switch away from it. -/
theorem overrun_loses {σ : Type} (H : AcceptingHandler σ) (limit : Int)
    (first : Option (ℕ+ × Bytes)) (openOk statOk : Bool) (runTime : Int) (handler : σ)
    (moves rest : List Move) {s t : Scene σ} {m : Move}
    (hC : ((H.agent limit).onDisk rotating).EachStep Scene.Unmixed
      (Scene.unrotated first openOk statOk runTime handler) moves)
    (hrun : ((H.agent limit).onDisk rotating).exec
      (Scene.unrotated first openOk statOk runTime handler) moves = some s)
    (hpath : s.disk.path = some s.watch.reader.fileIno) (hover : ¬s.CaughtUp (.write .rename))
    (hrest : ((H.agent limit).onDisk rotating).exec s
      (.write .rename :: rest) = some t)
    (hino : t.watch.reader.fileIno = s.watch.reader.fileIno) (hswitch : t.switches m = true) :
    ¬t.NoLoss m := by
  obtain ⟨n, h⟩ :=
    (always_consumed H limit first openOk statOk runTime handler moves hC).last hrun
  obtain ⟨u, hrename, hexec⟩ := Option.bind_eq_some_iff.mp hrest
  obtain ⟨-, hlost⟩ := Scene.Lost.of_overrun h hpath hover hrename
  have hlost' := exec_invariant (fun _ _ _ hl hs ↦ Scene.Lost.step hl hs) hlost hexec
  obtain ⟨k, hk, hlt⟩ := hlost'.renamed
  intro hno
  refine hlost'.missing ((positionsOf_mono t.watch.passed_prefix_presented _).subset ?_)
  have hpassed := hno hswitch k (by rw [hino]; exact hk) _ hlt
  rwa [hino] at hpassed

end SimpleFlow
