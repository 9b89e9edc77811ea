import SimpleFlow.Rotation

/-!
# Order across rotations

When no read takes bytes of a generation that is not the reader's, the bytes
passed of every generation are an initial part of it, the offset is how many
of the reader's generation have been read, and a generation that the reader
does not know yet is untouched. A read that does take bytes of another
generation starts in the middle of it.
-/

namespace SimpleFlow

open LabelledSystem

namespace Scene

variable {σ : Type}

/-- The positions passed of each generation increase and start at 0. -/
def InOrder (s : Scene σ) : Prop :=
  ∀ g, (positionsOf g s.watch.passed).Pairwise (· < ·) ∧
    ∀ p ∈ (positionsOf g s.watch.passed).head?, p = 0

/-- A read from a generation that is not the reader's finds nothing behind the
offset. -/
def Unmixed (s : Scene σ) (m : Move) : Prop :=
  m = .data → ∀ g ∈ s.watch.pc.file, g ≠ s.watch.reader.fileIno →
    ((s.disk.content g).length : Int) ≤ s.watch.reader.offset

instance (s : Scene σ) (m : Move) : Decidable (s.Unmixed m) :=
  inferInstanceAs (Decidable (m = .data → ∀ g ∈ s.watch.pc.file, g ≠ s.watch.reader.fileIno →
    ((s.disk.content g).length : Int) ≤ s.watch.reader.offset))

/-- The invariant: `n g` bytes of the generation `g` have been read. -/
structure Consumed (n : ℕ → ℕ) (s : Scene σ) : Prop where
  placed : s.Placed
  positions : ∀ g, positionsOf g s.watch.presented = List.range (n g)
  bytes : ∀ g, bytesOf g s.watch.presented = (s.disk.content g).take (n g)
  le_length : ∀ g, n g ≤ (s.disk.content g).length
  offset : s.watch.reader.offset = n s.watch.reader.fileIno
  fresh : ∀ g, s.disk.path = some g ∨ s.watch.pc.file = some g →
    g ≠ s.watch.reader.fileIno → n g = 0
  unused : ∀ g, g ∉ s.disk.used → n g = 0

theorem Consumed.inOrder {n : ℕ → ℕ} {s : Scene σ} (h : s.Consumed n) : s.InOrder := by
  intro g
  have hpre := positionsOf_mono s.watch.passed_prefix_presented g
  rw [h.positions g] at hpre
  obtain ⟨k, hk⟩ : ∃ k, positionsOf g s.watch.passed = List.range k := by
    refine ⟨min (positionsOf g s.watch.passed).length (n g), ?_⟩
    rw [← List.take_range]
    exact List.prefix_iff_eq_take.mp hpre
  rw [hk]
  refine ⟨List.pairwise_lt_range, ?_⟩
  intro p hp
  cases k with
  | zero => simp at hp
  | succ k => simpa [List.range_succ_eq_map, eq_comm] using hp

/-! ## Preservation -/

namespace Consumed

variable {n : ℕ → ℕ} {s : Scene σ}

theorem write (h : s.Consumed n) {e : DiskEvent} {d : Disk} (he : s.disk.Rotated e d)
    (hplaced : ({ s with disk := d } : Scene σ).Placed) :
    ({ s with disk := d } : Scene σ).Consumed n := by
  have hpre : ∀ g, (s.disk.content g).take (n g) = (d.content g).take (n g) ∧
      n g ≤ (d.content g).length := by
    intro g
    by_cases hg : g ∈ s.disk.used
    · obtain ⟨tail, htail⟩ := Disk.prefix_of_rotated he hg
      have hle := h.le_length g
      rw [← htail, List.take_append_of_le_length hle, List.length_append]
      exact ⟨rfl, hle.trans (Nat.le_add_right _ _)⟩
    · simp [h.unused g hg]
  refine ⟨hplaced, h.positions, fun g ↦ (h.bytes g).trans (hpre g).1,
    fun g ↦ (hpre g).2, h.offset, ?_, ?_⟩
  · rintro g (hpath | hfile) hne
    · rcases Disk.path_of_rotated he hpath with hold | hnew
      · exact h.fresh g (.inl hold) hne
      · exact h.unused g hnew
    · exact h.fresh g (.inr hfile) hne
  · intro g hg
    exact h.unused g fun hused ↦ hg (Disk.used_subset_of_rotated he hused)

theorem idle (h : s.Consumed n) {u : Watch σ}
    (hplaced : ({ s with watch := u } : Scene σ).Placed)
    (hpres : u.presented = s.watch.presented) (hreader : u.reader = s.watch.reader)
    (hfile : ∀ g, u.pc.file = some g → s.disk.path = some g) :
    ({ s with watch := u } : Scene σ).Consumed n := by
  refine ⟨hplaced, fun g ↦ ?_, fun g ↦ ?_, h.le_length, ?_, ?_, h.unused⟩
  · simpa only [hpres] using h.positions g
  · simpa only [hpres] using h.bytes g
  · simpa only [hreader] using h.offset
  · intro g hg hne
    refine h.fresh g (.inl (hg.elim id (hfile g))) ?_
    simpa only [hreader] using hne

theorem took (h : s.Consumed n) {got : Bytes} {u : Watch σ}
    (hplaced : ({ s with watch := u } : Scene σ).Placed)
    (hgot : got = extract (s.disk.content s.watch.reader.fileIno) s.watch.reader.offset reqSize)
    (hpres : u.presented = s.watch.presented ++
      [⟨s.watch.reader.fileIno, s.watch.reader.offset.toNat, got⟩])
    (hreader : u.reader = ⟨s.watch.reader.offset + got.length, s.watch.reader.fileIno⟩)
    (hfile : u.pc.file = none) (hused : s.watch.reader.fileIno ∈ s.disk.used) :
    ({ s with watch := u } : Scene σ).Consumed
      (Function.update n s.watch.reader.fileIno (n s.watch.reader.fileIno + got.length)) := by
  have hoff := h.offset
  generalize hf : s.watch.reader.fileIno = f at *
  rw [hoff] at hgot hpres hreader
  refine ⟨hplaced, fun g ↦ ?_, fun g ↦ ?_, fun g ↦ ?_, ?_, ?_, ?_⟩
  · change positionsOf g u.presented = _
    rw [hpres, positionsOf_concat, h.positions]
    by_cases hg : f = g
    · subst hg
      have happend := List.range'_append_1 (s := 0) (m := n f) (n := got.length)
      simpa [Span.positions, List.range_eq_range'] using happend
    · simp [hg, Ne.symm hg]
  · change bytesOf g u.presented = _
    rw [hpres, bytesOf_concat, h.bytes]
    by_cases hg : f = g
    · subst hg
      simp only [if_true, Function.update_self]
      rw [hgot]
      exact take_append_extract _ _ _
    · simp [hg, Ne.symm hg]
  · by_cases hg : g = f
    · subst hg
      simp only [Function.update_self]
      rw [hgot]
      exact offset_add_extract_le (h.le_length _) _
    · simpa [hg] using h.le_length g
  · simp [hreader]
  · intro g hg hne
    have hgf : g ≠ f := by simpa [hreader] using hne
    rw [Function.update_of_ne hgf]
    refine h.fresh g (.inl (hg.elim id ?_)) (hf ▸ hgf)
    simp [hfile]
  · intro g hg
    have hgf : g ≠ f := fun heq ↦ hg (heq ▸ hused)
    rw [Function.update_of_ne hgf]
    exact h.unused g hg

theorem stat (h : s.Consumed n) {ok : Bool} {u : Watch σ}
    (hplaced : ({ s with watch := u } : Scene σ).Placed)
    (hpres : u.presented = s.watch.presented)
    (hreader : u.reader =
      (s.watch.reader.checkAndReset (if ok then s.disk.path else none)).2)
    (hfile : u.pc.file = none) : ({ s with watch := u } : Scene σ).Consumed n := by
  by_cases hsame : u.reader = s.watch.reader
  · exact h.idle hplaced hpres hsame (by simp [hfile])
  obtain ⟨g, hpath, hne, hnew⟩ := switched hreader hsame
  refine ⟨hplaced, fun k ↦ ?_, fun k ↦ ?_, h.le_length, ?_, ?_, h.unused⟩
  · simpa only [hpres] using h.positions k
  · simpa only [hpres] using h.bytes k
  · simp [hnew, h.fresh g (.inl hpath) hne]
  · rintro k (hk | hk) hkne
    · have hgk : g = k := Option.some.inj (hpath.symm.trans hk)
      exact absurd hgk.symm (by simpa [hnew] using hkne)
    · simp [hfile] at hk

theorem step {H : AcceptingHandler σ} {limit : Int} {m : Move} {t : Scene σ}
    (h : s.Consumed n) (hC : s.Unmixed m)
    (hstep : ((H.agent limit).onDisk rotating).step s m = some t) :
    ∃ n', t.Consumed n' := by
  have hplaced := h.placed.step hstep
  cases h.placed.turn hstep with
  | write e d he => exact ⟨n, h.write he hplaced⟩
  | idle _ u hm hfrom hpres hreader hfile => exact ⟨n, h.idle hplaced hpres hreader hfile⟩
  | noData file u hfrom hnil hpres hreader hfile =>
      exact ⟨n, h.idle hplaced hpres hreader (by simp [hfile])⟩
  | took file got u hfrom hgot hne hpres hreader hfile =>
      have hown : file = s.watch.reader.fileIno := by
        by_contra hother
        have hle := hC rfl file hfrom hother
        rw [h.offset] at hle hgot
        exact hne (hgot.trans (extract_eq_nil (by exact_mod_cast hle) _))
      subst hown
      exact ⟨_, h.took hplaced hgot hpres hreader hfile (h.placed.file_mem _ hfrom)⟩
  | stat ok u hfrom hpres hreader hfile => exact ⟨n, h.stat hplaced hpres hreader hfile⟩

theorem start (first : Option (ℕ+ × Bytes)) (openOk statOk : Bool) (runTime : Int)
    (handler : σ) :
    (Scene.unrotated first openOk statOk runTime handler).Consumed
      fun _ ↦ 0 := by
  refine ⟨.start first openOk statOk runTime handler, ?_, ?_, ?_, ?_, ?_, ?_⟩ <;>
    simp [Scene.start, Watch.start, Watch.presented, Watch.passed, Watch.pending, positionsOf,
      bytesOf, feedOf, FileReader.new]

end Consumed

end Scene

/-! ## Runs -/

section Runs

variable {σ : Type} (H : AcceptingHandler σ) (limit : Int) (first : Option (ℕ+ × Bytes))
  (openOk statOk : Bool) (runTime : Int) (handler : σ) (moves : List Move)

theorem always_consumed
    (hC : ((H.agent limit).onDisk rotating).EachStep Scene.Unmixed
      (Scene.unrotated first openOk statOk runTime handler) moves) :
    ((H.agent limit).onDisk rotating).Always (fun s ↦ ∃ n, s.Consumed n)
      (Scene.unrotated first openOk statOk runTime handler) moves :=
  always_of_eachStep (fun _ _ _ ⟨_, h⟩ hC hstep ↦ h.step hC hstep)
    ⟨_, .start first openOk statOk runTime handler⟩ hC

/-- In every run in which no read takes bytes of a generation that is not the
reader's, however appends, rotations and the loop interleave, each generation
is passed from its first byte on, in order and without repetition. -/
theorem rotated_in_order
    (hC : ((H.agent limit).onDisk rotating).EachStep Scene.Unmixed
      (Scene.unrotated first openOk statOk runTime handler) moves) :
    ((H.agent limit).onDisk rotating).Always Scene.InOrder
      (Scene.unrotated first openOk statOk runTime handler) moves :=
  (always_consumed H limit first openOk statOk runTime handler moves hC).mono
    fun _ ⟨_, h⟩ ↦ h.inOrder

/-- The first read that does take bytes of another generation, from an offset
that is not 0, passes that generation from its middle on. -/
theorem mixed_read_out_of_order {s t : Scene σ} {g : ℕ}
    (hC : ((H.agent limit).onDisk rotating).EachStep Scene.Unmixed
      (Scene.unrotated first openOk statOk runTime handler) moves)
    (hrun : ((H.agent limit).onDisk rotating).exec
      (Scene.unrotated first openOk statOk runTime handler) moves = some s)
    (hfile : s.watch.pc.file = some g) (hne : g ≠ s.watch.reader.fileIno)
    (hpos : 0 < s.watch.reader.offset)
    (hlt : s.watch.reader.offset < (s.disk.content g).length)
    (hcall : ((H.agent limit).onDisk rotating).exec s [.data, .call] = some t)
    (haccepted : t.watch.pending = false) : ¬t.InOrder := by
  obtain ⟨n, h⟩ :=
    (always_consumed H limit first openOk statOk runTime handler moves hC).last hrun
  obtain ⟨u, hread, hcall'⟩ := Option.bind_eq_some_iff.mp hcall
  obtain ⟨t', hstep, ht'⟩ := Option.bind_eq_some_iff.mp hcall'
  obtain rfl : t' = t := Option.some.inj ht'
  have hpassed : t'.watch.passed = s.watch.presented ++
      [⟨g, s.watch.reader.offset.toNat,
        extract (s.disk.content g) s.watch.reader.offset reqSize⟩] := by
    rw [← Watch.presented_of_not_pending haccepted]
    have hplaced := h.placed.step hread
    cases h.placed.turn hread with
    | idle _ w _ hfrom => simp [hfile] at hfrom
    | noData file w hfrom hnil =>
        obtain rfl : file = g := Option.some.inj (hfrom.symm.trans hfile)
        rw [h.offset, extract_natCast, List.take_eq_nil_iff, List.drop_eq_nil_iff] at hnil
        rw [h.offset] at hlt
        rcases hnil with hnil | hnil
        · simp [reqSize] at hnil
        · omega
    | took file got w hfrom hgot hgotne hpres =>
        obtain rfl : file = g := Option.some.inj (hfrom.symm.trans hfile)
        subst hgot
        cases hplaced.turn hstep with
        | idle _ v _ _ hpres' => exact hpres'.trans hpres
  intro hin
  have hhead := (hin g).2
  rw [hpassed, positionsOf_concat, h.positions, h.fresh g (.inr hfile) hne] at hhead
  have hgot : 0 < (extract (s.disk.content g) s.watch.reader.offset reqSize).length := by
    rw [h.offset, extract_natCast, List.length_take, List.length_drop]
    rw [h.offset] at hlt
    simp only [reqSize]
    omega
  have hzero := hhead s.watch.reader.offset.toNat (by
    simp [Span.positions, List.head?_range', Nat.pos_iff_ne_zero.mp hgot])
  omega

end Runs

def Move.pass : List Move := [.opened true, .data, .call]

def Move.emptyPass : List Move := [.opened true, .data, .opened true, .data, .stat true]

theorem rotated_in_order_noticed :
    ((AcceptingHandler.base.agent (-1)).onDisk rotating).Always Scene.InOrder
      (Scene.unrotated (some (1, [97])) true true 0 ())
      (Move.pass ++ [.write .rename, .write (.create 2)] ++ Move.emptyPass ++
        [.write (.append 2 [98, 99])] ++ Move.pass) :=
  rotated_in_order AcceptingHandler.base (-1) (some (1, [97])) true true 0 () _ (by decide)

/-- The new generation outgrows the offset before the next read, which then
starts at its second byte. -/
theorem not_always_inOrder :
    ¬((AcceptingHandler.base.agent (-1)).onDisk rotating).Always
      Scene.InOrder (Scene.unrotated (some (1, [97])) true true 0 ())
      (Move.pass ++ [.write .rename, .write (.create 2), .write (.append 2 [98, 99])] ++
        Move.pass) := by
  intro h
  have hhead := h.mono (Q := fun s ↦ ∀ p ∈ (positionsOf 2 s.watch.passed).head?, p = 0)
    fun s hs ↦ (hs 2).2
  revert hhead
  decide

end SimpleFlow
