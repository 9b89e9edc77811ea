import SimpleFlow.Presented

/-!
# What any handler has been shown

A handler that refuses a chunk is shown the same span again, so the list of
spans grows by repetitions. `Progress` says what one move does to the spans and
to the reader when nothing is known about the handler or about the writer, and
`Tracked` is what the reader then keeps as long as the file it believes in is
not cut short under it.
-/

namespace SimpleFlow

open LabelledSystem

/-- Some span holds the byte `b` at the position `p` of the file `g`. -/
def Shows (spans : List Span) (g p : ℕ) (b : UInt8) : Prop :=
  ∃ q ∈ spans, q.file = g ∧ q.pos ≤ p ∧ q.bytes[p - q.pos]? = some b

theorem Shows.mono {spans spans' : List Span} {g p : ℕ} {b : UInt8} (h : Shows spans g p b)
    (hsub : spans ⊆ spans') : Shows spans' g p b := by
  obtain ⟨q, hq, hspan⟩ := h
  exact ⟨q, hsub hq, hspan⟩

/-- What a read shows. -/
theorem shows_extract {content : Bytes} {g k p size : ℕ} {b : UInt8} (hk : k ≤ p)
    (hp : p < k + (extract content k size).length) (hb : content[p]? = some b) :
    Shows [⟨g, k, extract content k size⟩] g p b := by
  refine ⟨_, List.mem_singleton_self _, rfl, hk, ?_⟩
  have hlt : p - k < (extract content k size).length := by omega
  rw [extract_natCast, List.length_take] at hlt
  have hsize : p - k < size := by omega
  simp only [extract_natCast]
  rw [List.getElem?_take_of_lt hsize, List.getElem?_drop, Nat.add_sub_cancel' hk]
  exact hb

namespace Watch

variable {σ : Type} {a : FileAgent σ} {s t : Watch σ} {o : Obs}

/-- What a step does to the spans and to the reader, with any handler. -/
inductive Change (s : Watch σ) : Obs → Watch σ → Prop
  | opened (file : Option ℕ) (u : Watch σ) (hfrom : s.pc.file = none)
      (hpres : u.presented = s.presented) (hreader : u.reader = s.reader)
      (hfile : u.pc.file = file) : Change s (.opened file) u
  | noData (file : ℕ) (content : Bytes) (u : Watch σ) (hfrom : s.pc.file = some file)
      (hnil : extract content s.reader.offset reqSize = [])
      (hpres : u.presented = s.presented) (hreader : u.reader = s.reader)
      (hfile : u.pc.file = none) : Change s (.data content) u
  | took (file : ℕ) (content : Bytes) (u : Watch σ) (hfrom : s.pc.file = some file)
      (hne : extract content s.reader.offset reqSize ≠ [])
      (hpres : u.presented = s.presented ++
        [⟨file, s.reader.offset.toNat, extract content s.reader.offset reqSize⟩])
      (hreader : u.reader =
        ⟨s.reader.offset + (extract content s.reader.offset reqSize).length, s.reader.fileIno⟩)
      (hfile : u.pc.file = none) : Change s (.data content) u
  | stat (ino : Option ℕ) (u : Watch σ) (hfrom : s.pc = .check)
      (hpres : u.presented = s.presented) (hreader : u.reader = (s.reader.checkAndReset ino).2)
      (hfile : u.pc.file = none) : Change s (.stat ino) u
  | called (u : Watch σ) (hready : s.ready) (hpres : s.presented <+: u.presented)
      (hsub : u.presented ⊆ s.presented) (hreader : u.reader = s.reader)
      (hfile : u.pc.file = none) : Change s .call u

theorem file_of_ready (hready : s.ready) : s.pc.file = none := by
  rcases hready with hpc | ⟨hpc, -⟩ <;> simp [hpc, Pc.file]

/-- A call shows nothing but the chunk in the buffer. -/
theorem change_callHandler (hready : s.ready) : Change s .call (a.callHandler s) := by
  have hpend := pending_of_ready hready
  have hpres := presented_of_pending hpend
  rcases a.callHandler_cases s with ⟨f, -, heq⟩ | ⟨n, h, -, hn, heq⟩ |
      ⟨n, h, runTime, pc, -, hn, hpc, heq⟩
  · rw [heq]
    have hsame : ({ s with pc := .faulted f } : Watch σ).presented = s.presented := by
      rw [hpres, presented_of_pending rfl]
      rfl
    exact .called _ hready (hsame ▸ List.prefix_rfl) (hsame ▸ List.Subset.refl _) rfl rfl
  · rw [heq]
    have hmore : ({ s with
        handler := h, calls := s.calls ++ [s.callWith n], retryStatus := true,
        pc := .head } : Watch σ).presented = s.presented ++ [s.current] := by
      rw [hpres, presented_of_pending rfl]
      simp [passed, current, chunk, Call.span, Call.bytes, callWith]
    have hmem : s.current ∈ s.presented := by simp [hpres]
    refine .called _ hready (hmore ▸ List.prefix_append _ _) ?_ rfl rfl
    rw [hmore]
    exact List.append_subset.mpr ⟨List.Subset.refl _, by simpa using hmem⟩
  · rw [heq]
    have hsame : ({ s with
        handler := h, calls := s.calls ++ [s.callWith n], retryStatus := false,
        runTime := runTime, pc := pc } : Watch σ).presented = s.presented := by
      rw [hpres, presented_of_not_pending]
      · simp [passed, current, chunk, Call.span, Call.bytes, callWith]
      · rcases hpc with rfl | rfl | rfl <;> rfl
    refine .called _ hready (hsame ▸ List.prefix_rfl) (hsame ▸ List.Subset.refl _) rfl ?_
    rcases hpc with rfl | rfl | rfl <;> rfl

theorem change_of_step (hs : s.Sound) (h : a.step s o = some t) : Change s o t := by
  cases FileAgent.taken_of_step h with
  | opened file buffer pc hfrom hbuffer hpc hfile =>
      have hretry := hs.retry_false_of_open hfrom
      have hpend : s.pending = false := by
        rcases hfrom with ⟨hhead, -⟩ | hsecond
        · simp [pending, hhead, hretry]
        · simp [pending, hsecond, hretry]
      have hnone : s.pc.file = none := by
        rcases hfrom with ⟨hhead, -⟩ | hsecond
        · simp [hhead, Pc.file]
        · simp [hsecond, Pc.file]
      refine .opened file _ hnone ?_ rfl hfile
      rw [presented_of_not_pending hpend, presented_of_not_pending]
      · rfl
      · exact (pending_of_reading hpc).trans hretry
  | noData file content pc hfrom hnil hpc =>
      have hretry := hs.retry_false (Pc.reading_of_file hfrom)
      have hpend := (pending_of_reading (Pc.reading_of_file hfrom)).trans hretry
      refine .noData file content _ hfrom hnil ?_ rfl ?_
      · rw [presented_of_not_pending hpend, presented_of_not_pending]
        · rfl
        · rcases hpc with rfl | rfl <;> simp [pending, hretry]
      · rcases hpc with rfl | rfl <;> rfl
  | filled file content hfrom hne =>
      have hretry := hs.retry_false (Pc.reading_of_file hfrom)
      have hpend := (pending_of_reading (Pc.reading_of_file hfrom)).trans hretry
      refine .took file content _ hfrom hne ?_ rfl rfl
      rw [presented_of_not_pending hpend]
      simp [presented, pending, filled, passed, current, chunk]
  | stat ino hfrom =>
      have hretry := hs.retry_false_of_check hfrom
      refine .stat ino _ hfrom ?_ rfl rfl
      rw [presented_of_not_pending, presented_of_not_pending]
      · rfl
      · simp [pending, hfrom, hretry]
      · simp [pending, hretry]
  | call hready => exact change_callHandler hready

end Watch

namespace Scene

variable {σ : Type}

/-- The moves of a scene, by what they do to the disk, the reader and the
spans. -/
inductive Progress (w : Writer) (s : Scene σ) : Move → Scene σ → Prop
  | write (e : DiskEvent) (d : Disk) (hw : w s.disk e = true) (hd : s.disk.apply e = some d) :
      Progress w s (.write e) { s with disk := d }
  | idle (m : Move) (u : Watch σ) (hm : m = .call ∨ ∃ ok, m = .opened ok)
      (hfrom : s.watch.pc.file = none) (hpres : s.watch.presented <+: u.presented)
      (hsub : u.presented ⊆ s.watch.presented) (hreader : u.reader = s.watch.reader)
      (hfile : ∀ g, u.pc.file = some g → s.disk.path = some g) :
      Progress w s m { s with watch := u }
  | noData (file : ℕ) (u : Watch σ) (hfrom : s.watch.pc.file = some file)
      (hnil : extract (s.disk.content file) s.watch.reader.offset reqSize = [])
      (hpres : u.presented = s.watch.presented) (hreader : u.reader = s.watch.reader)
      (hfile : u.pc.file = none) : Progress w s .data { s with watch := u }
  | took (file : ℕ) (got : Bytes) (u : Watch σ) (hfrom : s.watch.pc.file = some file)
      (hgot : got = extract (s.disk.content file) s.watch.reader.offset reqSize) (hne : got ≠ [])
      (hpres : u.presented =
        s.watch.presented ++ [⟨file, s.watch.reader.offset.toNat, got⟩])
      (hreader : u.reader =
        ⟨s.watch.reader.offset + got.length, s.watch.reader.fileIno⟩)
      (hfile : u.pc.file = none) : Progress w s .data { s with watch := u }
  | stat (ok : Bool) (u : Watch σ) (hfrom : s.watch.pc = .check)
      (hpres : u.presented = s.watch.presented)
      (hreader : u.reader =
        (s.watch.reader.checkAndReset (if ok then s.disk.path else none)).2)
      (hfile : u.pc.file = none) : Progress w s (.stat ok) { s with watch := u }

variable {a : FileAgent σ} {w : Writer} {s t : Scene σ} {m : Move}

theorem progress_of_step (hs : s.watch.Sound) (hstep : (a.onDisk w).step s m = some t) :
    s.Progress w m t := by
  rcases FileAgent.sceneStep_cases hstep with ⟨e, d, rfl, hw, hd, rfl⟩ | ⟨o, u, ho, hu, rfl⟩
  · exact .write e d hw hd
  cases Watch.change_of_step hs hu with
  | opened file _ hfrom hpres hreader hfile =>
      refine .idle m u ?_ hfrom (hpres ▸ List.prefix_rfl) (hpres ▸ List.Subset.refl _) hreader ?_
      · cases m <;> simp_all [FileAgent.observe]
      · intro g hg
        exact FileAgent.observe_opened ho g (hfile.symm.trans hg)
  | noData file content _ hfrom hnil hpres hreader hfile =>
      obtain ⟨rfl, rfl⟩ := FileAgent.observe_data hfrom ho
      exact .noData file u hfrom hnil hpres hreader hfile
  | took file content _ hfrom hne hpres hreader hfile =>
      obtain ⟨rfl, rfl⟩ := FileAgent.observe_data hfrom ho
      exact .took file _ u hfrom rfl hne hpres hreader hfile
  | stat ino _ hfrom hpres hreader hfile =>
      obtain ⟨ok, rfl, rfl⟩ := FileAgent.observe_stat ho
      exact .stat ok u hfrom hpres hreader hfile
  | called _ hready hpres hsub hreader hfile =>
      refine .idle m u ?_ (Watch.file_of_ready hready) hpres hsub hreader (by simp [hfile])
      cases m <;> simp_all [FileAgent.observe]

theorem sound_of_step (hs : s.watch.Sound) (hstep : (a.onDisk w).step s m = some t) :
    t.watch.Sound := by
  rcases FileAgent.sceneStep_cases hstep with ⟨_, _, -, -, -, rfl⟩ | ⟨_, u, -, hu, rfl⟩
  · exact hs
  · exact hs.step hu

/-- The file the reader believes in is not cut short under it: it is not
truncated below the offset, and its inode number goes to a new file only while
the offset is at the start. -/
def Unshortened (s : Scene σ) : Move → Prop
  | .write (.truncate ino size) =>
      s.disk.path = some ino → ino = s.watch.reader.fileIno → s.watch.reader.offset ≤ size
  | .write (.create ino) =>
      ino = s.watch.reader.fileIno →
        s.watch.reader.offset ≤ 0 ∧ ∀ g ∈ s.watch.pc.file, g = ino
  | _ => True

/-- While the reader's file is at the path, the offset is inside it, and what
lies below the offset, from `lo` on, is shown by the spans behind the first
`n`. -/
structure Tracked (lo : ℕ → ℕ) (n : ℕ) (s : Scene σ) : Prop where
  skipped : n ≤ s.watch.presented.length
  inside : s.disk.path = some s.watch.reader.fileIno →
    s.watch.reader.offset ≤ (s.disk.content s.watch.reader.fileIno).length
  stream : s.disk.path = some s.watch.reader.fileIno →
    ∀ g, s.watch.pc.file = some g → g = s.watch.reader.fileIno
  shown : s.disk.path = some s.watch.reader.fileIno →
    ∀ p b, lo s.watch.reader.fileIno ≤ p → (p : Int) < s.watch.reader.offset →
      (s.disk.content s.watch.reader.fileIno)[p]? = some b →
      Shows (s.watch.presented.drop n) s.watch.reader.fileIno p b

namespace Tracked

variable {lo : ℕ → ℕ} {n : ℕ}

theorem write {e : DiskEvent} {d : Disk} (h : s.Tracked lo n) (hm : s.Unshortened (.write e))
    (hd : s.disk.apply e = some d) : ({ s with disk := d } : Scene σ).Tracked lo n := by
  cases e with
  | append ino bytes =>
      obtain ⟨-, rfl⟩ := Disk.apply_append hd
      have hprefix := Disk.prefix_of_apply_append hd s.watch.reader.fileIno
      refine ⟨h.skipped, ?_, h.stream, ?_⟩
      · intro hpath
        have hle := h.inside hpath
        have hlen := hprefix.length_le
        dsimp only at hlen ⊢
        omega
      · intro hpath p b hlo hp hb
        have hle := h.inside hpath
        apply h.shown hpath p b hlo hp
        obtain ⟨rest, hrest⟩ := hprefix
        have hlt : p < (s.disk.content s.watch.reader.fileIno).length := by
          dsimp only at hp
          omega
        rwa [← hrest, List.getElem?_append_left hlt] at hb
  | rename =>
      obtain ⟨ino, -, rfl⟩ := Disk.apply_rename hd
      exact ⟨h.skipped, by simp, by simp, by simp⟩
  | create ino =>
      obtain ⟨-, rfl⟩ := Disk.apply_created hd
      refine ⟨h.skipped, ?_, ?_, ?_⟩
      · intro hpath
        obtain rfl : ino = s.watch.reader.fileIno := by simpa using hpath
        have hle := (hm rfl).1
        dsimp only
        omega
      · intro hpath
        obtain rfl : ino = s.watch.reader.fileIno := by simpa using hpath
        exact (hm rfl).2
      · intro hpath p b hlo hp hb
        obtain rfl : ino = s.watch.reader.fileIno := by simpa using hpath
        simp at hb
  | truncate ino size =>
      rw [Disk.apply_truncate hd]
      by_cases hino : ino = s.watch.reader.fileIno
      · subst hino
        refine ⟨h.skipped, ?_, h.stream, ?_⟩
        · intro hpath
          have hle := h.inside hpath
          have hsize := hm hpath rfl
          simp only [Function.update_self, List.length_take]
          omega
        · intro hpath p b hlo hp hb
          have hsize := hm hpath rfl
          apply h.shown hpath p b hlo hp
          have hlt : p < size := by
            dsimp only at hp
            omega
          simpa only [Function.update_self, List.getElem?_take_of_lt hlt] using hb
      · have hsame : (Function.update s.disk.content ino ((s.disk.content ino).take size))
            s.watch.reader.fileIno = s.disk.content s.watch.reader.fileIno :=
          Function.update_of_ne (Ne.symm hino) _ _
        refine ⟨h.skipped, ?_, h.stream, ?_⟩
        · intro hpath
          simpa only [hsame] using h.inside hpath
        · intro hpath p b hlo hp hb
          exact h.shown hpath p b hlo hp (by simpa only [hsame] using hb)

theorem step (hs : s.watch.Sound) (h : s.Tracked lo n) (hm : s.Unshortened m)
    (hstep : (a.onDisk w).step s m = some t) : t.Tracked lo n := by
  cases progress_of_step hs hstep with
  | write e d hw hd => exact h.write hm hd
  | idle _ u hkind hfrom hpres hsub hreader hfile =>
      refine ⟨h.skipped.trans hpres.length_le, ?_, ?_, ?_⟩ <;> simp only [hreader]
      · exact h.inside
      · intro hpath g hg
        exact Option.some.inj ((hfile g hg).symm.trans hpath)
      · intro hpath p b hlo hp hb
        exact (h.shown hpath p b hlo hp hb).mono (hpres.drop n).subset
  | noData file u hfrom hnil hpres hreader hfile =>
      refine ⟨hpres ▸ h.skipped, ?_, by simp [hfile], ?_⟩ <;> simp only [hreader, hpres]
      · exact h.inside
      · exact h.shown
  | took file got u hfrom hgot hne hpres hreader hfile =>
      obtain ⟨k, hk⟩ := Int.eq_ofNat_of_zero_le (offset_nonneg_of_extract (hgot ▸ hne))
      have hskip := h.skipped
      refine ⟨by simp only [hpres, List.length_append]; omega, ?_, by simp [hfile], ?_⟩ <;>
        simp only [hreader]
      · intro hpath
        obtain rfl := h.stream hpath file hfrom
        have hle := h.inside hpath
        rw [hk] at hgot hle ⊢
        subst hgot
        have hread := offset_add_extract_le (Int.ofNat_le.mp hle) reqSize
        omega
      · intro hpath p b hlo hp hb
        obtain rfl := h.stream hpath file hfrom
        rw [hpres, List.drop_append_of_le_length hskip]
        by_cases hpk : (p : Int) < s.watch.reader.offset
        · exact (h.shown hpath p b hlo hpk hb).mono (List.subset_append_left _ _)
        · rw [hk] at hgot hp hpk ⊢
          subst hgot
          rw [Int.toNat_natCast]
          exact (shows_extract (by omega) (by omega) hb).mono (List.subset_append_right _ _)
  | stat ok u hfrom hpres hreader hfile =>
      by_cases hsame : u.reader = s.watch.reader
      · refine ⟨hpres ▸ h.skipped, ?_, by simp [hfile], ?_⟩ <;> simp only [hsame, hpres]
        · exact h.inside
        · exact h.shown
      · obtain ⟨g, -, -, hzero⟩ := switched hreader hsame
        refine ⟨hpres ▸ h.skipped, ?_, by simp [hfile], ?_⟩ <;> simp only [hzero]
        · intro _
          omega
        · intro _ p b _ hp
          omega

end Tracked

/-- The reader believes in the file that is at the path, and finds nothing at
its offset. Only a writer changes that. -/
structure Stuck (g : ℕ) (spans : List Span) (s : Scene σ) : Prop where
  path : s.disk.path = some g
  fileIno_eq : s.watch.reader.fileIno = g
  found_nothing : extract (s.disk.content g) s.watch.reader.offset reqSize = []
  stream_eq : ∀ f, s.watch.pc.file = some f → f = g
  presented_subset : s.watch.presented ⊆ spans

theorem Stuck.step {g : ℕ} {spans : List Span} (hs : s.watch.Sound) (h : s.Stuck g spans)
    (hm : ∀ e, m ≠ .write e) (hstep : (a.onDisk w).step s m = some t) : t.Stuck g spans := by
  cases progress_of_step hs hstep with
  | write e d hw hd => exact absurd rfl (hm e)
  | idle _ u hkind hfrom hpres hsub hreader hfile =>
      refine ⟨h.path, hreader ▸ h.fileIno_eq, by simpa only [hreader] using h.found_nothing, ?_,
        List.Subset.trans hsub h.presented_subset⟩
      intro f hf
      exact Option.some.inj ((hfile f hf).symm.trans h.path)
  | noData file u hfrom hnil hpres hreader hfile =>
      exact ⟨h.path, hreader ▸ h.fileIno_eq, by simpa only [hreader] using h.found_nothing,
        by simp [hfile], hpres ▸ h.presented_subset⟩
  | took file got u hfrom hgot hne hpres hreader hfile =>
      obtain rfl := h.stream_eq file hfrom
      exact absurd (hgot.trans h.found_nothing) hne
  | stat ok u hfrom hpres hreader hfile =>
      have hsame := not_switched hreader (h.fileIno_eq.symm ▸ h.path)
      exact ⟨h.path, hsame ▸ h.fileIno_eq, by simpa only [hsame] using h.found_nothing,
        by simp [hfile], hpres ▸ h.presented_subset⟩

theorem Stuck.exec {g : ℕ} {spans : List Span} {moves : List Move} (hs : s.watch.Sound)
    (h : s.Stuck g spans) (hm : ∀ m ∈ moves, ∀ e, m ≠ .write e)
    (hrun : (a.onDisk w).exec s moves = some t) : t.Stuck g spans := by
  have hboth : t.watch.Sound ∧ t.Stuck g spans := by
    refine exec_invariant_of_mem (P := fun s ↦ s.watch.Sound ∧ s.Stuck g spans) ?_ ⟨hs, h⟩ hm hrun
    intro s m t ⟨hs, h⟩ hm hstep
    exact ⟨sound_of_step hs hstep, h.step hs hm hstep⟩
  exact hboth.2

end Scene

end SimpleFlow
