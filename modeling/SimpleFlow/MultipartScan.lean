import SimpleFlow.MultipartParser

/-!
# The parser finds the end of each part

Inside the data of a part the parser is a scanner for a line end and the
boundary: `lookbehind` holds what has matched, and what it hands to
`on_part_data` together with what is marked is what the scanner has released.
-/

namespace SimpleFlow

open DelimiterScan

namespace MultipartParser

variable {boundary buf pre : Bytes} {p q : MultipartParser} {c : UInt8}

/-! ## Reading without a stop -/

variable (boundary buf) in
/-- The callbacks made over some bytes and the parser after them, unless the
parser refuses one of the bytes. -/
def readAll : ℕ → Bytes → MultipartParser → Option (List MultipartCall × MultipartParser)
  | _, [], p => some ([], p)
  | i, c :: cs, p =>
      match p.turn boundary buf i c with
      | (_, none) => none
      | (calls, some q) => (readAll (i + 1) cs q).map fun r ↦ (calls ++ r.1, r.2)

variable (boundary buf pre) in
/-- From `p`, the bytes `cs` that come after `pre` lead to `q`. -/
def Reads (cs : Bytes) (p : MultipartParser) (calls : List MultipartCall)
    (q : MultipartParser) : Prop :=
  readAll boundary buf pre.length cs p = some (calls, q)

variable {cs ds : Bytes} {calls calls' : List MultipartCall} {r : MultipartParser}

theorem Reads.nil : Reads boundary buf pre [] p [] p := rfl

theorem Reads.one (h : p.turn boundary buf pre.length c = (calls, some q)) :
    Reads boundary buf pre [c] p calls q := by
  simp [Reads, readAll, h]

theorem Reads.append (h : Reads boundary buf pre cs p calls q)
    (h' : Reads boundary buf (pre ++ cs) ds q calls' r) :
    Reads boundary buf pre (cs ++ ds) p (calls ++ calls') r := by
  have hmain : ∀ i, readAll boundary buf i cs p = some (calls, q) →
      readAll boundary buf (i + cs.length) ds q = some (calls', r) →
      readAll boundary buf i (cs ++ ds) p = some (calls ++ calls', r) := by
    clear h h'
    induction cs generalizing p calls with
    | nil =>
        intro i h h'
        simp only [readAll, Option.some.injEq, Prod.mk.injEq] at h
        obtain ⟨rfl, rfl⟩ := h
        exact h'
    | cons c cs ih =>
        intro i h h'
        simp only [List.cons_append, readAll] at h ⊢
        split at h
        · cases h
        · rename_i first u hturn
          obtain ⟨⟨rest, q'⟩, hrest, heq⟩ := Option.map_eq_some_iff.mp h
          obtain ⟨rfl, rfl⟩ : first ++ rest = calls ∧ q' = q := by simpa using heq
          have hindex : i + (c :: cs).length = i + 1 + cs.length := by
            simp only [List.length_cons]
            omega
          rw [hindex] at h'
          simp [ih (i + 1) hrest h']
  rw [Reads, List.length_append] at h'
  exact hmain pre.length h h'

theorem Reads.cons (h : p.turn boundary buf pre.length c = (calls, some q))
    (h' : Reads boundary buf (pre ++ [c]) ds q calls' r) :
    Reads boundary buf pre (c :: ds) p (calls ++ calls') r :=
  (Reads.one h).append h'

/-! ## The data of a part -/

/-- The end of a part: a line end and the boundary. -/
def delimiter (boundary : Bytes) : Bytes := CR :: LF :: boundary

theorem delimiter_headOnce (h : CR ∉ boundary) : HeadOnce (delimiter boundary) := by
  intro k hk _
  cases k with
  | zero => rfl
  | succ k =>
      cases k with
      | zero => simp [delimiter, CR, LF] at hk
      | succ k =>
          have hmem : CR ∈ boundary := List.mem_of_getElem? (by simpa [delimiter] using hk)
          exact absurd hmem h

theorem delimiter_getElem? (k : ℕ) : (delimiter boundary)[k + 2]? = boundary[k]? := rfl

/-- The parser inside the data of a part, of which it has handed over `emitted`,
and the scanner that it is. -/
inductive InData (boundary buf : Bytes) (i : ℕ) (p : MultipartParser) (emitted : Bytes) :
    Scan UInt8 → Prop
  | data (hstate : p.state = .partData) (hmark : p.mark ≤ i)
      (hlength : p.lookbehind.length = boundary.length + 9) :
      InData boundary buf i p emitted ⟨emitted ++ p.marked buf i, 0⟩
  | almost (hstate : p.state = .partDataAlmostBoundary)
      (hlook : p.lookbehind.take 1 = (delimiter boundary).take 1)
      (hlength : p.lookbehind.length = boundary.length + 9) :
      InData boundary buf i p emitted ⟨emitted, 1⟩
  | boundary (hstate : p.state = .partDataBoundary) (hindex : p.index < boundary.length)
      (hlook : p.lookbehind.take (2 + p.index) = (delimiter boundary).take (2 + p.index))
      (hlength : p.lookbehind.length = boundary.length + 9) :
      InData boundary buf i p emitted ⟨emitted, 2 + p.index⟩

theorem marked_succ {post : Bytes} (hbuf : buf = pre ++ c :: post) (hmark : p.mark ≤ pre.length) :
    p.marked buf (pre.length + 1) = p.marked buf pre.length ++ [c] := by
  subst hbuf
  have htake : (pre ++ c :: post).take (pre.length + 1) = pre ++ [c] := by
    rw [List.take_append, List.take_of_length_le (by omega)]
    simp
  rw [marked, marked, htake, List.take_left, List.drop_append_of_le_length hmark]

theorem marked_self (i : ℕ) : ({ p with mark := i } : MultipartParser).marked buf i = [] := by
  rw [marked, List.drop_eq_nil_iff]
  exact List.length_take_le _ _

theorem isLast_eq_false {post : Bytes} (hbuf : buf = pre ++ c :: post) (hpost : post ≠ []) :
    isLast buf pre.length = false := by
  have hpos := List.length_pos_of_ne_nil hpost
  simp only [isLast, hbuf, List.length_append, List.length_cons, beq_eq_false_iff_ne]
  omega

/-- A byte of the data: what the scanner releases is handed over or marked. -/
theorem partData_spec (boundary emitted : Bytes) {post : Bytes} (hbuf : buf = pre ++ c :: post)
    (hpost : post ≠ []) (hstate : p.state = .partData) (hmark : p.mark ≤ pre.length)
    (hlength : p.lookbehind.length = boundary.length + 9) :
    ∃ pieces : List Bytes, (p.partData buf pre.length c).1 = pieces.map .partData ∧
      InData boundary buf (pre.length + 1) (p.partData buf pre.length c).2
        (emitted ++ pieces.flatten)
        ⟨emitted ++ p.marked buf pre.length ++ (if c = CR then [] else [c]),
          if c = CR then 1 else 0⟩ := by
  by_cases hc : c = CR
  · refine ⟨[p.marked buf pre.length], by simp [partData, hc], ?_⟩
    simp only [partData, hc, if_true, List.append_nil, List.flatten_cons, List.flatten_nil]
    refine .almost rfl ?_ (by simp [hlength])
    cases hlook : p.lookbehind with
    | nil => simp [hlook] at hlength
    | cons d rest => simp [delimiter]
  · refine ⟨[], by simp [partData, hc, isLast_eq_false hbuf hpost], ?_⟩
    simp only [partData, hc, if_false, isLast_eq_false hbuf hpost, Bool.false_eq_true,
      List.flatten_nil, List.append_nil]
    rw [List.append_assoc, ← marked_succ hbuf hmark]
    exact .data hstate (by omega) hlength

theorem backToData_spec (boundary emitted : Bytes) {post : Bytes} (hbuf : buf = pre ++ c :: post)
    (hpost : post ≠ []) (hlength : p.lookbehind.length = boundary.length + 9) (held : ℕ) :
    ∃ (pieces : List Bytes) (q : MultipartParser),
      p.backToData buf pre.length c held = (pieces.map .partData, some q) ∧
      InData boundary buf (pre.length + 1) q (emitted ++ pieces.flatten)
        ⟨emitted ++ p.lookbehind.take held ++ (if c = CR then [] else [c]),
          if c = CR then 1 else 0⟩ := by
  let u : MultipartParser := { p with state := .partData, mark := pre.length }
  obtain ⟨pieces, hpieces, hdata⟩ := partData_spec (p := u) boundary
    (emitted ++ p.lookbehind.take held) hbuf hpost rfl (Nat.le_refl _) hlength
  refine ⟨p.lookbehind.take held :: pieces, (u.partData buf pre.length c).2, ?_, ?_⟩
  · simp only [backToData, List.map_cons]
    rw [← hpieces]
  · rw [List.flatten_cons, ← List.append_assoc]
    have hnone : u.marked buf pre.length = [] :=
      marked_self (p := { p with state := .partData }) pre.length
    rwa [hnone, List.append_nil] at hdata

theorem feed_of_match {s : Scan UInt8} (h : (delimiter boundary)[s.matched]? = some c) :
    s.feed (delimiter boundary) c = ⟨s.out, s.matched + 1⟩ := by
  simp [Scan.feed, released, next, h]

theorem feed_of_mismatch {s : Scan UInt8} (h : (delimiter boundary)[s.matched]? ≠ some c) :
    s.feed (delimiter boundary) c =
      ⟨s.out ++ (delimiter boundary).take s.matched ++ (if c = CR then [] else [c]),
        if c = CR then 1 else 0⟩ := by
  have hhead : (delimiter boundary).head? = some c ↔ c = CR := by
    simp [delimiter, eq_comm]
  by_cases hc : c = CR
  · simp [Scan.feed, released, next, h, hhead.mpr hc, if_pos hc]
  · have hnot : (delimiter boundary).head? ≠ some c := fun heq ↦ hc (hhead.mp heq)
    simp [Scan.feed, released, next, h, hnot, if_neg hc]

theorem boundaryAt_eq_iff {k : ℕ} (hk : k < boundary.length) :
    boundaryAt boundary k = c ↔ (delimiter boundary)[2 + k]? = some c := by
  rw [Nat.add_comm, delimiter_getElem?, List.getElem?_eq_getElem hk, boundaryAt]
  simp [List.getElem?_eq_getElem hk]

/-- One byte of the data, as long as it does not complete the delimiter. -/
theorem InData.step {emitted post : Bytes} {s : Scan UInt8} (hboundary : boundary ≠ [])
    (h : InData boundary buf pre.length p emitted s) (hbuf : buf = pre ++ c :: post)
    (hpost : post ≠ [])
    (hlt : (s.feed (delimiter boundary) c).matched < (delimiter boundary).length) :
    ∃ (pieces : List Bytes) (q : MultipartParser),
      p.turn boundary buf pre.length c = (pieces.map .partData, some q) ∧
      InData boundary buf (pre.length + 1) q (emitted ++ pieces.flatten)
        (s.feed (delimiter boundary) c) := by
  cases h with
  | data hstate hmark hlength =>
      obtain ⟨pieces, hpieces, hdata⟩ := partData_spec boundary emitted hbuf hpost hstate hmark
        hlength
      refine ⟨pieces, (p.partData buf pre.length c).2, by simp only [turn, hstate, hpieces], ?_⟩
      have hfeed : Scan.feed (delimiter boundary) ⟨emitted ++ p.marked buf pre.length, 0⟩ c =
          ⟨emitted ++ p.marked buf pre.length ++ (if c = CR then [] else [c]),
            if c = CR then 1 else 0⟩ := by
        by_cases hc : c = CR
        · subst hc
          rw [feed_of_match rfl]
          simp
        · rw [feed_of_mismatch (by simpa [delimiter, eq_comm] using hc)]
          simp
      rw [hfeed]
      exact hdata
  | almost hstate hlook hlength =>
      by_cases hc : c = LF
      · have hturn : p.turn boundary buf pre.length c = ([], some { p with
            state := .partDataBoundary, lookbehind := p.lookbehind.set 1 LF, index := 0 }) := by
          simp only [turn, hstate, hc, if_true]
        refine ⟨[], _, hturn, ?_⟩
        have hmatch : (delimiter boundary)[1]? = some c := by simp [delimiter, hc]
        rw [feed_of_match hmatch, List.flatten_nil, List.append_nil]
        refine .boundary rfl (List.length_pos_of_ne_nil hboundary) ?_ ?_
        · show (p.lookbehind.set 1 LF).take 2 = (delimiter boundary).take 2
          cases hbytes : p.lookbehind with
          | nil => simp [hbytes] at hlength
          | cons d rest =>
              cases rest with
              | nil => simp [hbytes] at hlength
              | cons e rest =>
                  have hd : d = CR := by simpa [hbytes, delimiter] using hlook
                  simp [delimiter, hd]
        · simpa using hlength
      · have hmatch : (delimiter boundary)[1]? ≠ some c := by
          simpa [delimiter, eq_comm] using hc
        obtain ⟨pieces, q, hturn, hdata⟩ := backToData_spec boundary emitted
          hbuf hpost hlength 1
        refine ⟨pieces, q, by simp only [turn, hstate, hc, if_false, hturn], ?_⟩
        rw [feed_of_mismatch hmatch, ← hlook]
        exact hdata
  | boundary hstate hindex hlook hlength =>
      by_cases hc : boundaryAt boundary p.index = c
      · have hmatch := (boundaryAt_eq_iff hindex).mp hc
        rw [feed_of_match hmatch] at hlt ⊢
        have hnext : p.index + 1 < boundary.length := by
          simp only [delimiter, List.length_cons] at hlt
          omega
        have hturn : p.turn boundary buf pre.length c = ([], some { p with
            lookbehind := p.lookbehind.set (2 + p.index) c, index := p.index + 1 }) := by
          simp [turn, hstate, hc, Nat.ne_of_lt hnext]
        refine ⟨[], _, hturn, ?_⟩
        rw [List.flatten_nil, List.append_nil]
        refine .boundary hstate hnext ?_ ?_
        · have hbound : 2 + p.index < p.lookbehind.length := by omega
          show (p.lookbehind.set (2 + p.index) c).take (2 + p.index + 1) =
            (delimiter boundary).take (2 + p.index + 1)
          rw [List.take_add_one, List.take_add_one (l := delimiter boundary), hmatch,
            List.take_set_of_le (Nat.le_refl _), hlook, List.getElem?_set_self hbound]
        · simpa using hlength
      · have hmatch := fun heq ↦ hc ((boundaryAt_eq_iff hindex).mpr heq)
        obtain ⟨pieces, q, hturn, hdata⟩ := backToData_spec boundary emitted
          hbuf hpost hlength (2 + p.index)
        refine ⟨pieces, q, ?_, ?_⟩
        · simp only [turn, hstate, ne_eq, hc, not_false_eq_true, if_true, hturn]
        · rw [feed_of_mismatch hmatch, ← hlook]
          exact hdata

/-- The byte that completes the delimiter ends the part, with all of its data
handed over. -/
theorem InData.last {emitted : Bytes} {s : Scan UInt8}
    (hboundary : boundary ≠ []) (h : InData boundary buf pre.length p emitted s)
    (hlast : (s.feed (delimiter boundary) c).matched = (delimiter boundary).length) :
    emitted = (s.feed (delimiter boundary) c).out ∧
      ∃ q, p.turn boundary buf pre.length c = ([.partDataEnd], some q) ∧
        q.state = .partDataAlmostEnd ∧ q.lookbehind.length = boundary.length + 9 := by
  have hpos := List.length_pos_of_ne_nil hboundary
  have hlength : (delimiter boundary).length = boundary.length + 2 := by simp [delimiter]
  have hgrow : (s.feed (delimiter boundary) c).matched ≤ s.matched + 1 := by
    by_cases hmatch : (delimiter boundary)[s.matched]? = some c
    · rw [feed_of_match hmatch]
    · rw [feed_of_mismatch hmatch]
      simp only
      split <;> omega
  rw [hlast, hlength] at hgrow
  cases h with
  | data => exact absurd hgrow (by simp only; omega)
  | almost => exact absurd hgrow (by simp only; omega)
  | boundary hstate hindex hlook hlength' =>
      have hnext : p.index + 1 = boundary.length := by
        simp only at hgrow
        omega
      have hc : boundaryAt boundary p.index = c := by
        by_contra hne
        rw [feed_of_mismatch fun heq ↦ hne ((boundaryAt_eq_iff hindex).mpr heq), hlength] at hlast
        simp only at hlast
        split at hlast <;> omega
      have hmatch := (boundaryAt_eq_iff hindex).mp hc
      have hturn : p.turn boundary buf pre.length c = ([.partDataEnd], some { p with
          lookbehind := p.lookbehind.set (2 + p.index) c, index := boundary.length,
          state := .partDataAlmostEnd }) := by
        simp [turn, hstate, hc, hnext]
      exact ⟨by rw [feed_of_match hmatch], _, hturn, rfl, by simpa using hlength'⟩

/-- From inside the data, the rest of it and the delimiter. -/
theorem reads_inData {ds d xs emitted post : Bytes} {s : Scan UInt8} (hboundary : boundary ≠ [])
    (hCR : CR ∉ boundary) (hnot : ¬delimiter boundary <:+: d)
    (h : InData boundary buf pre.length p emitted s) (hscan : Scanned (delimiter boundary) xs s)
    (hds : xs ++ ds = d ++ delimiter boundary) (hrest : ds ≠ []) (hbuf : buf = pre ++ ds ++ post) :
    ∃ (pieces : List Bytes) (q : MultipartParser),
      Reads boundary buf pre ds p (pieces.map .partData ++ [.partDataEnd]) q ∧
      emitted ++ pieces.flatten = d ∧ q.state = .partDataAlmostEnd ∧
      q.lookbehind.length = boundary.length + 9 := by
  have hhead := delimiter_headOnce hCR
  induction ds generalizing pre p emitted s xs with
  | nil => exact absurd rfl hrest
  | cons c ds ih =>
      have hlt : s.matched < (delimiter boundary).length :=
        hscan.lt (not_suffix_of_unmatched hhead hnot hds.symm hrest)
      have hnext := hscan.feed (c := c) hhead hlt
      have hcons : xs ++ [c] ++ ds = d ++ delimiter boundary := by simpa using hds
      by_cases hlast : ds = []
      · -- `c` completes the delimiter
        subst hlast
        rw [List.append_nil] at hcons
        rw [hcons] at hnext
        have hdone := hnext.released (by simp [delimiter])
        obtain ⟨hemitted, q, hturn, hstate, hlength⟩ :=
          h.last (c := c) hboundary (by rw [hdone])
        refine ⟨[], q, .one hturn, ?_, hstate, hlength⟩
        rw [hemitted, hdone]
        simp
      · have hlt' : (s.feed (delimiter boundary) c).matched < (delimiter boundary).length :=
          hnext.lt (not_suffix_of_unmatched hhead hnot hcons.symm hlast)
        have hsplit : buf = pre ++ c :: (ds ++ post) := by simpa using hbuf
        obtain ⟨pieces, u, hturn, hdata⟩ := h.step hboundary hsplit (by simp [hlast]) hlt'
        have hlength : (pre ++ [c]).length = pre.length + 1 := by simp
        rw [← hlength] at hdata
        obtain ⟨pieces', q, hreads, hpieces, hend⟩ :=
          ih hdata hnext hcons hlast (by simpa using hbuf)
        refine ⟨pieces ++ pieces', q, ?_, ?_, hend⟩
        · have hall := Reads.cons hturn hreads
          simpa using hall
        · rw [← hpieces]
          simp

/-- A pass that falls through from `p` to the state of `u`. -/
theorem Reads.fallthrough (extra : List MultipartCall) (u : MultipartParser)
    (hturn : p.turn boundary buf pre.length c =
      (extra ++ (u.turn boundary buf pre.length c).1, (u.turn boundary buf pre.length c).2))
    (h : Reads boundary buf pre (c :: cs) u calls q) :
    Reads boundary buf pre (c :: cs) p (extra ++ calls) q := by
  simp only [Reads, readAll, hturn] at h ⊢
  cases hu : u.turn boundary buf pre.length c with
  | mk first after =>
      cases after with
      | none => simp [hu] at h
      | some v =>
          simp only [hu] at h ⊢
          obtain ⟨r, hr, heq⟩ := Option.map_eq_some_iff.mp h
          rw [hr]
          simp only [Option.map_some, Option.some.injEq, Prod.mk.injEq] at heq ⊢
          exact ⟨by rw [← heq.1, List.append_assoc], heq.2⟩

/-- The data of a part, in which the delimiter does not occur, and the
delimiter. -/
theorem reads_data {d post : Bytes} (hboundary : boundary ≠ []) (hCR : CR ∉ boundary)
    (hnot : ¬delimiter boundary <:+: d) (hstate : p.state = .partDataStart)
    (hlength : p.lookbehind.length = boundary.length + 9)
    (hbuf : buf = pre ++ (d ++ delimiter boundary) ++ post) :
    ∃ (pieces : List Bytes) (q : MultipartParser),
      Reads boundary buf pre (d ++ delimiter boundary) p
        (.headersComplete :: pieces.map .partData ++ [.partDataEnd]) q ∧
      pieces.flatten = d ∧ q.state = .partDataAlmostEnd ∧
      q.lookbehind.length = boundary.length + 9 := by
  let u : MultipartParser := { p with mark := pre.length, state := .partData }
  have hdata : InData boundary buf pre.length u [] ⟨[], 0⟩ := by
    have hnone : u.marked buf pre.length = [] := marked_self (p := { p with state := .partData }) _
    have hstart : InData boundary buf pre.length u [] ⟨[] ++ u.marked buf pre.length, 0⟩ :=
      .data rfl (Nat.le_refl _) hlength
    rwa [hnone] at hstart
  obtain ⟨pieces, q, hreads, hpieces, hend⟩ := reads_inData hboundary hCR hnot hdata .nil
    (List.nil_append _) (by simp [delimiter]) hbuf
  refine ⟨pieces, q, ?_, hpieces, hend⟩
  cases hds : d ++ delimiter boundary with
  | nil => simp [delimiter] at hds
  | cons c ds =>
      rw [hds] at hreads
      refine Reads.fallthrough [.headersComplete] u ?_ hreads
      simp [turn, hstate, u]

end MultipartParser

end SimpleFlow
