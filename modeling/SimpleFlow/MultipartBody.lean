import SimpleFlow.MultipartScan

/-!
# A multipart body is read back

`encode` writes parts as a client does: the boundary before each part and after
the last one, the headers a line each, an empty line and the data. The parser
calls back with the headers of each part and with its data, in pieces, provided
that the delimiter does not occur in the data.
-/

namespace SimpleFlow

/-- A part of a multipart body. -/
structure Part where
  headers : List (Bytes × Bytes)
  data : Bytes
  deriving DecidableEq, Repr

namespace Part

def encodeHeader (h : Bytes × Bytes) : Bytes := h.1 ++ colon :: space :: (h.2 ++ [CR, LF])

def encode (part : Part) : Bytes := part.headers.flatMap encodeHeader ++ CR :: LF :: part.data

/-- What follows a boundary. -/
def encodeFrom (boundary epilogue : Bytes) : List Part → Bytes
  | [] => hyphen :: hyphen :: epilogue
  | part :: parts =>
      CR :: LF :: (part.encode ++ MultipartParser.delimiter boundary) ++
        encodeFrom boundary epilogue parts

/-- The body that carries `parts`. -/
def encodeAll (boundary epilogue : Bytes) (parts : List Part) : Bytes :=
  boundary ++ encodeFrom boundary epilogue parts

/-- The header names are made of letters and hyphens, no value starts with a
space or goes over a line end, and the delimiter does not occur in the data. -/
structure Writable (boundary : Bytes) (part : Part) : Prop where
  names : ∀ h ∈ part.headers, ∀ c ∈ h.1, MultipartParser.isFieldChar c = true
  values : ∀ h ∈ part.headers, CR ∉ h.2 ∧ h.2.head? ≠ some space
  data : ¬MultipartParser.delimiter boundary <:+: part.data

instance (boundary : Bytes) (part : Part) : Decidable (part.Writable boundary) :=
  decidable_of_iff ((∀ h ∈ part.headers, h.1.all MultipartParser.isFieldChar = true) ∧
    (∀ h ∈ part.headers, CR ∉ h.2 ∧ h.2.head? ≠ some space) ∧
    ¬MultipartParser.delimiter boundary <:+: part.data)
    ⟨fun h ↦ ⟨fun x hx ↦ List.all_eq_true.mp (h.1 x hx), h.2.1, h.2.2⟩,
      fun h ↦ ⟨fun x hx ↦ List.all_eq_true.mpr (h.names x hx), h.values, h.data⟩⟩

/-- The callbacks for a part whose data comes in `pieces`. -/
def calls (part : Part) (pieces : List Bytes) : List MultipartCall :=
  .partDataBegin :: part.headers.flatMap (fun h ↦ [.headerField h.1, .headerValue h.2]) ++
    (.headersComplete :: pieces.map .partData ++ [.partDataEnd])

end Part

/-- The callbacks tell of `parts`. -/
inductive Tells : List Part → List MultipartCall → Prop
  | nil : Tells [] [.bodyEnd]
  | cons {part : Part} {pieces : List Bytes} {parts : List Part} {calls : List MultipartCall}
      (hpieces : pieces.flatten = part.data) (hrest : Tells parts calls) :
      Tells (part :: parts) (part.calls pieces ++ calls)

namespace MultipartParser

variable {boundary buf pre post : Bytes} {p q : MultipartParser} {c : UInt8}

/-- Bytes that leave the parser as it is. -/
theorem reads_same {ds : Bytes}
    (hsame : ∀ i, isLast buf i = false → ∀ c ∈ ds, p.turn boundary buf i c = ([], some p))
    (hbuf : buf = pre ++ ds ++ post) (hpost : post ≠ []) : Reads boundary buf pre ds p [] p := by
  induction ds generalizing pre with
  | nil => exact .nil
  | cons c ds ih =>
      have hsplit : buf = pre ++ c :: (ds ++ post) := by simpa using hbuf
      have hturn := hsame pre.length (isLast_eq_false hsplit (by simp [hpost])) c
        List.mem_cons_self
      have hbuf' : buf = pre ++ [c] ++ ds ++ post := by simpa using hbuf
      have hrest := ih (fun i hi d hd ↦ hsame i hi d (List.mem_cons_of_mem c hd)) hbuf'
      exact Reads.cons hturn hrest

theorem marked_of_mark {ds : Bytes} (hbuf : buf = pre ++ ds ++ post) (hmark : p.mark = pre.length) :
    p.marked buf (pre ++ ds).length = ds := by
  rw [marked, hbuf, List.take_left, hmark, List.drop_left]

/-! ## The boundary -/

/-- The parser has read a boundary and can go on with a part. -/
def AtBoundary (boundary : Bytes) (p : MultipartParser) : Prop :=
  (p.state = .startBoundary ∧ p.index = boundary.length ∨ p.state = .partDataAlmostEnd) ∧
    p.lookbehind.length = boundary.length + 9

theorem reads_boundary {done ds : Bytes} (hboundary : boundary = done ++ ds)
    (hstate : p.state = .startBoundary) (hindex : p.index = done.length) :
    Reads boundary buf pre ds p [] { p with index := boundary.length } := by
  induction ds generalizing pre p done with
  | nil =>
      have hlength : p.index = boundary.length := by rw [hindex, hboundary, List.append_nil]
      rw [← hlength]
      exact .nil
  | cons c ds ih =>
      have hlength : boundary.length = done.length + (ds.length + 1) := by
        rw [hboundary, List.length_append, List.length_cons]
      have hat : boundaryAt boundary p.index = c := by
        rw [boundaryAt, hindex, hboundary]
        simp
      have hturn : p.turn boundary buf pre.length c =
          ([], some { p with index := p.index + 1 }) := by
        have hne : p.index ≠ boundary.length := by omega
        have hne' : p.index ≠ boundary.length + 1 := by omega
        simp [turn, hstate, startBoundary, hne, hne', hat]
      have hboundary' : boundary = done ++ [c] ++ ds := by simpa using hboundary
      exact Reads.cons hturn (ih (p := { p with index := p.index + 1 }) hboundary' hstate
        (by simp [hindex]))

theorem reads_first_boundary (hne : boundary ≠ []) :
    ∃ q, Reads boundary buf [] boundary (init boundary) [] q ∧ AtBoundary boundary q ∧
      q.state = .startBoundary := by
  let u : MultipartParser := { init boundary with index := 0, state := .startBoundary }
  have hreads : Reads boundary buf [] boundary u [] { u with index := boundary.length } :=
    reads_boundary (List.nil_append _).symm rfl rfl
  refine ⟨{ u with index := boundary.length }, ?_, ⟨.inl ⟨rfl, rfl⟩, by simp [u, init]⟩, rfl⟩
  cases boundary with
  | nil => exact absurd rfl hne
  | cons c rest => exact Reads.fallthrough [] u rfl hreads

variable (boundary) in
theorem reads_open (h : AtBoundary boundary p) :
    ∃ q, Reads boundary buf pre [CR, LF] p [.partDataBegin] q ∧ q.state = .headerFieldStart ∧
      q.lookbehind.length = boundary.length + 9 := by
  obtain ⟨⟨hstate, hindex⟩ | hstate, hlength⟩ := h
  · have hfirst : p.turn boundary buf pre.length CR =
        ([], some { p with index := boundary.length + 1 }) := by
      simp [turn, hstate, startBoundary, hindex]
    refine ⟨{ p with index := 0, state := .headerFieldStart },
      .cons hfirst (.one ?_), rfl, hlength⟩
    simp [turn, hstate, startBoundary]
  · have hfirst : p.turn boundary buf pre.length CR =
        ([], some { p with state := .partDataEnd }) := by
      simp [turn, hstate, CR, hyphen]
    refine ⟨{ p with state := .headerFieldStart }, .cons hfirst (.one ?_), rfl, hlength⟩
    simp [turn]

variable (boundary) in
theorem reads_close {epilogue : Bytes} (hstate : p.state = .partDataAlmostEnd) :
    ∃ q, Reads boundary buf pre (hyphen :: hyphen :: epilogue) p [.bodyEnd] q := by
  have hfirst : p.turn boundary buf pre.length hyphen =
      ([], some { p with state := .partDataFinalHyphen }) := by
    simp [turn, hstate]
  have hsecond : ({ p with state := .partDataFinalHyphen } : MultipartParser).turn boundary buf
      (pre ++ [hyphen]).length hyphen = ([.bodyEnd], some { p with state := .finish }) := by
    simp [turn]
  have hrest : ∀ pre, Reads boundary buf pre epilogue { p with state := .finish } []
      { p with state := .finish } := by
    induction epilogue with
    | nil => exact fun _ ↦ .nil
    | cons c epilogue ih =>
        intro pre
        exact show Reads boundary buf pre (c :: epilogue) _ ([] ++ []) _ from Reads.cons rfl (ih _)
  exact ⟨_, Reads.cons hfirst (Reads.cons hsecond (hrest _))⟩

/-! ## The headers -/

theorem turn_fieldChar {i : ℕ} (hstate : p.state = .headerField) (hlast : isLast buf i = false)
    (hc : isFieldChar c = true) : p.turn boundary buf i c = ([], some p) := by
  have hCR : c ≠ CR := by
    rintro rfl
    exact absurd hc (by decide)
  have hcolon : c ≠ colon := by
    rintro rfl
    exact absurd hc (by decide)
  simp [turn, hstate, headerField, hCR, hcolon, hc, hlast]

variable (boundary) in
theorem reads_name {name : Bytes} (hchars : ∀ c ∈ name, isFieldChar c = true)
    (hstate : p.state = .headerFieldStart) (hbuf : buf = pre ++ (name ++ [colon]) ++ post) :
    ∃ q, Reads boundary buf pre (name ++ [colon]) p [.headerField name] q ∧
      q.state = .headerValueStart ∧ q.lookbehind = p.lookbehind := by
  let u : MultipartParser := { p with mark := pre.length, state := .headerField }
  have hbuf' : buf = pre ++ name ++ (colon :: post) := by simpa using hbuf
  have hname : Reads boundary buf pre name u [] u :=
    reads_same (fun i hi c hc ↦ turn_fieldChar rfl hi (hchars c hc)) hbuf' (by simp)
  have hcolon : u.turn boundary buf (pre ++ name).length colon =
      ([.headerField name], some { u with state := .headerValueStart }) := by
    have hmarked : u.marked buf (pre ++ name).length = name := marked_of_mark hbuf' rfl
    simp only [turn, headerField, u, hmarked] at hmarked ⊢
    simp [colon, CR]
  refine ⟨{ u with state := .headerValueStart }, ?_, rfl, rfl⟩
  have hreads := hname.append (Reads.one hcolon)
  cases hds : name ++ [colon] with
  | nil => simp at hds
  | cons c ds =>
      rw [hds] at hreads
      exact Reads.fallthrough [] u (by simp [turn, hstate, u]) hreads

variable (boundary) in
theorem reads_value {value : Bytes} (hCR : CR ∉ value) (hspace : value.head? ≠ some space)
    (hstate : p.state = .headerValueStart) (hbuf : buf = pre ++ (value ++ [CR, LF]) ++ post) :
    ∃ q, Reads boundary buf pre (value ++ [CR, LF]) p [.headerValue value] q ∧
      q.state = .headerFieldStart ∧ q.lookbehind = p.lookbehind := by
  let u : MultipartParser := { p with mark := pre.length, state := .headerValue }
  have hbuf' : buf = pre ++ value ++ (CR :: LF :: post) := by simpa using hbuf
  have hvalue : Reads boundary buf pre value u [] u := by
    refine reads_same (fun i hi c hc ↦ ?_) hbuf' (by simp)
    have hne : c ≠ CR := fun heq ↦ hCR (heq ▸ hc)
    simp [turn, headerValue, u, hne, hi]
  have hend : u.turn boundary buf (pre ++ value).length CR =
      ([.headerValue value], some { u with state := .headerValueAlmostDone }) := by
    have hmarked : u.marked buf (pre ++ value).length = value := marked_of_mark hbuf' rfl
    simp only [turn, headerValue, u, hmarked] at hmarked ⊢
    simp
  have hline : ({ u with state := .headerValueAlmostDone } : MultipartParser).turn boundary buf
      (pre ++ value ++ [CR]).length LF = ([], some { u with state := .headerFieldStart }) := by
    simp [turn]
  refine ⟨{ u with state := .headerFieldStart }, ?_, rfl, rfl⟩
  have hreads := hvalue.append (Reads.cons hend (Reads.one hline))
  cases hds : value ++ [CR, LF] with
  | nil => simp at hds
  | cons c ds =>
      have hc : c ≠ space := by
        cases value with
        | nil =>
            obtain rfl : CR = c := by simpa using congrArg List.head? hds
            decide
        | cons d value =>
            obtain rfl : d = c := by simpa using congrArg List.head? hds
            simpa using hspace
      rw [hds] at hreads
      exact Reads.fallthrough [] u (by simp [turn, hstate, hc, u]) hreads

variable (boundary) in
theorem reads_header {h : Bytes × Bytes} (hchars : ∀ c ∈ h.1, isFieldChar c = true)
    (hCR : CR ∉ h.2) (hspace : h.2.head? ≠ some space) (hstate : p.state = .headerFieldStart)
    (hbuf : buf = pre ++ Part.encodeHeader h ++ post) :
    ∃ q, Reads boundary buf pre (Part.encodeHeader h) p [.headerField h.1, .headerValue h.2] q ∧
      q.state = .headerFieldStart ∧ q.lookbehind = p.lookbehind := by
  have hfirst : buf = pre ++ (h.1 ++ [colon]) ++ (space :: (h.2 ++ [CR, LF]) ++ post) := by
    rw [hbuf, Part.encodeHeader]
    simp
  have hsecond : buf = pre ++ (h.1 ++ [colon]) ++ [space] ++ (h.2 ++ [CR, LF]) ++ post := by
    rw [hfirst]
    simp
  obtain ⟨u, hname, hustate, hulook⟩ := reads_name boundary hchars hstate hfirst
  have hblank : u.turn boundary buf (pre ++ (h.1 ++ [colon])).length space = ([], some u) := by
    simp [turn, hustate]
  obtain ⟨q, hvalue, hqstate, hqlook⟩ := reads_value boundary hCR hspace hustate hsecond
  refine ⟨q, ?_, hqstate, hqlook.trans hulook⟩
  have hreads := hname.append (Reads.cons hblank hvalue)
  simpa [Part.encodeHeader] using hreads

variable (boundary) in
theorem reads_headers {headers : List (Bytes × Bytes)}
    (hnames : ∀ h ∈ headers, ∀ c ∈ h.1, isFieldChar c = true)
    (hvalues : ∀ h ∈ headers, CR ∉ h.2 ∧ h.2.head? ≠ some space)
    (hstate : p.state = .headerFieldStart)
    (hbuf : buf = pre ++ headers.flatMap Part.encodeHeader ++ post) :
    ∃ q, Reads boundary buf pre (headers.flatMap Part.encodeHeader) p
        (headers.flatMap fun h ↦ [.headerField h.1, .headerValue h.2]) q ∧
      q.state = .headerFieldStart ∧ q.lookbehind = p.lookbehind := by
  induction headers generalizing pre p with
  | nil => exact ⟨p, .nil, hstate, rfl⟩
  | cons h headers ih =>
      have hmem : ∀ x ∈ headers, x ∈ h :: headers := fun x ↦ List.mem_cons_of_mem h
      have hfirst :
          buf = pre ++ Part.encodeHeader h ++ (headers.flatMap Part.encodeHeader ++ post) := by
        rw [hbuf]
        simp
      have hsecond :
          buf = pre ++ Part.encodeHeader h ++ headers.flatMap Part.encodeHeader ++ post := by
        rw [hfirst]
        simp
      obtain ⟨hCR, hspace⟩ := hvalues h List.mem_cons_self
      obtain ⟨u, hheader, hustate, hulook⟩ :=
        reads_header boundary (hnames h List.mem_cons_self) hCR hspace hstate hfirst
      obtain ⟨q, hrest, hqstate, hqlook⟩ := ih (fun x hx ↦ hnames x (hmem x hx))
        (fun x hx ↦ hvalues x (hmem x hx)) hustate hsecond
      exact ⟨q, hheader.append hrest, hqstate, hqlook.trans hulook⟩

variable (boundary) in
theorem reads_blank_line (hstate : p.state = .headerFieldStart) :
    ∃ q, Reads boundary buf pre [CR, LF] p [] q ∧ q.state = .partDataStart ∧
      q.lookbehind = p.lookbehind := by
  have hfirst : p.turn boundary buf pre.length CR =
      ([], some { p with mark := pre.length, state := .headersAlmostDone }) := by
    simp [turn, hstate, headerField]
  refine ⟨{ p with mark := pre.length, state := .partDataStart }, .cons hfirst (.one ?_), rfl, rfl⟩
  simp [turn]

/-! ## The parts -/

theorem reads_part {part : Part} (hboundary : boundary ≠ []) (hCR : CR ∉ boundary)
    (hpart : part.Writable boundary) (h : AtBoundary boundary p)
    (hbuf : buf = pre ++ CR :: LF :: (part.encode ++ delimiter boundary) ++ post) :
    ∃ (pieces : List Bytes) (q : MultipartParser),
      Reads boundary buf pre (CR :: LF :: (part.encode ++ delimiter boundary)) p
        (part.calls pieces) q ∧
      pieces.flatten = part.data ∧ AtBoundary boundary q ∧ q.state = .partDataAlmostEnd := by
  let headers := part.headers.flatMap Part.encodeHeader
  have hbytes : CR :: LF :: (part.encode ++ delimiter boundary) =
      [CR, LF] ++ (headers ++ ([CR, LF] ++ (part.data ++ delimiter boundary))) := by
    simp [Part.encode, headers]
  rw [hbytes] at hbuf ⊢
  have hsecond : buf = pre ++ [CR, LF] ++ headers ++
      ([CR, LF] ++ (part.data ++ delimiter boundary) ++ post) := by
    rw [hbuf]
    simp
  have hthird : buf = pre ++ [CR, LF] ++ headers ++ [CR, LF] ++
      (part.data ++ delimiter boundary) ++ post := by
    rw [hbuf]
    simp
  obtain ⟨u, hopen, hustate, hulength⟩ := reads_open boundary h
  obtain ⟨v, hheaders, hvstate, hvlook⟩ :=
    reads_headers boundary hpart.names hpart.values hustate hsecond
  obtain ⟨w, hblank, hwstate, hwlook⟩ := reads_blank_line boundary hvstate
  obtain ⟨pieces, q, hdata, hpieces, hstate, hlength⟩ :=
    reads_data hboundary hCR hpart.data hwstate (by rw [hwlook, hvlook, hulength]) hthird
  refine ⟨pieces, q, ?_, hpieces, ⟨.inr hstate, hlength⟩, hstate⟩
  have hreads := hopen.append (hheaders.append (hblank.append hdata))
  simpa [Part.calls] using hreads

theorem reads_encodeFrom {epilogue : Bytes} {parts : List Part} (hboundary : boundary ≠ [])
    (hCR : CR ∉ boundary) (hparts : ∀ part ∈ parts, part.Writable boundary)
    (h : AtBoundary boundary p) (hlast : parts = [] → p.state = .partDataAlmostEnd)
    (hbuf : buf = pre ++ Part.encodeFrom boundary epilogue parts) :
    ∃ (calls : List MultipartCall) (q : MultipartParser),
      Reads boundary buf pre (Part.encodeFrom boundary epilogue parts) p calls q ∧
      Tells parts calls := by
  induction parts generalizing pre p with
  | nil =>
      obtain ⟨q, hclose⟩ := reads_close boundary (hlast rfl)
      exact ⟨_, q, hclose, .nil⟩
  | cons part parts ih =>
      have hsplit : buf = pre ++ CR :: LF :: (part.encode ++ delimiter boundary) ++
          Part.encodeFrom boundary epilogue parts := by
        rw [hbuf, Part.encodeFrom]
        simp
      obtain ⟨pieces, u, hpart, hpieces, hat, hstate⟩ :=
        reads_part hboundary hCR (hparts part List.mem_cons_self) h hsplit
      obtain ⟨calls, q, hrest, htells⟩ := ih
        (fun x hx ↦ hparts x (List.mem_cons_of_mem part hx)) hat (fun _ ↦ hstate) hsplit
      exact ⟨_, q, hpart.append hrest, .cons hpieces htells⟩

end MultipartParser

namespace MultipartSettings

variable {σ : Type} (settings : MultipartSettings σ)

@[simp] theorem deliver_nil (s : σ) : settings.deliver [] s = (some 0, s) := rfl

theorem deliver_of_append {calls calls' : List MultipartCall} {s t : σ}
    (h : settings.deliver (calls ++ calls') s = (some 0, t)) :
    ∃ u, settings.deliver calls s = (some 0, u) ∧ settings.deliver calls' u = (some 0, t) := by
  induction calls generalizing s with
  | nil => exact ⟨s, rfl, h⟩
  | cons call calls ih =>
      simp only [List.cons_append, deliver] at h ⊢
      split at h
      · rename_i hzero
        rw [if_pos hzero]
        exact ih h
      · rename_i hne
        exact absurd (congrArg Prod.fst h) hne

theorem executeFrom_of_readAll {boundary buf : Bytes} {i : ℕ} {cs : Bytes}
    {p q : MultipartParser} {calls : List MultipartCall} {s t : σ}
    (hread : MultipartParser.readAll boundary buf i cs p = some (calls, q))
    (hdeliver : settings.deliver calls s = (some 0, t)) :
    settings.executeFrom boundary buf i cs p s = (some (i + cs.length), t) := by
  induction cs generalizing i p calls s with
  | nil =>
      obtain ⟨rfl, rfl⟩ : [] = calls ∧ p = q := by simpa [MultipartParser.readAll] using hread
      obtain rfl : s = t := by simpa using hdeliver
      rfl
  | cons c cs ih =>
      simp only [MultipartParser.readAll] at hread
      split at hread
      · cases hread
      · rename_i first u hturn
        obtain ⟨⟨rest, q'⟩, hrest, heq⟩ := Option.map_eq_some_iff.mp hread
        obtain ⟨rfl, rfl⟩ : first ++ rest = calls ∧ q' = q := by simpa using heq
        obtain ⟨v, hfirst, hcalls⟩ := settings.deliver_of_append hdeliver
        simp only [executeFrom, hturn, hfirst, if_true]
        rw [ih hrest hcalls, List.length_cons, Nat.add_assoc, Nat.add_comm 1]

end MultipartSettings

theorem MultipartParser.reads_encodeAll {boundary : Bytes} (epilogue : Bytes) {parts : List Part}
    (hboundary : boundary ≠ []) (hCR : CR ∉ boundary) (hparts : parts ≠ [])
    (hwritable : ∀ part ∈ parts, part.Writable boundary) :
    ∃ calls q, Tells parts calls ∧
      Reads boundary (Part.encodeAll boundary epilogue parts) []
        (Part.encodeAll boundary epilogue parts) (.init boundary) calls q := by
  obtain ⟨p, hfirst, hat, -⟩ := reads_first_boundary hboundary
  obtain ⟨calls, q, hrest, htells⟩ := reads_encodeFrom hboundary hCR hwritable hat
    (fun hnil ↦ absurd hnil hparts) (rfl : Part.encodeAll boundary epilogue parts = _)
  exact ⟨calls, q, htells, hfirst.append hrest⟩

theorem MultipartSettings.execute_of_reads {σ : Type} (settings : MultipartSettings σ)
    {boundary buf : Bytes} {calls : List MultipartCall} {q : MultipartParser} {s t : σ}
    (hnul : 0 ∉ boundary)
    (hreads : MultipartParser.Reads boundary buf [] buf (.init boundary) calls q)
    (hdeliver : settings.deliver calls s = (some 0, t)) :
    settings.execute boundary buf s = (some buf.length, t) := by
  have hrun := settings.executeFrom_of_readAll hreads hdeliver
  rw [List.length_nil, Nat.zero_add] at hrun
  rwa [execute, cString_of_notMem hnul]

/-- Whatever the callbacks do, as long as each answers 0: the parser takes in
all of the body that carries `parts`, and it has called back with the headers and
the data of these parts, in their order and with nothing else. -/
theorem multipart_read_back {boundary : Bytes} (epilogue : Bytes) {parts : List Part}
    (hboundary : boundary ≠ []) (hCR : CR ∉ boundary) (hnul : 0 ∉ boundary) (hparts : parts ≠ [])
    (hwritable : ∀ part ∈ parts, part.Writable boundary) :
    ∃ calls, Tells parts calls ∧
      ∀ {σ : Type} (settings : MultipartSettings σ) (s t : σ),
        settings.deliver calls s = (some 0, t) →
        settings.execute boundary (Part.encodeAll boundary epilogue parts) s =
          (some (Part.encodeAll boundary epilogue parts).length, t) := by
  obtain ⟨calls, q, htells, hreads⟩ :=
    MultipartParser.reads_encodeAll epilogue hboundary hCR hparts hwritable
  exact ⟨calls, htells, fun settings s t ↦ settings.execute_of_reads hnul hreads⟩

/-- The data of the first part starts like the delimiter. -/
theorem multipart_read_back_two :
    let boundary := ascii "--b"
    let parts : List Part :=
      [⟨[(ascii "A", ascii "x")], [CR, LF, hyphen, CR, CR, LF]⟩, ⟨[], []⟩]
    ∃ calls, Tells parts calls ∧
      ∀ {σ : Type} (settings : MultipartSettings σ) (s t : σ),
        settings.deliver calls s = (some 0, t) →
        settings.execute boundary (Part.encodeAll boundary [] parts) s =
          (some (Part.encodeAll boundary [] parts).length, t) :=
  multipart_read_back [] (by decide) (by decide) (by decide) (by decide) (by decide)

example :
    let settings : MultipartSettings (List MultipartCall) := ⟨fun s call ↦ (some 0, s ++ [call])⟩
    let part : Part := ⟨[(ascii "A", ascii "x")], [CR, LF, hyphen, CR, CR, LF]⟩
    settings.execute (ascii "--b") (Part.encodeAll (ascii "--b") [] [part]) [] =
      (some 26,
        [.partDataBegin, .headerField (ascii "A"), .headerValue (ascii "x"), .headersComplete,
          .partData [], .partData [CR, LF, hyphen], .partData [], .partData [CR], .partData [],
          .partData [CR, LF], .partData [], .partDataEnd, .bodyEnd]) := by
  decide

end SimpleFlow
