import SimpleFlow.RequestFields

/-!
# A posted form

What `CurlUtils::post` writes into `post_url` of a map is read back by a handler
as the pairs of the map exactly when no `&` and no `=` is in a key or a value. A
client that escapes its values gets them through whatever they are, to a handler
that asks with `get_unescape_param`.
-/

namespace SimpleFlow

open KeyValues Request

/-- `enc` is a way to escape `raw`: any byte by its two digits, a blank also as
`+`, and any byte but `%` and `+` also as it is. -/
inductive Escaped : (raw enc : Bytes) → Prop
  | nil : Escaped [] []
  | plain {c : UInt8} {raw enc : Bytes} (hpercent : c ≠ percent) (hplus : c ≠ plus)
      (h : Escaped raw enc) : Escaped (c :: raw) (c :: enc)
  | blank {raw enc : Bytes} (h : Escaped raw enc) : Escaped (space :: raw) (plus :: enc)
  | digits {high low : UInt8} {raw enc : Bytes} (hhigh : ishex high = true)
      (hlow : ishex low = true) (h : Escaped raw enc) :
      Escaped (hexByte high low :: raw) (percent :: high :: low :: enc)

theorem unescape_cons {c : UInt8} (hc : c ≠ percent) (rest : Bytes) :
    unescape (c :: rest) = (if c = plus then space else c) :: unescape rest := by
  rcases rest with _ | ⟨d, _ | ⟨e, rest⟩⟩
  · rfl
  · rfl
  · simp [unescape, hc]

/-- `unescape` undoes every escaping. -/
theorem unescape_of_escaped {raw enc : Bytes} (h : Escaped raw enc) : unescape enc = raw := by
  induction h with
  | nil => rfl
  | plain hpercent hplus _ ih => rw [unescape_cons hpercent, if_neg hplus, ih]
  | blank _ ih => rw [unescape_cons (by decide), if_pos rfl, ih]
  | digits hhigh hlow _ ih => simp [unescape, hhigh, hlow, ih]

namespace HttpMessage

/-- The body of the message is the text that `CurlUtils::post` writes into
`post_url` of `params`. That libcurl sends this text is not said: it is given the
`c_str()` of a temporary, which does not exist any more when it sends. -/
structure Carries (m : HttpMessage) (params : List (Bytes × Bytes)) : Prop where
  method : m.parser.method = ascii "POST"
  contentType : m.header (ascii "Content-Type") = ascii "application/x-www-form-urlencoded"
  contentLength : m.header (ascii "Content-Length") ≠ []
  body : m.body = CurlUtils.postUrl params

variable {m : HttpMessage} {params : List (Bytes × Bytes)}

theorem header_of_nil (hnil : m.headers = []) (name : Bytes) : m.header name = [] := by
  simp [header, hnil]

namespace Carries

theorem headers_ne (h : m.Carries params) : m.headers ≠ [] :=
  fun hnil ↦ h.contentLength (header_of_nil hnil _)

theorem not_unsized (h : m.Carries params) : ¬m.Unsized := fun hunsized ↦
  h.contentLength hunsized.2.2

theorem not_multipart (h : m.Carries params) : ¬m.Multipart := by
  rw [Multipart, h.contentType]
  decide

theorem posted_iff (h : m.Carries params) :
    m.posted = params ↔ ∀ p ∈ params,
      Plain ampersand equalsSign p.1 ∧ Plain ampersand equalsSign p.2 := by
  cases params with
  | nil => simp [posted, h.body, CurlUtils.postUrl, postFields]
  | cons p params =>
      have hbody : m.body ≠ [] := by simp [h.body, CurlUtils.postUrl, postFields]
      rw [posted, if_pos ⟨h.contentType, hbody⟩, h.body, CurlUtils.postUrl_eq]
      exact pairs_render_iff (by decide) (List.cons_ne_nil p params)

end Carries

end HttpMessage

theorem RequestParam.getParam_of_nodup {r : RequestParam} {p : Bytes × Bytes}
    (hkeys : (r.params.map Prod.fst).Nodup) (hp : p ∈ r.params) : r.getParam p.1 = p.2 := by
  obtain ⟨params⟩ := r
  induction params with
  | nil => cases hp
  | cons q params ih =>
      obtain ⟨hnot, hrest⟩ := List.nodup_cons.mp hkeys
      rcases List.mem_cons.mp hp with rfl | hmem
      · simp [getParam]
      · have hne : q.1 ≠ p.1 := fun heq ↦ hnot (heq ▸ List.mem_map_of_mem hmem)
        have hfind := ih hrest hmem
        simp only [getParam, List.find?_cons, hne, decide_false] at hfind ⊢
        exact hfind

/-- In whatever reads it comes: of a body that carries a map a handler has the pairs
of the map exactly when neither separator is in a key or a value, and then it gets the
value of each key, and the unescaped value of each key whose value is escaped. -/
theorem posted_read_back {m : HttpMessage} {params : List (Bytes × Bytes)}
    (hcarries : m.Carries params) (hkeys : (params.map Prod.fst).Nodup) (r : ReadsOf m) :
    ∃ u, Request.new.parseReads r.reads = (some 0, u) ∧
      (u.body.reqParams.params = params ↔ ∀ p ∈ params,
        Plain ampersand equalsSign p.1 ∧ Plain ampersand equalsSign p.2) ∧
      (u.body.reqParams.params = params → ∀ p ∈ params, u.getParam p.1 = p.2 ∧
        ∀ raw, Escaped raw p.2 → u.getUnescapeParam p.1 = raw) := by
  have hok := m.outcome_ok hcarries.not_multipart hcarries.not_unsized
  obtain ⟨hreads, -⟩ := r.parseReads_of_ok hok
  have hdescribes := m.describes_of_ok hok
  have hparams := hdescribes.posted hcarries.not_multipart
  have hmethod : m.outcome.2.line.method = ascii "POST" := by
    rw [hdescribes.method, if_neg hcarries.headers_ne, hcarries.method]
  have hget : ∀ name, m.outcome.2.getParam name = m.outcome.2.body.reqParams.getParam name := by
    intro name
    rw [getParam, hmethod, if_neg (by decide), if_pos rfl]
  refine ⟨m.outcome.2.resize (totalSize r.reads), hreads, ?_, fun heq p hp ↦ ?_⟩
  · show m.outcome.2.body.reqParams.params = params ↔ _
    rw [hparams]
    exact hcarries.posted_iff
  · have hvalue : m.outcome.2.getParam p.1 = p.2 := by
      rw [hget]
      change m.outcome.2.body.reqParams.params = params at heq
      exact RequestParam.getParam_of_nodup (heq ▸ hkeys) (heq ▸ hp)
    refine ⟨hvalue, fun raw hraw ↦ ?_⟩
    have hunescape := unescape_of_escaped hraw
    show m.outcome.2.getUnescapeParam p.1 = raw
    rw [getUnescapeParam, hvalue]
    split
    · rename_i hempty
      rw [List.isEmpty_iff.mp hempty] at hunescape ⊢
      exact hunescape
    · exact hunescape

theorem posted_read_back_two :
    let params := [(ascii "age", ascii "3"), (ascii "name", ascii "a%26b+c")]
    let m : HttpMessage :=
      ⟨⟨ascii "POST", 1, 1⟩, ascii "/a",
        [(ascii "content-type", ascii "application/x-www-form-urlencoded"),
          (ascii "Content-Length", ascii "18")],
        CurlUtils.postUrl params⟩
    let r := m.atOnce 107 (by decide)
    ∃ u, Request.new.parseReads r.reads = (some 0, u) ∧
      u.getUnescapeParam (ascii "name") = ascii "a&b c" := by
  intro params m r
  have hcarries : m.Carries params := ⟨rfl, by decide, by decide, rfl⟩
  obtain ⟨u, hreads, hiff, hvalues⟩ := posted_read_back hcarries (by decide) r
  have hescaped : Escaped (ascii "a&b c") (ascii "a%26b+c") :=
    .plain (by decide) (by decide)
      (@Escaped.digits 50 54 _ _ rfl rfl
        (.plain (by decide) (by decide) (.blank (.plain (by decide) (by decide) .nil))))
  exact ⟨u, hreads, (hvalues (hiff.mpr (by decide)) (ascii "name", ascii "a%26b+c")
    (by decide)).2 _ hescaped⟩

end SimpleFlow
