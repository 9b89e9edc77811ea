import SimpleFlow.HttpResponse

/-!
# Sending a response in pieces

`on_writeable` reads one buffer of the response and gives it to `send`; of what
`send` does not take, the stream is rolled back. As long as the response has less
than 2³¹ bytes this goes on where it has stopped. The answer depends on what was
left before the call: with a whole buffer or more, `on_writeable` is called again.
-/

namespace SimpleFlow

namespace ResBytes

variable {str : Bytes} {pos n : ℕ}

theorem read_of_le (h : n ≤ (str.drop pos).length) :
    (⟨str, pos, false, false⟩ : ResBytes).read n =
      ((str.drop pos).take n, ⟨str, pos + n, false, false⟩) := by
  have hlength : ((str.drop pos).take n).length = n := by
    rw [List.length_take]
    omega
  simp [read, good, hlength]

theorem read_of_lt (h : (str.drop pos).length < n) :
    (⟨str, pos, false, false⟩ : ResBytes).read n =
      (str.drop pos, ⟨str, pos + (str.drop pos).length, true, true⟩) := by
  have htake : (str.drop pos).take n = str.drop pos := List.take_of_length_le (Nat.le_of_lt h)
  simp only [read, good, htake]
  simpa using h

theorem seekg_str (s : ResBytes) (pos : Int) : (s.seekg pos).str = s.str := by
  simp only [seekg]
  split
  · rfl
  · split <;> rfl

/-- In a stream of less than 2³¹ bytes `seekg` finds back. -/
theorem seekg_back (num : ℕ) (hpos : pos ≤ str.length) (hstr : str.length < 2147483648)
    (hnum : num ≤ pos) :
    (⟨str, pos, false, false⟩ : ResBytes).seekg
        ((⟨str, pos, false, false⟩ : ResBytes).tellg - num) =
      ⟨str, pos - num, false, false⟩ := by
  have hgood : (⟨str, pos, false, false⟩ : ResBytes).good = true := rfl
  have htell : (⟨str, pos, false, false⟩ : ResBytes).tellg = pos := by
    rw [tellg, if_pos hgood, Int.bmod_eq_of_le] <;> simp only <;> omega
  have hback : ((pos : Int) - num).toNat = pos - num := by omega
  rw [htell]
  simp only [seekg]
  rw [if_neg (by simp), if_pos (by omega), hback]

end ResBytes

namespace HttpContext

variable (hc : HttpContext)

/-- The context when `on_writeable` has generated the response. -/
def written : HttpContext :=
  { hc with
    res :=
      if hc.res.isWrited then hc.res
      else { hc.res.genResponse hc.req.line.httpVersion hc.isKeepalive with isWrited := true } }

/-- The response, generated or not. -/
def bytes : Bytes :=
  if hc.res.isWrited then hc.res.resBytes.str
  else Response.genBytes hc.res.reply hc.req.line.httpVersion hc.isKeepalive

/-- How much of it has been read. -/
def pos : ℕ := if hc.res.isWrited then hc.res.resBytes.pos else 0

/-- What `on_writeable` has yet to send. -/
def rest : Bytes := hc.bytes.drop hc.pos

/-- The context with `n` more bytes sent. -/
def sent (n : ℕ) : HttpContext :=
  { hc.written with
    res := { hc.written.res with resBytes := ⟨hc.bytes, hc.pos + n, false, false⟩ } }

/-- The response can be read on. -/
structure Readable (hc : HttpContext) : Prop where
  stream : hc.written.res.resBytes = ⟨hc.bytes, hc.pos, false, false⟩
  pos_le : hc.pos ≤ hc.bytes.length

variable {hc}

theorem written_isWrited : hc.written.res.isWrited = true := by
  simp only [written]
  split <;> simp_all

theorem sent_bytes (n : ℕ) : (hc.sent n).bytes = hc.bytes := by
  have h : (hc.sent n).res.isWrited = true := hc.written_isWrited
  rw [bytes, if_pos h]
  rfl

theorem sent_pos (n : ℕ) : (hc.sent n).pos = hc.pos + n := by
  have h : (hc.sent n).res.isWrited = true := hc.written_isWrited
  rw [pos, if_pos h]
  rfl

theorem sent_rest (n : ℕ) : (hc.sent n).rest = hc.rest.drop n := by
  rw [rest, sent_bytes, sent_pos, rest, List.drop_drop]

theorem Readable.sent {n : ℕ} (h : n ≤ hc.rest.length) (hpos : hc.pos ≤ hc.bytes.length) :
    (hc.sent n).Readable := by
  have hwritten : (hc.sent n).written = hc.sent n := by
    have h : (hc.sent n).res.isWrited = true := hc.written_isWrited
    simp only [written, if_pos h]
  rw [rest, List.length_drop] at h
  refine ⟨?_, ?_⟩
  · rw [hwritten, sent_bytes, sent_pos]
    rfl
  · rw [sent_bytes, sent_pos]
    omega

theorem Readable.of_new (h : hc.res.isWrited = false) (hstream : hc.res.resBytes = .new) :
    hc.Readable := by
  refine ⟨?_, ?_⟩
  · simp [written, bytes, pos, h, hstream, Response.genResponse, ResBytes.write, ResBytes.new,
      ResBytes.good]
  · simp [pos, h]

end HttpContext

namespace HttpEpollWatcher

variable {hc : HttpContext} {k : ℕ}

theorem onWriteable_eq (hc : HttpContext) (send : Send) :
    onWriteable hc send =
      let (ret, buffer, res) := hc.written.res.readsome ssWriteBufferSize
      if buffer.length = 0 then some (.close, { hc with res := res }, [])
      else
        match send with
        | .failed => some (.close, { hc with res := res }, [])
        | .took nwrite =>
            if buffer.length < nwrite then none
            else
              let res :=
                if nwrite < buffer.length then (res.rollback (buffer.length - nwrite)).2 else res
              if ret = needMoreStatus then
                some (.again, { hc with res := res }, buffer.take nwrite)
              else if hc.isKeepalive = true ∧ 0 < nwrite then
                some (.alive, .new, buffer.take nwrite)
              else some (.close, { hc with res := res }, buffer.take nwrite) :=
  rfl

theorem rollback_str (res : Response) (num : Int) :
    (res.rollback num).2.isWrited = res.isWrited ∧
      (res.rollback num).2.resBytes.str = res.resBytes.str := by
  refine ⟨rfl, ?_⟩
  simp only [Response.rollback, ResBytes.seekg_str]
  split <;> rfl

theorem bytes_of_str {res : Response} (hwrited : res.isWrited = true)
    (hstr : res.resBytes.str = hc.bytes) :
    ({ hc with res := res } : HttpContext).bytes = hc.bytes := by
  rw [HttpContext.bytes, if_pos hwrited, hstr]

theorem rollback_read {res : Response} {str : Bytes} {pos n : ℕ} {short : Bool}
    (hres : res.resBytes = ⟨str, pos + n, short, short⟩) (hpos : pos + n ≤ str.length)
    (hstr : str.length < 2147483648) (hk : k < n) :
    (res.rollback (n - k)).2 = { res with resBytes := ⟨str, pos + k, false, false⟩ } := by
  have hback := ResBytes.seekg_back (n - k) hpos hstr (by omega)
  have hclear : (if res.resBytes.eofbit then res.resBytes.clear else res.resBytes) =
      ⟨str, pos + n, false, false⟩ := by
    rw [hres]
    cases short <;> rfl
  have hsub : pos + n - (n - k) = pos + k := by omega
  have hcast : ((n : Int) - k) = ((n - k : ℕ) : Int) := by omega
  rw [hsub] at hback
  simp only [Response.rollback, hclear, hcast, hback]

/-- `on_writeable` when a whole buffer can be read. -/
theorem onWriteable_part (h : hc.Readable) (hstr : hc.bytes.length < 2147483648)
    (hmore : ssWriteBufferSize ≤ hc.rest.length) (hk : k ≤ ssWriteBufferSize) :
    onWriteable hc (.took k) = some (.again, hc.sent k, hc.rest.take k) := by
  let res : Response :=
    { hc.written.res with resBytes := ⟨hc.bytes, hc.pos + ssWriteBufferSize, false, false⟩ }
  have hread : hc.written.res.readsome ssWriteBufferSize =
      (needMoreStatus, hc.rest.take ssWriteBufferSize, res) := by
    rw [Response.readsome, h.stream, ResBytes.read_of_le hmore]
    rfl
  have hlength : (hc.rest.take ssWriteBufferSize).length = ssWriteBufferSize := by
    rw [List.length_take]
    omega
  have hpos : hc.pos + ssWriteBufferSize ≤ hc.bytes.length := by
    rw [HttpContext.rest, List.length_drop] at hmore
    have := h.pos_le
    omega
  have hres : (if k < ssWriteBufferSize then (res.rollback (ssWriteBufferSize - k)).2 else res) =
      (hc.sent k).res := by
    split
    · rename_i hlt
      have hread : res.resBytes =
          ⟨hc.bytes, hc.pos + ssWriteBufferSize, false, false⟩ := rfl
      exact rollback_read hread hpos hstr hlt
    · rename_i hge
      obtain rfl : k = ssWriteBufferSize := by omega
      rfl
  rw [onWriteable_eq, hread]
  simp only [hlength, List.take_take, Nat.min_eq_left hk, hres]
  rw [if_neg (by decide), if_neg (by omega), if_pos trivial]
  rfl

/-- `on_writeable` when less than a buffer is left. -/
theorem onWriteable_last (h : hc.Readable) (hne : hc.rest ≠ [])
    (hlast : hc.rest.length < ssWriteBufferSize) (hk : k ≤ hc.rest.length) :
    ∃ u : HttpContext, u.bytes = hc.bytes ∧ onWriteable hc (.took k) =
      if hc.isKeepalive = true ∧ 0 < k then some (.alive, .new, hc.rest.take k)
      else some (.close, u, hc.rest.take k) := by
  let res : Response :=
    { hc.written.res with resBytes := ⟨hc.bytes, hc.pos + hc.rest.length, true, true⟩ }
  have hread : hc.written.res.readsome ssWriteBufferSize = (0, hc.rest, res) := by
    rw [Response.readsome, h.stream, ResBytes.read_of_lt hlast]
    rfl
  let last : Response :=
    if k < hc.rest.length then (res.rollback (hc.rest.length - k)).2 else res
  refine ⟨{ hc with res := last }, ?_, ?_⟩
  · have hwrited : res.isWrited = true := hc.written_isWrited
    have hback := rollback_str res (hc.rest.length - k)
    simp only [last]
    split
    · exact bytes_of_str (hback.1.trans hwrited) hback.2
    · exact bytes_of_str hwrited rfl
  · rw [onWriteable_eq, hread]
    simp only [List.length_eq_zero_iff, hne, if_false]
    rw [if_neg (by omega), if_neg (by decide)]

theorem onWriteable_nil (send : Send) (h : hc.Readable) (hnil : hc.rest = []) :
    ∃ u : HttpContext, u.bytes = hc.bytes ∧ onWriteable hc send = some (.close, u, []) := by
  let res : Response :=
    { hc.written.res with resBytes := ⟨hc.bytes, hc.pos + hc.rest.length, true, true⟩ }
  have hread : hc.written.res.readsome ssWriteBufferSize = (0, hc.rest, res) := by
    rw [Response.readsome, h.stream, ResBytes.read_of_lt (by rw [← HttpContext.rest, hnil]; decide)]
    rfl
  refine ⟨{ hc with res := res }, bytes_of_str hc.written_isWrited rfl, ?_⟩
  rw [onWriteable_eq, hread]
  simp [hnil]

theorem onWriteable_failed (h : hc.Readable) :
    ∃ u : HttpContext, u.bytes = hc.bytes ∧ onWriteable hc .failed = some (.close, u, []) := by
  have hstr : (hc.written.res.readsome ssWriteBufferSize).2.2.resBytes.str = hc.bytes := by
    rw [Response.readsome, h.stream]
    simp only [ResBytes.read]
    split <;> rfl
  have hwrited : (hc.written.res.readsome ssWriteBufferSize).2.2.isWrited = true :=
    hc.written_isWrited
  refine ⟨_, bytes_of_str hwrited hstr, ?_⟩
  rw [onWriteable_eq]
  simp only [ite_self]

theorem readsome_bytes (h : hc.Readable) :
    (hc.written.res.readsome ssWriteBufferSize).2.1 = hc.rest.take ssWriteBufferSize := by
  have hgood : (⟨hc.bytes, hc.pos, false, false⟩ : ResBytes).good = true := rfl
  rw [Response.readsome, h.stream, ResBytes.read, if_pos hgood]
  rfl

/-- `send` takes no more than it is given. -/
theorem onWriteable_none (h : hc.Readable) (hne : 0 < min ssWriteBufferSize hc.rest.length)
    (hk : min ssWriteBufferSize hc.rest.length < k) : onWriteable hc (.took k) = none := by
  have hlength : (hc.written.res.readsome ssWriteBufferSize).2.1.length =
      min ssWriteBufferSize hc.rest.length := by
    rw [readsome_bytes h, List.length_take]
  rw [onWriteable_eq]
  simp only [hlength]
  rw [if_neg (by omega), if_pos hk]

/-- What `on_writeable` does, by what is left of the response. -/
inductive Wrote (hc : HttpContext) : Send → WriteRet → HttpContext → Bytes → Prop
  | nothing {send : Send} {u : HttpContext} (hu : u.bytes = hc.bytes)
      (h : send = .failed ∨ hc.rest = []) : Wrote hc send .close u []
  | part {k : ℕ} (hmore : ssWriteBufferSize ≤ hc.rest.length) (hk : k ≤ ssWriteBufferSize) :
      Wrote hc (.took k) .again (hc.sent k) (hc.rest.take k)
  | kept {k : ℕ} (hlast : hc.rest.length < ssWriteBufferSize) (hk : k ≤ hc.rest.length)
      (hkeep : hc.isKeepalive = true) (hpos : 0 < k) :
      Wrote hc (.took k) .alive .new (hc.rest.take k)
  | dropped {k : ℕ} {u : HttpContext} (hu : u.bytes = hc.bytes)
      (hlast : hc.rest.length < ssWriteBufferSize) (hk : k ≤ hc.rest.length)
      (hdrop : ¬(hc.isKeepalive = true ∧ 0 < k)) :
      Wrote hc (.took k) .close u (hc.rest.take k)

theorem wrote_of_onWriteable {send : Send} {ret : WriteRet} {u : HttpContext} {bytes : Bytes}
    (h : hc.Readable) (hstr : hc.bytes.length < 2147483648)
    (hwrite : onWriteable hc send = some (ret, u, bytes)) : Wrote hc send ret u bytes := by
  cases send with
  | failed =>
      obtain ⟨v, hv, heq⟩ := onWriteable_failed h
      obtain ⟨rfl, rfl, rfl⟩ : WriteRet.close = ret ∧ v = u ∧ [] = bytes := by
        simpa [heq] using hwrite
      exact .nothing hv (.inl rfl)
  | took k =>
      by_cases hnil : hc.rest = []
      · obtain ⟨v, hv, heq⟩ := onWriteable_nil (.took k) h hnil
        obtain ⟨rfl, rfl, rfl⟩ : WriteRet.close = ret ∧ v = u ∧ [] = bytes := by
          simpa [heq] using hwrite
        exact .nothing hv (.inr hnil)
      have hmin : k ≤ min ssWriteBufferSize hc.rest.length := by
        by_contra hgt
        have hpos := List.length_pos_of_ne_nil hnil
        have hsize : 0 < ssWriteBufferSize := by decide
        have hnone := onWriteable_none h (k := k) (by omega) (by omega)
        rw [hnone] at hwrite
        cases hwrite
      by_cases hmore : ssWriteBufferSize ≤ hc.rest.length
      · have hk : k ≤ ssWriteBufferSize := by omega
        obtain ⟨rfl, rfl, rfl⟩ :
            WriteRet.again = ret ∧ hc.sent k = u ∧ hc.rest.take k = bytes := by
          simpa [onWriteable_part h hstr hmore hk] using hwrite
        exact .part hmore hk
      · have hlast : hc.rest.length < ssWriteBufferSize := by omega
        have hk : k ≤ hc.rest.length := by omega
        obtain ⟨v, hv, heq⟩ := onWriteable_last h hnil hlast hk
        rw [heq] at hwrite
        split at hwrite
        · rename_i hkeep
          obtain ⟨rfl, rfl, rfl⟩ :
              WriteRet.alive = ret ∧ HttpContext.new = u ∧ hc.rest.take k = bytes := by
            simpa using hwrite
          exact .kept hlast hk hkeep.1 hkeep.2
        · rename_i hdrop
          obtain ⟨rfl, rfl, rfl⟩ : WriteRet.close = ret ∧ v = u ∧ hc.rest.take k = bytes := by
            simpa using hwrite
          exact .dropped hv hlast hk hdrop

end HttpEpollWatcher

end SimpleFlow
