import SimpleFlow.FlowHandler

/-!
# The line handler does not see where a stream is cut

`splitStr` is the library split without its empty pieces, and one call of
`do_handle` therefore emits the lines of `part_line` followed by the chunk and
keeps their remainder. By `Delimited.lines_append` the calls compose, and a
whole stream gives the same lines however it is cut.
-/

namespace SimpleFlow

open Delimited

theorem splitLoop_of_not_good {ss : StringStream} (hg : ss.good = false) (splitChar : UInt8)
    (n : ℕ) (h : ss.passes ≤ n) : splitLoop splitChar n ss h = [] := by
  cases n with
  | zero => rfl
  | succ n => simp [splitLoop, hg]

theorem splitLoop_of_good {ss : StringStream} (hg : ss.good = true) (splitChar : UInt8)
    (n : ℕ) (h : ss.passes ≤ n) :
    splitLoop splitChar n ss h =
      (ss.rest.splitOn splitChar).filter fun piece ↦ !piece.isEmpty := by
  induction n generalizing ss with
  | zero =>
      rw [StringStream.passes_of_good hg] at h
      omega
  | succ n ih =>
      by_cases hc : splitChar ∈ ss.rest
      · obtain ⟨temp, rest, heq, hd⟩ := List.eq_append_cons_of_mem hc
        have hget := getline_of_append_cons hg heq hd
        have hgood : (getline ss splitChar).2.good = true := by rw [hget]; rfl
        have hrest := ih hgood
          (Nat.le_of_lt_succ (Nat.lt_of_lt_of_le (getline_passes_lt hg splitChar) h))
        have hres : (getline ss splitChar).2.rest = rest := by rw [hget]
        have htemp : (getline ss splitChar).1 = temp := by rw [hget]
        simp only [splitLoop, hg, dif_pos, hrest, hres, htemp, heq,
          List.splitOn_append_cons_self_of_not_mem hd]
        cases temp <;> simp
      · have hget := getline_of_notMem hg hc
        have hend : (getline ss splitChar).2.good = false := by rw [hget]; rfl
        have hrest := splitLoop_of_not_good hend splitChar n
          (Nat.le_of_lt_succ (Nat.lt_of_lt_of_le (getline_passes_lt hg splitChar) h))
        have htemp : (getline ss splitChar).1 = ss.rest := by rw [hget]
        simp only [splitLoop, hg, dif_pos, hrest, htemp, List.splitOn_eq_singleton hc]
        cases ss.rest <;> simp

/-- `split_str` returns the pieces between separators, the empty ones left out. -/
theorem splitStr_eq (str : Bytes) (splitChar : UInt8) :
    splitStr str splitChar =
      lines splitChar str ++
        if remainder splitChar str = [] then [] else [remainder splitChar str] := by
  rw [← splitOn_filter_eq]
  exact splitLoop_of_good rfl splitChar _ _

namespace LineFlowHandler

variable {τ : Type} (L : LineHandler τ)

/-- What one call leaves behind when `data` is `part_line` followed by the chunk. -/
def after (h : LineFlowHandler τ) (data : Bytes) : LineFlowHandler τ :=
  { callHandleLines L h (lines newline data) with partLine := remainder newline data }

@[simp] theorem after_partLine (h : LineFlowHandler τ) (data : Bytes) :
    (h.after L data).partLine = remainder newline data := rfl

@[simp] theorem after_emitted (h : LineFlowHandler τ) (data : Bytes) :
    (h.after L data).emitted = h.emitted ++ lines newline data := by
  simp [after, callHandleLines, emitted]

theorem makeString_chunk (c : Chunk) : makeString c.buffer c.size = .ok c.bytes := by
  have hneg : ¬(c.size : Int) < 0 := by omega
  simp [makeString, hneg, c.size_le, Chunk.bytes]

theorem readAt_chunk (c : Chunk) :
    readAt c.buffer ((c.size : Int) - 1) = .ok (c.bytes.getLast c.bytes_ne_nil) := by
  have hpos := c.size_pos
  have hle := c.size_le
  have hneg : ¬(c.size : Int) - 1 < 0 := by omega
  have hidx : ((c.size : Int) - 1).toNat = c.size - 1 := by omega
  have hlt : c.size - 1 < c.buffer.length := by omega
  have hlast : c.bytes.getLast c.bytes_ne_nil = c.buffer[c.size - 1] := by
    rw [List.getLast_eq_getElem]
    simp only [c.bytes_length]
    simp [Chunk.bytes]
  simp [readAt, hneg, hidx, hlt, hlast]

theorem flowStr_eq (partLine bytes : Bytes) :
    (if partLine.isEmpty then [] else partLine) ++ bytes = partLine ++ bytes := by
  cases partLine <;> rfl

theorem cleared_eq (h : LineFlowHandler τ) :
    (if h.partLine.isEmpty then h else { h with partLine := [] }) = { h with partLine := [] } := by
  cases hp : h.partLine with
  | nil => simp [← hp]
  | cons b bs => simp

/-- `do_handle` on a chunk never faults, answers 0, hands over the lines of
`part_line` followed by the chunk and keeps what follows the last newline.
Nothing is asked of `part_line`. -/
theorem doHandle_chunk (h : LineFlowHandler τ) (c : Chunk) :
    doHandle L h c.buffer c.size = .ok (0, h.after L (h.partLine ++ c.bytes)) := by
  have hne := c.bytes_ne_nil
  have hdata : (h.partLine ++ c.bytes).getLast? = some (c.bytes.getLast hne) := by
    rw [List.getLast?_append, List.getLast?_eq_some_getLast hne]
    rfl
  simp only [doHandle, makeString_chunk, readAt_chunk, flowStr_eq, cleared_eq, splitStr_eq,
    pure, Except.pure, bind, Except.bind]
  by_cases hlast : c.bytes.getLast hne = newline
  · have hrem : remainder newline (h.partLine ++ c.bytes) = [] :=
      (remainder_eq_nil_iff _).mpr (Or.inr (hlast ▸ hdata))
    simp [hlast, hrem, after, callHandleLines]
  · have hrem : remainder newline (h.partLine ++ c.bytes) ≠ [] := by
      intro hnil
      rcases (remainder_eq_nil_iff _).mp hnil with hempty | hsome
      · exact hne (List.append_eq_nil_iff.mp hempty).2
      · exact hlast (Option.some.inj (hdata.symm.trans hsome))
    simp [hlast, hrem, withoutLast, lastOf, after, callHandleLines]

/-! ## Whole streams -/

def feed (h : LineFlowHandler τ) : List Chunk → Except Fault (LineFlowHandler τ)
  | [] => .ok h
  | c :: cs => do
      let (_, h') ← doHandle L h c.buffer c.size
      feed h' cs

/-- A stream and the pieces it arrives in. -/
structure Cut (S : Bytes) where
  chunks : List Chunk
  bytes_eq : chunks.flatMap Chunk.bytes = S

theorem feed_chunks (h : LineFlowHandler τ) (hp : newline ∉ h.partLine) (cs : List Chunk) :
    ∃ h', feed L h cs = .ok h' ∧
      h'.emitted = h.emitted ++ lines newline (h.partLine ++ cs.flatMap Chunk.bytes) ∧
      h'.partLine = remainder newline (h.partLine ++ cs.flatMap Chunk.bytes) := by
  induction cs generalizing h with
  | nil => exact ⟨h, rfl, by simp [lines_of_notMem hp], by simp [remainder_of_notMem hp]⟩
  | cons c cs ih =>
      obtain ⟨h', hfeed, hemitted, hpart⟩ :=
        ih (h.after L (h.partLine ++ c.bytes)) (sep_notMem_remainder _)
      refine ⟨h', ?_, ?_, ?_⟩
      · simpa [feed, doHandle_chunk, bind, Except.bind] using hfeed
      · rw [hemitted, after_emitted, after_partLine, List.flatMap_cons,
          ← List.append_assoc h.partLine, lines_append (h.partLine ++ c.bytes),
          List.append_assoc]
      · rw [hpart, after_partLine, List.flatMap_cons, ← List.append_assoc h.partLine,
          ← remainder_append]

/-- However a stream is cut, a fresh handler emits its non-empty terminated
lines in order and keeps what follows the last newline; two cuts of one stream
cannot be told apart. -/
theorem feed_fresh_cut {S : Bytes} (t t' : τ) (cut cut' : Cut S) :
    ∃ h h', feed L (fresh t) cut.chunks = .ok h ∧ feed L (fresh t') cut'.chunks = .ok h' ∧
      h.emitted = ((S.splitOn newline).dropLast).filter (fun line ↦ !line.isEmpty) ∧
      h.partLine = (S.splitOn newline).getLast (List.splitOn_ne_nil newline S) ∧
      h'.emitted = h.emitted ∧ h'.partLine = h.partLine := by
  obtain ⟨h, hfeed, hemitted, hpart⟩ := feed_chunks L (fresh t) (by simp [fresh]) cut.chunks
  obtain ⟨h', hfeed', hemitted', hpart'⟩ := feed_chunks L (fresh t') (by simp [fresh]) cut'.chunks
  rw [cut.bytes_eq] at hemitted hpart
  rw [cut'.bytes_eq] at hemitted' hpart'
  have hstart : ∀ u : τ, (fresh u).partLine = [] ∧ (fresh u).emitted = [] := fun _ ↦ ⟨rfl, rfl⟩
  rw [(hstart t).1] at hemitted hpart
  rw [(hstart t').1] at hemitted' hpart'
  rw [(hstart t).2] at hemitted
  rw [(hstart t').2] at hemitted'
  exact ⟨h, h', hfeed, hfeed', hemitted, hpart, hemitted'.trans hemitted.symm,
    hpart'.trans hpart.symm⟩

end LineFlowHandler

end SimpleFlow
