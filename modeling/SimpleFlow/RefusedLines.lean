import SimpleFlow.Delivery
import SimpleFlow.LineAgent

/-!
# Batches of lines that are refused

The agent keeps a chunk and presents it again when `do_handle` answers with a
negative number. The line handler never does: it drops the answer of
`handle_lines`, and it has replaced `part_line` by then. A refused batch is
not presented again, and it is lost unless it held no line.
-/

namespace SimpleFlow

open Delimited Interleaving LabelledSystem

variable {τ : Type} (L : LineHandler τ)

namespace LineFlowHandler

def acceptedLines (h : LineFlowHandler τ) : List Bytes :=
  (h.batches.filter fun b ↦ decide (0 ≤ b.2)).flatMap Prod.fst

/-- When `handle_lines` refuses the batch that a call gives it, the call
answers with a negative number and leaves `part_line` as it was. -/
def ReportsRefusal (h : LineFlowHandler τ) (c : Chunk) : Prop :=
  ∀ n h' batch answer, doHandle L h c.buffer c.size = .ok (n, h') →
    h'.batches = h.batches ++ [(batch, answer)] → answer < 0 →
      n < 0 ∧ h'.partLine = h.partLine

def verdict (h : LineFlowHandler τ) (data : Bytes) : Int :=
  (L.handleLines h.derived (lines newline data)).1

theorem after_batches (h : LineFlowHandler τ) (data : Bytes) :
    (h.after L data).batches = h.batches ++ [(lines newline data, h.verdict L data)] := rfl

theorem after_acceptedLines (h : LineFlowHandler τ) (data : Bytes) :
    (h.after L data).acceptedLines =
      h.acceptedLines ++ if 0 ≤ h.verdict L data then lines newline data else [] := by
  rw [acceptedLines, after_batches, acceptedLines]
  by_cases hv : 0 ≤ h.verdict L data <;> simp [hv]

/-- No refusal is ever reported. -/
theorem reportsRefusal_iff (h : LineFlowHandler τ) (c : Chunk) :
    ReportsRefusal L h c ↔ 0 ≤ h.verdict L (h.partLine ++ c.bytes) := by
  constructor
  · intro hreports
    by_contra hneg
    have hzero := (hreports 0 _ _ _ (doHandle_chunk L h c) (after_batches L h _)
      (by omega)).1
    omega
  · intro haccepted n h' batch answer hdo hbatches hneg
    obtain ⟨-, rfl⟩ : 0 = n ∧ h.after L (h.partLine ++ c.bytes) = h' := by
      simpa using (doHandle_chunk L h c).symm.trans hdo
    rw [after_batches] at hbatches
    obtain ⟨-, rfl⟩ : _ ∧ h.verdict L (h.partLine ++ c.bytes) = answer := by
      simpa using hbatches
    omega

end LineFlowHandler

namespace Watch

/-- The batches that `handle_lines` accepted hold every line of the bytes the
agent is done with, and each as often as it stands there. -/
def LinesKept (s : Watch (LineFlowHandler τ)) : Prop :=
  s.handler.acceptedLines.Perm (lines newline (acceptedBytes s.calls))

/-- If the call that comes next is refused, then with an empty batch. -/
def RefusedEmpty (s : Watch (LineFlowHandler τ)) (o : Obs) : Prop :=
  o = .call → s.handler.verdict L (s.handler.partLine ++ s.chunk) < 0 →
    lines newline (s.handler.partLine ++ s.chunk) = []

variable {L}

theorem Lined.acceptedBytes_eq {s : Watch (LineFlowHandler τ)} (h : s.Lined) :
    acceptedBytes s.calls = s.stream := by
  have hall : s.calls.filter (fun c ↦ decide (0 ≤ c.answer)) = s.calls :=
    List.filter_eq_self.mpr fun c hc ↦ by simp [h.answers c hc]
  rw [acceptedBytes, hall, stream_eq]

theorem linesKept_step {limit : Int} {s t : Watch (LineFlowHandler τ)} {o : Obs} (hl : s.Lined)
    (hkept : s.LinesKept) (hstep : ((LineFlowHandler.accepting L).agent limit).step s o = some t) :
    t.LinesKept ↔ s.RefusedEmpty L o := by
  have hlt := hl.step hstep
  rw [LinesKept, hlt.acceptedBytes_eq]
  rw [LinesKept, hl.acceptedBytes_eq] at hkept
  rcases line_step_cases hl.smooth.sound hstep with ⟨hne, hhandler, hcalls⟩ |
      ⟨rfl, -, hhandler, hcalls⟩
  · rw [hhandler, stream_of_calls_eq hcalls]
    exact ⟨fun _ hcall ↦ absurd hcall hne, fun _ ↦ hkept⟩
  · rw [hhandler, stream_of_calls_concat hcalls, LineFlowHandler.after_acceptedLines,
      lines_append s.stream, ← hl.partLine, (hkept.append_right _).congr_left,
      List.perm_append_left_iff]
    simp only [RefusedEmpty, true_implies]
    split
    · rename_i hge
      exact ⟨fun _ hlt ↦ absurd hlt (by omega), fun _ ↦ List.Perm.refl _⟩
    · rename_i hneg
      rw [List.nil_perm]
      exact ⟨fun h _ ↦ h, fun h ↦ h (by omega)⟩

end Watch

/-- One call reports a refusal and rolls back exactly if there is none, and
along every run of the agent, whatever the files do, no line is lost exactly
as long as every refused batch is empty. -/
theorem refused_batch_lost (limit : Int) (reader : FileReader) (runTime : Int) (t : τ)
    (obs : List Obs) :
    (∀ (h : LineFlowHandler τ) (c : Chunk), h.ReportsRefusal L c ↔
      0 ≤ h.verdict L (h.partLine ++ c.bytes)) ∧
    (((LineFlowHandler.accepting L).agent limit).loop.Always Watch.LinesKept
        (Watch.start reader runTime (.fresh t)) obs ↔
      ((LineFlowHandler.accepting L).agent limit).loop.EachStep (Watch.RefusedEmpty L)
        (Watch.start reader runTime (.fresh t)) obs) := by
  refine ⟨LineFlowHandler.reportsRefusal_iff L, ?_⟩
  apply always_iff_eachStep (P := Watch.LinesKept)
    (I := fun s : Watch (LineFlowHandler τ) ↦ s.Lined ∧ s.LinesKept) (fun _ h ↦ h.2)
  · rintro s o u ⟨hl, hkept⟩ hstep
    have hiff := Watch.linesKept_step hl hkept hstep
    exact ⟨hiff, fun hC ↦ ⟨hl.step hstep, hiff.mpr hC⟩⟩
  · refine ⟨.start reader runTime t, ?_⟩
    simp [Watch.LinesKept, Watch.start, LineFlowHandler.fresh, LineFlowHandler.acceptedLines,
      acceptedBytes]

def LineHandler.refusing : LineHandler Unit where
  handleLines := fun t _ ↦ (-1, t)

/-- The only line of a file is refused: the call answers 0, and the line is in
no accepted batch although the agent is done with its bytes. -/
theorem not_linesKept_refusing :
    ¬(LineFlowHandler.fresh ()).ReportsRefusal LineHandler.refusing
        (.full [97, newline] (by decide)) ∧
      ¬((LineFlowHandler.accepting LineHandler.refusing).agent (-1)).loop.Always Watch.LinesKept
        (Watch.start ⟨0, 1⟩ 0 (.fresh ())) [.opened (some 1), .data [97, newline], .call] := by
  constructor
  · intro h
    have hzero := (h 0 _ _ _ rfl rfl (by decide)).1
    exact absurd hzero (by decide)
  · intro h
    have hperm := h.mono (Q := fun s ↦ s.handler.acceptedLines.length =
      (lines newline (acceptedBytes s.calls)).length) fun s hs ↦ hs.length_eq
    revert hperm
    decide +kernel

end SimpleFlow
