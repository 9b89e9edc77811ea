import SimpleFlow.LineStream
import SimpleFlow.ServerStreams
import SimpleFlow.Library.Interleaving

/-!
# One line handler for all connections

`FlowServer::start` has one handler, and a line handler has one `part_line`.
The lines it hands over are those of all chunks joined in the order of the
calls. They are the lines of the connections one by one exactly as long as
every chunk with a newline finds no other connection inside a line.
-/

namespace SimpleFlow

open Delimited Interleaving LabelledSystem

abbrev LineFlowHandler.server {τ : Type} (L : LineHandler τ) (backlog coreSize : ℕ) :
    FlowServer (LineFlowHandler τ) :=
  ⟨asFlowHandler L, backlog, coreSize⟩

namespace Server

variable {τ : Type}

/-- The strings given to `handle_lines` are the lines of what was passed of
each connection on its own. -/
def IsolatedLines (s : Server (LineFlowHandler τ)) : Prop :=
  (s.handler.emitted : Multiset Bytes) =
    ∑ c ∈ sources s.feed, (lines newline (own c s.feed) : Multiset Bytes)

instance (s : Server (LineFlowHandler τ)) : Decidable s.IsolatedLines :=
  inferInstanceAs (Decidable (_ = _))

/-- If a chunk with a newline is passed, then what was passed of every other
connection ends with a newline or is empty. -/
def UndisturbedCall (s : Server (LineFlowHandler τ)) (a : Act) : Prop :=
  ∀ w, a = .call w → ∀ client buffer size,
    s.workers[w]? = some (.calling client buffer size) →
      Undisturbed newline s.feed client (buffer.take size.toNat)

/-- The invariant of the shared handler. -/
structure Shared (s : Server (LineFlowHandler τ)) : Prop where
  inBounds : s.InBounds
  emitted : s.handler.emitted = lines newline (merged s.feed)
  partLine : s.handler.partLine = remainder newline (merged s.feed)
  balanced : Balanced newline s.feed

theorem isolatedLines_iff {s : Server (LineFlowHandler τ)}
    (h : s.handler.emitted = lines newline (merged s.feed)) :
    s.IsolatedLines ↔ Isolated newline s.feed := by
  rw [IsolatedLines, h]
  rfl

variable {L : LineHandler τ} {backlog coreSize : ℕ} {s t : Server (LineFlowHandler τ)} {a : Act}

theorem handle_line (h : s.InBounds) {w client : ℕ} {buffer : Bytes} {size : Int}
    (hw : s.workers[w]? = some (.calling client buffer size)) :
    (LineFlowHandler.server L backlog coreSize).handle s w client buffer size =
      { s.withWorker w (.answered client 0) with
        handler := s.handler.after L (s.handler.partLine ++ buffer.take size.toNat)
        calls := s.calls ++ [⟨client, buffer.take size.toNat, some 0⟩] } := by
  obtain ⟨hpos, hle, hlen⟩ := h w client buffer size hw
  have hdo := LineFlowHandler.doHandle_chunk L s.handler
    ⟨buffer, size.toNat, by omega, by omega⟩
  have hsize : ((size.toNat : ℕ) : Int) = size := by omega
  simp only [hsize, Chunk.bytes] at hdo
  simp only [FlowServer.handle, LineFlowHandler.asFlowHandler, hdo]

theorem Shared.step (h : s.Shared)
    (hstep : (LineFlowHandler.server L backlog coreSize).step s a = some t) :
    (t.IsolatedLines ↔ s.UndisturbedCall a) ∧ (s.UndisturbedCall a → t.Shared) := by
  have hbounds := h.inBounds.step hstep
  have hsame : t.handler = s.handler → t.feed = s.feed → (∀ w, a ≠ .call w) →
      (t.IsolatedLines ↔ s.UndisturbedCall a) ∧ (s.UndisturbedCall a → t.Shared) := by
    intro hhandler hfeed hcall
    have ht : t.Shared := by
      refine ⟨hbounds, ?_, ?_, ?_⟩
      · rw [hhandler, hfeed, h.emitted]
      · rw [hhandler, hfeed, h.partLine]
      · rw [hfeed]
        exact h.balanced
    exact ⟨iff_of_true ((isolatedLines_iff ht.emitted).mpr ht.balanced.isolated)
      (fun w hw ↦ absurd hw (hcall w)), fun _ ↦ ht⟩
  cases flow_of_step hstep with
  | still _ ha hs hhand hcalling =>
      exact hsame hs.handler (by rw [feed, hs.calls, feed]) ha
  | sent client bytes heq =>
      subst heq
      exact hsame rfl rfl (by simp)
  | received w client r hw hmay heq =>
      subst heq
      refine hsame ?_ ?_ (by simp) <;> unfold Server.received <;> split <;> rfl
  | passed w client buffer size hw heq =>
      rw [handle_line h.inBounds hw] at heq
      have hfeed : t.feed = s.feed ++ [(client, buffer.take size.toNat)] := by
        rw [heq]
        simp [feed]
      have hhandler : t.handler =
          s.handler.after L (s.handler.partLine ++ buffer.take size.toNat) := by rw [heq]
      have hemitted : t.handler.emitted = lines newline (merged t.feed) := by
        rw [hhandler, hfeed, merged_concat, lines_append, ← h.emitted, ← h.partLine,
          LineFlowHandler.after_emitted]
      have hpart : t.handler.partLine = remainder newline (merged t.feed) := by
        rw [hhandler, hfeed, merged_concat, remainder_append, ← h.partLine,
          LineFlowHandler.after_partLine]
      have hC : s.UndisturbedCall (.call w) ↔
          Undisturbed newline s.feed client (buffer.take size.toNat) := by
        constructor
        · exact fun hC ↦ hC w rfl client buffer size hw
        · intro hu w' hw' c b n hcalling
          obtain rfl : w = w' := by simpa using hw'
          obtain ⟨rfl, rfl, rfl⟩ : client = c ∧ buffer = b ∧ size = n := by
            simpa using hw.symm.trans hcalling
          exact hu
      rw [isolatedLines_iff hemitted, hC, hfeed]
      exact ⟨⟨h.balanced.undisturbed_of_isolated, fun hu ↦ (h.balanced.concat hu).isolated⟩,
        fun hu ↦ ⟨hbounds, hemitted, hpart, hfeed ▸ h.balanced.concat hu⟩⟩

theorem Shared.start (t : τ) :
    (Server.start (LineFlowHandler.server L backlog coreSize)
      (.fresh t)).Shared :=
  ⟨.start _ _, rfl, rfl, balanced_nil⟩

end Server

/-- With any number of connections opened and closed in any order, and any
scheduling: the lines handed over are those of the connections one by one
exactly as long as every chunk with a newline is passed when no other
connection is inside a line. -/
theorem connections_isolated {τ : Type} (L : LineHandler τ) (backlog coreSize : ℕ) (t : τ)
    (acts : List Act) :
    (LineFlowHandler.server L backlog coreSize).system.Always Server.IsolatedLines
        (Server.start (LineFlowHandler.server L backlog coreSize) (.fresh t)) acts ↔
      (LineFlowHandler.server L backlog coreSize).system.EachStep Server.UndisturbedCall
        (Server.start (LineFlowHandler.server L backlog coreSize) (.fresh t)) acts :=
  always_iff_eachStep (I := Server.Shared)
    (fun _ h ↦ (Server.isolatedLines_iff h.emitted).mpr h.balanced.isolated)
    (fun _ _ _ h hstep ↦ h.step hstep) (.start t)

/-- One client stops in the middle of a line, and what it has sent is put in
front of the other client's line. -/
theorem not_always_isolatedLines :
    ¬(LineFlowHandler.server LineHandler.base 10 1).system.Always Server.IsolatedLines
      (Server.start (LineFlowHandler.server LineHandler.base 10 1) (.fresh ()))
      (Act.connect ++ Act.connect ++
        Act.queue 1 [97] ++ Act.serve [97] (by decide) ++ [.finish 0] ++
        Act.queue 2 [98, newline] ++ Act.serve [98, newline] (by decide)) := by
  decide +kernel

end SimpleFlow
