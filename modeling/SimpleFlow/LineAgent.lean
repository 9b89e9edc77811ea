import SimpleFlow.LineStream
import SimpleFlow.Presented

/-!
# The agent with a line handler

Every call that the agent makes passes a proper chunk, so the line handler
neither faults nor answers anything but 0, and the agent never presents a
chunk to it twice. The lines that were given to `handle_lines` are therefore
the lines of all passed bytes joined together, whatever files they are from.
-/

namespace SimpleFlow

open Delimited Interleaving LabelledSystem

variable {τ : Type} {L : LineHandler τ}

theorem LineFlowHandler.doHandle_ok {h h' : LineFlowHandler τ} {buffer : Bytes} {size n : Int}
    (hdo : doHandle L h buffer size = .ok (n, h')) : n = 0 := by
  simp only [doHandle, bind, Except.bind, pure, Except.pure] at hdo
  split at hdo
  · simp at hdo
  split at hdo
  · simp at hdo
  split at hdo
  · simp_all
  split at hdo
  · simp at hdo
  split at hdo <;> simp_all

variable (L) in
/-- The line handler as one that accepts whatever it is given. -/
def LineFlowHandler.accepting : AcceptingHandler (LineFlowHandler τ) where
  toFlowHandler := asFlowHandler L
  accepts := fun hdo ↦ (doHandle_ok hdo).ge

theorem Watch.Sound.exists_chunk {σ : Type} {s : Watch σ} (hs : s.Sound) (hready : s.ready) :
    ∃ c : Chunk, c.buffer = s.reqBuffer ∧ (c.size : Int) = s.readSize ∧ c.bytes = s.chunk := by
  obtain ⟨hpos, hle⟩ := hs.chunk_size (pending_of_ready hready)
  have hlen := hs.buffer_length
  refine ⟨⟨s.reqBuffer, s.readSize.toNat, by omega, by omega⟩, rfl, ?_, rfl⟩
  change (s.readSize.toNat : Int) = s.readSize
  omega

namespace Watch

variable {limit : Int} {s t : Watch (LineFlowHandler τ)} {o : Obs}

theorem callHandler_line (limit : Int) (hs : s.Sound) (hready : s.ready) :
    ∃ runTime pc, (pc = .head ∨ pc = .done ∨ pc = .overflowed) ∧
      ((LineFlowHandler.accepting L).agent limit).callHandler s =
        { s with
          handler := s.handler.after L (s.handler.partLine ++ s.chunk)
          calls := s.calls ++ [s.callWith 0]
          retryStatus := false
          runTime := runTime
          pc := pc } := by
  obtain ⟨c, hbuffer, hsize, hbytes⟩ := hs.exists_chunk hready
  have hdo := LineFlowHandler.doHandle_chunk L s.handler c
  rw [hbuffer, hsize, hbytes] at hdo
  rcases ((LineFlowHandler.accepting L).agent limit).callHandler_cases s with
    ⟨f, hf, -⟩ | ⟨n, h, hn, hneg, -⟩ | ⟨n, h, runTime, pc, hn, -, hpc, heq⟩
  · cases hf.symm.trans hdo
  · obtain ⟨rfl, rfl⟩ : n = 0 ∧ h = _ := by simpa using hn.symm.trans hdo
    omega
  · obtain ⟨rfl, rfl⟩ : n = 0 ∧ h = _ := by simpa using hn.symm.trans hdo
    exact ⟨runTime, pc, hpc, heq⟩

theorem line_step_cases (hs : s.Sound)
    (h : ((LineFlowHandler.accepting L).agent limit).step s o = some t) :
    (o ≠ .call ∧ t.handler = s.handler ∧ t.calls = s.calls) ∨
    (o = .call ∧ s.ready ∧ t.handler = s.handler.after L (s.handler.partLine ++ s.chunk) ∧
      t.calls = s.calls ++ [s.callWith 0]) := by
  cases FileAgent.taken_of_step h with
  | call hready =>
      obtain ⟨runTime, pc, -, heq⟩ := callHandler_line (L := L) limit hs hready
      exact .inr ⟨rfl, hready, by rw [heq], by rw [heq]⟩
  | _ => exact .inl ⟨by simp, rfl, rfl⟩

def stream {σ : Type} (s : Watch σ) : Bytes := merged (feedOf s.passed)

theorem stream_eq {σ : Type} (s : Watch σ) : s.stream = s.calls.flatMap Call.bytes := by
  simp [stream, merged, feedOf, passed, List.flatMap_map, Call.span]

theorem stream_of_calls_eq {σ : Type} {s t : Watch σ} (h : t.calls = s.calls) :
    t.stream = s.stream := by
  rw [stream_eq, stream_eq, h]

theorem stream_of_calls_concat {σ : Type} {s t : Watch σ} {n : Int}
    (h : t.calls = s.calls ++ [s.callWith n]) : t.stream = s.stream ++ s.chunk := by
  rw [stream_eq, stream_eq, h]
  simp [Call.bytes, callWith, chunk]

/-- The invariant of the line handler under an agent. -/
structure Lined (s : Watch (LineFlowHandler τ)) : Prop where
  smooth : s.Smooth
  emitted : s.handler.emitted = lines newline s.stream
  partLine : s.handler.partLine = remainder newline s.stream
  answers : ∀ c ∈ s.calls, c.answer = 0

theorem Lined.start (reader : FileReader) (runTime : Int) (t : τ) :
    (Watch.start reader runTime (LineFlowHandler.fresh t)).Lined := by
  refine ⟨.start _ _ _, ?_, ?_, ?_⟩ <;>
    simp [Watch.start, stream, passed, feedOf, LineFlowHandler.fresh, LineFlowHandler.emitted]

theorem Lined.step (hs : s.Lined)
    (h : ((LineFlowHandler.accepting L).agent limit).step s o = some t) : t.Lined := by
  have hsmooth := hs.smooth.step (H := LineFlowHandler.accepting L) h
  rcases line_step_cases hs.smooth.sound h with ⟨-, hhandler, hcalls⟩ |
      ⟨-, -, hhandler, hcalls⟩
  · have hstream := stream_of_calls_eq hcalls
    exact ⟨hsmooth, by rw [hhandler, hstream, hs.emitted], by rw [hhandler, hstream, hs.partLine],
      hcalls ▸ hs.answers⟩
  · have hstream := stream_of_calls_concat hcalls
    refine ⟨hsmooth, ?_, ?_, ?_⟩
    · rw [hhandler, hstream, LineFlowHandler.after_emitted, hs.emitted, hs.partLine,
        ← lines_append]
    · rw [hhandler, hstream, LineFlowHandler.after_partLine, hs.partLine, ← remainder_append]
    · intro c hc
      rw [hcalls] at hc
      rcases List.mem_append.mp hc with hc | hc
      · exact hs.answers c hc
      · obtain rfl := List.mem_singleton.mp hc
        rfl

end Watch

end SimpleFlow
