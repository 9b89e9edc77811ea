import SimpleFlow.FlowHandler
import SimpleFlow.Library.LabelledSystem

/-!
# Replication to another server

`RedisReplFlowHandler` passes each chunk on with one `write` on a socket that
does not block, reads whatever has been answered, and returns 0. It looks at
neither the count nor the failure of the `write`, so the stream is forwarded
unchanged exactly as long as the socket takes every chunk as a whole.
-/

namespace SimpleFlow

open LabelledSystem

/-! ## `TcpClient` -/

/-- What `write` does: it fails, or the socket takes a first part of the
buffer. -/
inductive Write where
  | failed
  | took (count : ℕ)
  deriving DecidableEq, Repr

namespace Write

def ret : Write → Int
  | .failed => -1
  | .took count => count

/-- How many bytes the socket has taken. -/
def count : Write → ℕ
  | .failed => 0
  | .took count => count

end Write

/-- What `read` does: it fails, or stores some bytes, none at the end of the
stream. -/
inductive Read where
  | failed
  | stored (count : ℕ)
  deriving DecidableEq, Repr

def Read.ret : Read → Int
  | .failed => -1
  | .stored count => count

/-- A connected `TcpClient`: the bytes its socket has taken so far. -/
structure TcpClient where
  taken : Bytes
  deriving DecidableEq, Repr

namespace TcpClient

/-- `TcpClient::write_bytes`; `none` when `write` cannot do that. -/
def writeBytes (k : TcpClient) (buffer : Bytes) (size : ℕ) (w : Write) :
    Option (Int × TcpClient) :=
  if w.count ≤ size then some (w.ret, ⟨k.taken ++ buffer.take w.count⟩) else none

/-- `TcpClient::read_bytes`; `none` when `read` cannot do that. -/
def readBytes (size : ℕ) (r : Read) : Option Int :=
  match r with
  | .failed => some r.ret
  | .stored count => if count ≤ size then some r.ret else none

end TcpClient

/-! ## `RedisReplFlowHandler` -/

/-- `int buffer_size = 1024` -/
def replBufferSize : ℕ := 1024

/-- `total_size` is an `int` that is only logged. -/
structure RedisReplFlowHandler where
  totalSize : Int
  tcpClient : TcpClient
  deriving DecidableEq, Repr

namespace RedisReplFlowHandler

/-- After the constructor has connected. -/
def connected : RedisReplFlowHandler := ⟨0, ⟨[]⟩⟩

/-- `while((read_size = tcp_client.read_bytes(read_buffer, buffer_size)) > 0)`,
where the list says what the reads do, the last of them ending the loop. -/
def readAll : List Read → Option Unit
  | [] => none
  | r :: rs => do
      let readSize ← TcpClient.readBytes replBufferSize r
      if 0 < readSize then readAll rs else if rs.isEmpty then some () else none

/-- `RedisReplFlowHandler::do_handle` -/
def doHandle (h : RedisReplFlowHandler) (flowBytes : Bytes) (size : ℕ) (w : Write)
    (reads : List Read) : Option (Int × RedisReplFlowHandler) := do
  let totalSize := (h.totalSize + size).bmod 4294967296
  let (_, tcpClient) ← h.tcpClient.writeBytes flowBytes size w
  readAll reads
  return (0, ⟨totalSize, tcpClient⟩)

end RedisReplFlowHandler

/-- One call of `do_handle`, with a buffer of at least `size` bytes, and what
the socket does in it. -/
structure Forwarding where
  flowBytes : Bytes
  size : ℕ
  size_le : size ≤ flowBytes.length
  write : Write
  reads : List Read

def Forwarding.chunk (f : Forwarding) : Bytes := f.flowBytes.take f.size

/-- The handler with the chunks it has been given and what it has answered. -/
structure Replication where
  handler : RedisReplFlowHandler
  passed : List Bytes
  answers : List Int
  deriving DecidableEq, Repr

namespace Replication

def start : Replication := ⟨.connected, [], []⟩

def step (s : Replication) (f : Forwarding) : Option Replication := do
  let (n, handler) ← s.handler.doHandle f.flowBytes f.size f.write f.reads
  return ⟨handler, s.passed ++ [f.chunk], s.answers ++ [n]⟩

/-- Any sequence of chunks, with any outcome of the system calls. -/
def system : LabelledSystem Replication Forwarding := ⟨step⟩

def taken (s : Replication) : Bytes := s.handler.tcpClient.taken

/-- As long as no answer was negative, the socket has taken all chunks. -/
def Forwarded (s : Replication) : Prop := (∀ n ∈ s.answers, 0 ≤ n) → s.taken = s.passed.flatten

instance (s : Replication) : Decidable s.Forwarded :=
  inferInstanceAs (Decidable ((∀ n ∈ s.answers, 0 ≤ n) → _ = _))

/-- The socket takes the whole chunk. -/
def WholeWrite (_ : Replication) (f : Forwarding) : Prop := f.size ≤ f.write.count

end Replication

/-- Whatever the socket has done, the answer is 0. -/
theorem RedisReplFlowHandler.doHandle_eq_some {h h' : RedisReplFlowHandler} {flowBytes : Bytes}
    {size : ℕ} {w : Write} {reads : List Read} {n : Int}
    (hdo : h.doHandle flowBytes size w reads = some (n, h')) :
    n = 0 ∧ w.count ≤ size ∧ h'.tcpClient.taken = h.tcpClient.taken ++ flowBytes.take w.count := by
  unfold doHandle TcpClient.writeBytes at hdo
  by_cases hw : w.count ≤ size
  · cases hreads : readAll reads with
    | none => simp [hw, hreads] at hdo
    | some u =>
        simp only [hw, if_true, hreads, Option.pure_def, Option.bind_eq_bind, Option.bind_some,
          Option.some.injEq, Prod.mk.injEq] at hdo
        obtain ⟨rfl, rfl⟩ := hdo
        exact ⟨rfl, hw, rfl⟩
  · simp [hw] at hdo

namespace Replication

variable {s t : Replication} {f : Forwarding}

theorem step_cases (hstep : system.step s f = some t) :
    f.write.count ≤ f.size ∧ t.taken = s.taken ++ f.flowBytes.take f.write.count ∧
      t.passed = s.passed ++ [f.chunk] ∧ t.answers = s.answers ++ [0] := by
  obtain ⟨⟨n, handler⟩, hdo, ht⟩ := Option.bind_eq_some_iff.mp (show step s f = some t from hstep)
  obtain ⟨rfl, hle, htaken⟩ := RedisReplFlowHandler.doHandle_eq_some hdo
  obtain rfl := Option.some.inj ht
  exact ⟨hle, htaken, rfl, rfl⟩

theorem take_count_eq_iff (hle : f.write.count ≤ f.size) :
    f.flowBytes.take f.write.count = f.chunk ↔ f.size ≤ f.write.count := by
  have hsize := f.size_le
  constructor
  · intro heq
    have hlen := congrArg List.length heq
    rw [Forwarding.chunk, List.length_take, List.length_take] at hlen
    omega
  · intro hge
    rw [Nat.le_antisymm hle hge]
    rfl

theorem forwarded_step (hs : s.Forwarded) (hanswers : ∀ n ∈ s.answers, 0 ≤ n)
    (hstep : system.step s f = some t) :
    (t.Forwarded ↔ s.WholeWrite f) ∧ ∀ n ∈ t.answers, 0 ≤ n := by
  obtain ⟨hle, htaken, hpassed, hnew⟩ := step_cases hstep
  have hall : ∀ n ∈ t.answers, 0 ≤ n := by
    intro n hn
    rw [hnew] at hn
    rcases List.mem_append.mp hn with hold | hlast
    · exact hanswers n hold
    · obtain rfl := List.mem_singleton.mp hlast
      exact Int.le_refl 0
  refine ⟨?_, hall⟩
  rw [WholeWrite, ← take_count_eq_iff hle]
  constructor
  · intro ht
    have heq := ht hall
    rw [htaken, hpassed, hs hanswers, List.flatten_append, List.flatten_singleton] at heq
    exact List.append_cancel_left heq
  · intro hwhole _
    rw [htaken, hpassed, hs hanswers, hwhole, List.flatten_append, List.flatten_singleton]

end Replication

/-- One call reports what the socket did not take exactly if there is nothing to
report, and along every sequence of calls the stream is forwarded unchanged
exactly as long as each chunk is taken as a whole. -/
theorem forwarded_iff (calls : List Forwarding) :
    (∀ (h : RedisReplFlowHandler) (f : Forwarding) (n : Int) (h' : RedisReplFlowHandler),
      h.doHandle f.flowBytes f.size f.write f.reads = some (n, h') →
      ((f.write.count < f.size → n < 0) ↔ f.size ≤ f.write.count)) ∧
    (Replication.system.Always Replication.Forwarded .start calls ↔
      Replication.system.EachStep Replication.WholeWrite .start calls) := by
  constructor
  · intro h f n h' hdo
    obtain ⟨rfl, -, -⟩ := RedisReplFlowHandler.doHandle_eq_some hdo
    omega
  · apply always_iff_eachStep (P := Replication.Forwarded)
      (I := fun s : Replication ↦ s.Forwarded ∧ ∀ n ∈ s.answers, 0 ≤ n) (fun _ h ↦ h.1)
    · rintro s f t ⟨hs, hanswers⟩ hstep
      obtain ⟨hiff, hall⟩ := Replication.forwarded_step hs hanswers hstep
      exact ⟨hiff, fun hwhole ↦ ⟨hiff.mpr hwhole, hall⟩⟩
    · exact ⟨fun _ ↦ rfl, fun n hn ↦ by cases hn⟩

/-- The first chunk is `"abc"`, of which the socket takes one byte; then its
buffer is full. -/
theorem not_forwarded :
    (¬Replication.system.Always Replication.Forwarded .start
      [⟨[97, 98, 99], 3, by decide, .took 1, [.failed]⟩]) ∧
    ¬Replication.system.Always Replication.Forwarded .start
      [⟨[97, 98, 99], 3, by decide, .failed, [.stored 5, .failed]⟩] := by
  decide +kernel

end SimpleFlow
