import ReplaySystem.RingChannel
import ReplaySystem.Log
import Mathlib.Logic.Relation

/-!
# The multiprocess solution

`multiprocess/`: three processes share one memory segment, `SharedRingBuffer`.  The server
process (`ipc_server`'s `main`) creates the segment, initialises it, pushes
`--messages` messages and then clears `server_running`.  The recorder process
(`ipc_recorder`) and the client process (`ipc_client`) read it from sequence 0, each with
its own `read_seq`, until the server is no longer running and they are past its last
push.  The recorder writes what it reads to a log, in batches of `BATCH_SIZE`; the client
sums the payloads.

`SharedRingBuffer::read` only compares the slot's published sequence with the expected
one.  Like `RingBuffer::read` it cannot tell a sequence not pushed yet from one
overwritten a lap later, so a reader that falls a lap behind waits for ever.

Each step of a process is one atomic step: the server's `init`, one `push` together with
its `fetch_add` on `total_messages` (which no reader loads), its clean-up, one iteration
of a reader's loop, a signal handler.  The segment starts zero-filled by `ftruncate` and
`init` is the server's first step, so a reader can poll the segment before it.  What a
reader reads depends on how its copy interleaves with the server's stores: that is
`ReplaySystem.IpcFine`, which splits `push` and `read` at their loads and stores.  The
results here are about when the processes stop, which a finer split leaves as it is.

## Main definitions

* `SharedRingBuffer` with `init`, `push`, `read`; `SharedRingBuffer.Holds b ms` — the
  segment holds the pushes `ms`.
* `ReaderProg`, `Reader` — the loop the two reader processes share, and a reader process;
  `clientProg` and `recorderProg` are the client's and the recorder's.
* `IpcSys`, `IpcSys.step`, `IpcSys.Reachable` — the three processes and their signals.

## Main results

* `IpcSys.reachable_inv` — the invariant of the three processes, in every interleaving.
* `IpcSys.reader_exits_having_read_all` — a reader that leaves by itself misses at most one
  message, pushed after a stop request.
* `IpcSys.reader_finishes` — once the server has returned, a reader running alone finishes.
* `IpcSys.server_outcome`, `IpcSys.readers_hang_after_divByZero` — when the server divides
  by zero, and that the readers then wait for ever.
-/

namespace Replay

namespace Ipc

/-- `SHM_RING_BUFFER_SIZE`: the number of slots of the shared ring. -/
def shmRingBufferSize : Nat := 1024 * 64

/-- `BATCH_SIZE`: how many messages the recorder process buffers before it writes them. -/
def batchSize : Nat := 1024

/-- The shared ring's slot count as a ring capacity.  It is a power of two, so the source's
`seq % SHM_RING_BUFFER_SIZE` is the slot `slotIndex` computes. -/
def shmCapacity : Capacity := ⟨shmRingBufferSize, ⟨16, rfl⟩⟩

@[simp] theorem shmCapacity_val : shmCapacity.val = shmRingBufferSize := rfl

/-- The message of a zero-filled slot. -/
def zeroMsg : Msg := ⟨0, 0, 0⟩

/-! ### The shared segment -/

/-- The shared segment: `write_seq`, `server_running`, `total_messages` and the slots. -/
structure SharedRingBuffer where
  writeSeq : Int
  serverRunning : Bool
  totalMessages : Int
  slots : Nat → Slot

namespace SharedRingBuffer

/-- The segment as `ftruncate` leaves it: every byte zero, so every slot publishes
sequence 0. -/
def zeroed : SharedRingBuffer := ⟨0, false, 0, fun _ => ⟨zeroMsg, 0⟩⟩

/-- `init`: reset the counters, set `server_running`, unpublish every slot. -/
def init (b : SharedRingBuffer) : SharedRingBuffer :=
  { b with
    writeSeq := 0, serverRunning := true, totalMessages := 0,
    slots := fun i => { b.slots i with seq := invalidSeq } }

/-- `push`: take the next sequence number, store the message patched with it, publish it. -/
def push (b : SharedRingBuffer) (msg : Msg) : Int × SharedRingBuffer :=
  let seq := b.writeSeq
  let index := seq.toNat % shmRingBufferSize
  (seq, { b with
    writeSeq := seq + 1,
    slots := Function.update b.slots index ⟨{ msg with seqNum := seq }, seq⟩ })

/-- `read`: the slot's message if the slot publishes the expected sequence. -/
def read (b : SharedRingBuffer) (expectedSeq : Int) : Option Msg :=
  if expectedSeq < 0 then none
  else
    let slot := b.slots (expectedSeq.toNat % shmRingBufferSize)
    if slot.seq = expectedSeq then some slot.msg else none

/-- `getLatestSeq`. -/
def getLatestSeq (b : SharedRingBuffer) : Int := b.writeSeq - 1

/-- `isServerRunning`. -/
def isServerRunning (b : SharedRingBuffer) : Bool := b.serverRunning

/-- The segment holds the pushes `ms`: its write cursor counts them, and each slot is
unpublished, as in the ring `ms` were pushed into, or is that ring's slot. -/
def Holds (b : SharedRingBuffer) (ms : List Msg) : Prop :=
  b.writeSeq = ms.length ∧ ∀ i,
    ((b.slots i).seq = invalidSeq ∧ (slotOf shmCapacity ms i).seq = invalidSeq) ∨
      b.slots i = slotOf shmCapacity ms i

@[simp] theorem init_serverRunning (b : SharedRingBuffer) : b.init.serverRunning = true := rfl

theorem init_holds (b : SharedRingBuffer) : b.init.Holds [] := ⟨rfl, fun _ => .inl ⟨rfl, rfl⟩⟩

theorem push_holds {b : SharedRingBuffer} {ms : List Msg} (h : b.Holds ms) (m : Msg) :
    (b.push m).2.Holds (ms ++ [m]) := by
  obtain ⟨hw, hs⟩ := h
  refine ⟨by simp [push, hw], fun j => ?_⟩
  simp only [push, hw, Int.toNat_ofNat, slotOf_append, shmCapacity_val, Function.update_apply]
  by_cases hj : j = ms.length % shmRingBufferSize
  · subst hj; simp
  · rw [if_neg hj, if_neg (Ne.symm hj)]; exact hs j

/-- On a segment holding `ms`, `read` answers as the ring's `read` after the same pushes. -/
theorem read_eq_ringOf {b : SharedRingBuffer} {ms : List Msg} (h : b.Holds ms) (e : Int) :
    b.read e = (ringOf shmCapacity ms).read shmCapacity e := by
  rw [RingBuffer.read_eq, read]
  simp only [slotIndex_eq_mod, ringOf, shmCapacity_val]
  by_cases h0 : e < 0
  · simp [h0]
  · rcases h.2 (e.toNat % shmRingBufferSize) with ⟨h1, h2⟩ | h1
    · simp only [h0, if_false, h1, h2, invalidSeq_eq]
      rw [if_neg (by omega), if_neg (by omega)]
    · simp only [h0, if_false, h1]

/-- **What a read of a segment holding `ms` returns**: the message pushed under `e` on the
last lap below the push count, and nothing otherwise. -/
theorem read_of_holds {b : SharedRingBuffer} {ms : List Msg} (h : b.Holds ms) (e : Int) :
    b.read e = if 0 ≤ e ∧ e < ms.length ∧ ms.length ≤ e + shmRingBufferSize
      then some (pushedMsg ms e.toNat) else none := by
  rw [read_eq_ringOf h, RingBuffer.read_ringOf, shmCapacity_val]

/-- The zero-filled segment publishes sequence 0 in every slot, with the zero message. -/
theorem zeroed_read (e : Int) : zeroed.read e = if e = 0 then some zeroMsg else none := by
  unfold read zeroed
  split_ifs <;> simp_all [eq_comm]

end SharedRingBuffer

/-! ### The reader processes -/

/-- Where a reader process is. -/
inductive ReaderPc
  /-- In the loop `while (!g_stop_requested)`. -/
  | polling
  /-- Past the loop, and what follows it has run. -/
  | exited
  deriving DecidableEq, Repr

/-- The loop the recorder and the client process share: read at `read_seq`; on a message,
take it and advance; on nothing, do the idle work, and leave the loop once the server is
not running and `read_seq` is past its last push.  A reader program says what taking a
message, the idle work and the code after the loop do, and that only taking a message
moves `read_seq`. -/
structure ReaderProg (σ : Type) where
  readSeq : σ → Int
  take : σ → Msg → σ
  idle : σ → σ
  finish : σ → σ
  readSeq_take : ∀ st m, readSeq (take st m) = readSeq st + 1
  readSeq_idle : ∀ st, readSeq (idle st) = readSeq st
  readSeq_finish : ∀ st, readSeq (finish st) = readSeq st

/-- A reader process: its variables, where it is, its `g_stop_requested`, and the messages
its reads have returned, in order (a history kept for the proofs). -/
structure Reader (σ : Type) where
  st : σ
  pc : ReaderPc
  stopRequested : Bool
  seen : List Msg

namespace Reader

variable {σ : Type} (P : ReaderProg σ)

/-- A reader process that has just attached to the segment. -/
def attached (st : σ) : Reader σ := ⟨st, .polling, false, []⟩

/-- One iteration of the loop, or leaving it on a stop request. -/
def step (b : SharedRingBuffer) (r : Reader σ) : Option (Reader σ) :=
  match r.pc with
  | .exited => none
  | .polling =>
    if r.stopRequested then some { r with st := P.finish r.st, pc := .exited }
    else
      match b.read (P.readSeq r.st) with
      | some m => some { r with st := P.take r.st m, seen := r.seen ++ [m] }
      | none =>
        let st := P.idle r.st
        if !b.isServerRunning && P.readSeq st > b.getLatestSeq then
          some { r with st := P.finish st, pc := .exited }
        else some { r with st := st }

/-- The signal handler: set `g_stop_requested`. -/
def signal (r : Reader σ) : Option (Reader σ) :=
  match r.pc with
  | .polling => some { r with stopRequested := true }
  | .exited => none

/-- Take `n` steps in a row on an unchanging segment. -/
def stepN (b : SharedRingBuffer) : Nat → Reader σ → Option (Reader σ)
  | 0, r => some r
  | n + 1, r => (r.step P b).bind (stepN b n)

variable {P}

/-- **Everything one step of a reader can do.** -/
theorem step_cases {b : SharedRingBuffer} {r r' : Reader σ} (h : r.step P b = some r') :
    r.pc = .polling ∧
    ((r.stopRequested = true ∧ r' = { r with st := P.finish r.st, pc := .exited }) ∨
     (r.stopRequested = false ∧ ∃ m, b.read (P.readSeq r.st) = some m ∧
        r' = { r with st := P.take r.st m, seen := r.seen ++ [m] }) ∨
     (r.stopRequested = false ∧ b.read (P.readSeq r.st) = none ∧ b.serverRunning = false ∧
        b.writeSeq ≤ P.readSeq r.st ∧ r' = { r with st := P.finish (P.idle r.st), pc := .exited }) ∨
     (r.stopRequested = false ∧ b.read (P.readSeq r.st) = none ∧
        (b.serverRunning = true ∨ P.readSeq r.st < b.writeSeq) ∧
        r' = { r with st := P.idle r.st })) := by
  unfold step at h
  split at h
  · cases h
  · next hpc =>
    refine ⟨hpc, ?_⟩
    split at h
    · exact .inl ⟨‹_›, (Option.some.inj h).symm⟩
    · next hs =>
      simp only [Bool.not_eq_true] at hs
      split at h
      · next m hm => exact .inr (.inl ⟨hs, m, hm, (Option.some.inj h).symm⟩)
      · next hm =>
        simp only [SharedRingBuffer.isServerRunning, SharedRingBuffer.getLatestSeq,
          P.readSeq_idle, Bool.and_eq_true, Bool.not_eq_true', decide_eq_true_eq] at h
        split at h
        · next hx => exact .inr (.inr (.inl ⟨hs, hm, hx.1, by omega, (Option.some.inj h).symm⟩))
        · next hx =>
          refine .inr (.inr (.inr ⟨hs, hm, ?_, (Option.some.inj h).symm⟩))
          cases hr : b.serverRunning
          · exact .inr (by simp only [hr, true_and] at hx; omega)
          · exact .inl rfl

theorem signal_eq {r r' : Reader σ} (h : r.signal = some r') :
    r.pc = .polling ∧ r' = { r with stopRequested := true } := by
  unfold signal at h
  split at h
  · exact ⟨‹_›, (Option.some.inj h).symm⟩
  · cases h

/-- A property of a reader's variables, its place and what it has read, that taking a
message, the idle work and the code after the loop keep. -/
structure Keeps (P : ReaderProg σ) (A : σ → ReaderPc → List Msg → Prop) : Prop where
  take : ∀ st seen m, A st .polling seen → A (P.take st m) .polling (seen ++ [m])
  idle : ∀ st seen, A st .polling seen → A (P.idle st) .polling seen
  finish : ∀ st seen, A st .polling seen → A (P.finish st) .exited seen

theorem Keeps.step {A : σ → ReaderPc → List Msg → Prop} (hk : Keeps P A) {b : SharedRingBuffer}
    {r r' : Reader σ} (h : r.step P b = some r') (ha : A r.st r.pc r.seen) :
    A r'.st r'.pc r'.seen := by
  obtain ⟨hpc, ⟨-, rfl⟩ | ⟨-, m, -, rfl⟩ | ⟨-, -, -, -, rfl⟩ | ⟨-, -, -, rfl⟩⟩ :=
    step_cases h <;>
    simp only [hpc] at ha ⊢
  · exact hk.finish _ _ ha
  · exact hk.take _ _ _ ha
  · exact hk.finish _ _ (hk.idle _ _ ha)
  · exact hk.idle _ _ ha

theorem step_read {b : SharedRingBuffer} {R : Reader σ} {m : Msg} (hpc : R.pc = .polling)
    (hst : R.stopRequested = false) (hm : b.read (P.readSeq R.st) = some m) :
    R.step P b = some { R with st := P.take R.st m, seen := R.seen ++ [m] } := by
  simp [step, hpc, hst, hm]

theorem step_leave {b : SharedRingBuffer} {R : Reader σ} (hpc : R.pc = .polling)
    (hst : R.stopRequested = false) (hm : b.read (P.readSeq R.st) = none)
    (hrun : b.serverRunning = false) (hw : b.writeSeq ≤ P.readSeq R.st) :
    R.step P b = some { R with st := P.finish (P.idle R.st), pc := .exited } := by
  have : b.writeSeq - 1 < P.readSeq R.st := by omega
  simp [step, hpc, hst, hm, hrun, SharedRingBuffer.isServerRunning, SharedRingBuffer.getLatestSeq,
    P.readSeq_idle, this]

/-- **A reader running alone finishes**: on a segment holding `ms` whose server no longer
runs, a reader that is not a lap behind reads the rest of `ms` in order and leaves its
loop, in one step more than there are messages left. -/
theorem stepN_finish {b : SharedRingBuffer} {ms : List Msg} (hb : b.Holds ms)
    (hrun : b.serverRunning = false) (k : Nat) :
    ∀ R : Reader σ, ms.length - R.seen.length = k → R.pc = .polling → R.stopRequested = false →
      P.readSeq R.st = R.seen.length → ms.length ≤ R.seen.length + shmRingBufferSize →
      ∃ R', R.stepN P b (k + 1) = some R' ∧ R'.pc = .exited ∧ R'.stopRequested = false ∧
        R'.seen = R.seen ++ (List.range' R.seen.length k).map (pushedMsg ms) := by
  induction k with
  | zero =>
    intro R hk hpc hst hseq _
    have hm : b.read (P.readSeq R.st) = none := by
      rw [SharedRingBuffer.read_of_holds hb, if_neg (by omega)]
    refine ⟨{ R with st := P.finish (P.idle R.st), pc := .exited }, ?_, rfl, hst, by simp⟩
    show (R.step P b).bind (stepN P b 0) = _
    rw [step_leave hpc hst hm hrun (by have := hb.1; omega)]
    rfl
  | succ k ih =>
    intro R hk hpc hst hseq hl
    have hm : b.read (P.readSeq R.st) = some (pushedMsg ms R.seen.length) := by
      rw [SharedRingBuffer.read_of_holds hb, if_pos (by omega), hseq, Int.toNat_ofNat]
    obtain ⟨R', h1, h2, h3, h4⟩ := ih { R with
        st := P.take R.st (pushedMsg ms R.seen.length),
        seen := R.seen ++ [pushedMsg ms R.seen.length] }
      (by simp only [List.length_append, List.length_singleton]; omega) hpc hst
      (by simp [P.readSeq_take, hseq])
      (by simp only [List.length_append, List.length_singleton]; omega)
    refine ⟨R', ?_, h2, h3, ?_⟩
    · show (R.step P b).bind (stepN P b (k + 1)) = some R'
      rw [step_read hpc hst hm]
      exact h1
    · rw [h4, List.range'_succ]
      simp

end Reader

/-- The client process's loop variables. -/
structure IpcClient where
  readSeq : Int
  processedCount : Int
  sum : UInt64
  kahanC : UInt64

namespace IpcClient

/-- The variables when the loop starts. -/
def start : IpcClient := ⟨0, 0, 0, 0⟩

/-- A message read: add its payload to the Kahan sum, count it, advance. -/
def take (dbl : DoubleArith) (c : IpcClient) (msg : Msg) : IpcClient :=
  let acc := kahanStep dbl (c.sum, c.kahanC) msg.payload
  { c with
    sum := acc.1, kahanC := acc.2, processedCount := c.processedCount + 1,
    readSeq := c.readSeq + 1 }

/-- The client's variables after reading `seen`: the cursor and the count are its length,
the sum is the Kahan sum of its payloads. -/
structure Sums (dbl : DoubleArith) (c : IpcClient) (seen : List Msg) : Prop where
  readSeq : c.readSeq = seen.length
  processedCount : c.processedCount = seen.length
  sum : (c.sum, c.kahanC) = kahanFold dbl (seen.map Msg.payload)

end IpcClient

/-- The client process's loop; nothing happens when a read finds nothing, or after the
loop, but printing. -/
def clientProg (dbl : DoubleArith) : ReaderProg IpcClient :=
  ⟨IpcClient.readSeq, IpcClient.take dbl, id, id, fun _ _ => rfl, fun _ => rfl, fun _ => rfl⟩

theorem clientProg_keeps (dbl : DoubleArith) :
    Reader.Keeps (clientProg dbl) fun c _ seen => c.Sums dbl seen where
  take _ _ _ h := ⟨by simp [clientProg, IpcClient.take, h.readSeq],
    by simp [clientProg, IpcClient.take, h.processedCount],
    by simp [clientProg, IpcClient.take, ← h.sum]⟩
  idle _ _ h := h
  finish _ _ h := h

/-- The recorder process's loop variables and its log writer. -/
structure IpcRecorder where
  readSeq : Int
  recordedCount : Int
  expectedSum : UInt64
  kahanC : UInt64
  batch : List Msg
  channel : FileWriteChannel

namespace IpcRecorder

/-- The variables when the loop starts, the log opened (a log that fails to open ends the
process before). -/
def start : IpcRecorder := ⟨0, 0, 0, 0, [], FileWriteChannel.new.«open».2⟩

/-- Write every message of the batch, clear it, flush. -/
def writeBatch (r : IpcRecorder) : IpcRecorder :=
  { r with channel := r.channel.run (r.batch.map .write ++ [.flush]), batch := [] }

/-- A message read: buffer it, add it to the Kahan sum, count it, advance, and write the
batch once it holds `BATCH_SIZE` messages. -/
def take (dbl : DoubleArith) (r : IpcRecorder) (msg : Msg) : IpcRecorder :=
  let acc := kahanStep dbl (r.expectedSum, r.kahanC) msg.payload
  let r := { r with
    batch := r.batch ++ [msg], expectedSum := acc.1, kahanC := acc.2,
    recordedCount := r.recordedCount + 1, readSeq := r.readSeq + 1 }
  if r.batch.length ≥ batchSize then r.writeBatch else r

/-- "Write remaining data" when a read finds nothing: write a batch that is not empty. -/
def writeRemaining (r : IpcRecorder) : IpcRecorder := if r.batch.isEmpty then r else r.writeBatch

/-- After the loop: write what the batch holds and flush, without clearing it, then close
the log. -/
def finish (r : IpcRecorder) : IpcRecorder :=
  let ch := if r.batch.isEmpty then r.channel else r.channel.run (r.batch.map .write ++ [.flush])
  { r with channel := ch.close }

/-- The recorder's variables after reading `seen`: cursor, count and sum as the client's;
in the loop, the log has been given some calls that wrote the start of `seen` and the batch
holds the rest; past it, the log is closed after calls that wrote all of `seen`. -/
structure Logs (dbl : DoubleArith) (r : IpcRecorder) (pc : ReaderPc) (seen : List Msg) :
    Prop where
  readSeq : r.readSeq = seen.length
  recordedCount : r.recordedCount = seen.length
  sum : (r.expectedSum, r.kahanC) = kahanFold dbl (seen.map Msg.payload)
  log : ∃ calls,
    (pc = .polling ∧ r.channel = FileWriteChannel.new.«open».2.run calls ∧
      written calls ++ r.batch = seen) ∨
    (pc = .exited ∧ r.channel = (FileWriteChannel.new.«open».2.run calls).close ∧
      written calls = seen)

/-- Taking a message moves the cursor, the count and the sum, whether or not the batch is
then written. -/
theorem take_counters (dbl : DoubleArith) (r : IpcRecorder) (m : Msg) :
    (take dbl r m).readSeq = r.readSeq + 1 ∧ (take dbl r m).recordedCount = r.recordedCount + 1 ∧
      ((take dbl r m).expectedSum, (take dbl r m).kahanC) =
        kahanStep dbl (r.expectedSum, r.kahanC) m.payload := by
  dsimp only [take]
  split <;> exact ⟨rfl, rfl, rfl⟩

/-- Taking a message appends it to the batch, part of which may go to the log. -/
theorem take_log (dbl : DoubleArith) (r : IpcRecorder) (m : Msg) :
    ∃ w, (take dbl r m).channel = r.channel.run w ∧
      written w ++ (take dbl r m).batch = r.batch ++ [m] := by
  dsimp only [take]
  split
  · exact ⟨_, rfl, by
      simp only [writeBatch, written_append, written_map_write, written_flush, List.append_nil]⟩
  · exact ⟨[], rfl, by simp⟩

theorem writeRemaining_log (r : IpcRecorder) :
    r.writeRemaining =
        { r with channel := r.writeRemaining.channel, batch := r.writeRemaining.batch } ∧
      ∃ w, r.writeRemaining.channel = r.channel.run w ∧
        written w ++ r.writeRemaining.batch = r.batch := by
  unfold writeRemaining
  split
  · exact ⟨rfl, [], rfl, by simp⟩
  · exact ⟨rfl, _, rfl, by
      simp only [writeBatch, written_append, written_map_write, written_flush, List.append_nil]⟩

theorem finish_log (r : IpcRecorder) :
    r.finish = { r with channel := r.finish.channel } ∧
      ∃ w, r.finish.channel = (r.channel.run w).close ∧ written w = r.batch := by
  unfold finish
  split
  · next h => exact ⟨rfl, [], rfl, by simp [List.isEmpty_iff.mp h]⟩
  · exact ⟨rfl, _, rfl, by
      simp only [written_append, written_map_write, written_flush, List.append_nil]⟩

end IpcRecorder

/-- The recorder process's loop. -/
def recorderProg (dbl : DoubleArith) : ReaderProg IpcRecorder where
  readSeq := IpcRecorder.readSeq
  take := IpcRecorder.take dbl
  idle := IpcRecorder.writeRemaining
  finish := IpcRecorder.finish
  readSeq_take _ _ := by dsimp only [IpcRecorder.take, IpcRecorder.writeBatch]; split <;> rfl
  readSeq_idle _ := by
    dsimp only [IpcRecorder.writeRemaining, IpcRecorder.writeBatch]; split <;> rfl
  readSeq_finish _ := rfl

@[simp] theorem recorderProg_idle (dbl : DoubleArith) :
    (recorderProg dbl).idle = IpcRecorder.writeRemaining := rfl

@[simp] theorem recorderProg_finish (dbl : DoubleArith) :
    (recorderProg dbl).finish = IpcRecorder.finish := rfl

theorem recorderProg_keeps (dbl : DoubleArith) :
    Reader.Keeps (recorderProg dbl) fun r pc seen => r.Logs dbl pc seen where
  take r seen m h := by
    obtain ⟨calls, ⟨-, hch, hw⟩ | ⟨h', -⟩⟩ := h.log
    · obtain ⟨h1, h2, h3⟩ := IpcRecorder.take_counters dbl r m
      obtain ⟨w, hc, hw'⟩ := IpcRecorder.take_log dbl r m
      refine ⟨by simp [recorderProg, h1, h.readSeq], by simp [recorderProg, h2, h.recordedCount],
        by simp [recorderProg, h3, h.sum], calls ++ w, .inl ⟨rfl, ?_, ?_⟩⟩
      · simp [recorderProg, hc, hch]
      · simp only [recorderProg, written_append, List.append_assoc, hw', ← hw]
    · cases h'
  idle r seen h := by
    obtain ⟨calls, ⟨-, hch, hw⟩ | ⟨h', -⟩⟩ := h.log
    · obtain ⟨he, w, hc, hw'⟩ := IpcRecorder.writeRemaining_log r
      refine ⟨?_, ?_, ?_, calls ++ w, .inl ⟨rfl, ?_, ?_⟩⟩ <;> rw [recorderProg_idle]
      · rw [he]; exact h.readSeq
      · rw [he]; exact h.recordedCount
      · rw [he]; exact h.sum
      · rw [hc, hch, FileWriteChannel.run_append]
      · rw [written_append, List.append_assoc, hw', hw]
    · cases h'
  finish r seen h := by
    obtain ⟨calls, ⟨-, hch, hw⟩ | ⟨h', -⟩⟩ := h.log
    · obtain ⟨he, w, hc, hw'⟩ := IpcRecorder.finish_log r
      refine ⟨?_, ?_, ?_, calls ++ w, .inr ⟨rfl, ?_, by rw [written_append, hw', hw]⟩⟩ <;>
        rw [recorderProg_finish]
      · rw [he]; exact h.readSeq
      · rw [he]; exact h.recordedCount
      · rw [he]; exact h.sum
      · rw [hc, hch, FileWriteChannel.run_append]
    · cases h'

/-! ### The server process -/

/-- Where the server process is. -/
inductive ServerPc
  /-- `createSharedMemory` has created, sized and mapped the segment; `init` is next. -/
  | creating
  /-- The loop head `i < message_count && !g_stop_requested`, for message `i`. -/
  | loop (i : Int)
  /-- The loop condition held: message `i` is generated and pushed next. -/
  | pushing (i : Int)
  /-- The loop is over: `cleanupSharedMemory` is next. -/
  | done
  /-- `cleanupSharedMemory` has cleared `server_running`, and `main` has returned. -/
  | exited
  /-- An integer division by zero has killed the process: `1000000000 / message_rate` with
  a zero rate, or the progress check `(i + 1) % (message_count / 10)` with fewer than ten
  messages. -/
  | divByZero
  deriving DecidableEq, Repr

/-- The server process and the segment it created: the segment, where the server is, its
`g_stop_requested`, and the messages it has pushed, as it generated them (a history kept
for the proofs). -/
structure IpcServer where
  ring : SharedRingBuffer
  pc : ServerPc
  stopRequested : Bool
  produced : List Msg

namespace IpcServer

/-- The segment just created and zero-filled, before `init`. -/
def created : IpcServer := ⟨SharedRingBuffer.zeroed, .creating, false, []⟩

/-- The messages as the server published them, under sequence numbers `0, 1, …`. -/
def published (v : IpcServer) : List Msg :=
  (List.range v.produced.length).map (pushedMsg v.produced)

section Model

variable (messageCount messageRate : Int)

/-- The server's step: `init` and the rate control's `1000000000 / message_rate`; the loop
check; a push and the progress check `(i + 1) % (message_count / 10)`; the clean-up.
(`message_count` is positive at the progress check, where `/` truncates as in C++.) -/
def step (v : IpcServer) (timestampNs : Int) (payload : UInt64) : Option IpcServer :=
  match v.pc with
  | .creating =>
    some { v with ring := v.ring.init, pc := if messageRate = 0 then .divByZero else .loop 0 }
  | .loop i =>
    some { v with pc := if i < messageCount ∧ v.stopRequested = false then .pushing i else .done }
  | .pushing i =>
    let msg : Msg := ⟨invalidSeq, timestampNs, payload⟩
    let ring := (v.ring.push msg).2
    some { v with
      ring := { ring with totalMessages := ring.totalMessages + 1 },
      produced := v.produced ++ [msg],
      pc := if messageCount / 10 = 0 then .divByZero else .loop (i + 1) }
  | .done => some { v with ring := { v.ring with serverRunning := false }, pc := .exited }
  | .exited | .divByZero => none

end Model

/-- The signal handler: set `g_stop_requested`, and clear `server_running` while the
segment is mapped. -/
def signal (v : IpcServer) : Option IpcServer :=
  match v.pc with
  | .exited | .divByZero => none
  | _ => some { v with stopRequested := true, ring := { v.ring with serverRunning := false } }

/-- The server will push nothing more: it has returned or died, or its stop request is set
and it is neither about to initialise nor about to push. -/
def Quiet (v : IpcServer) : Prop :=
  v.pc = .exited ∨ v.pc = .divByZero ∨
    (v.stopRequested = true ∧ v.pc ≠ .creating ∧ ∀ i, v.pc ≠ .pushing i)

/-- Where a reader that left its loop by itself after `init`, having read `n` messages,
stands: the server is not running, and it has pushed at most one message more than the
reader read, that one only after a stop request, and nothing after it. -/
def LeftAfter (v : IpcServer) (n : Nat) : Prop :=
  v.ring.serverRunning = false ∧ v.pc ≠ .creating ∧
    ((v.produced.length ≤ n ∧ (v.Quiet ∨ v.stopRequested = true ∧ ∃ i, v.pc = .pushing i)) ∨
      (v.produced.length = n + 1 ∧ v.stopRequested = true ∧ v.Quiet))

/-- The invariant of the server and the segment. -/
structure Inv (messageCount messageRate : Int) (v : IpcServer) : Prop where
  creating : v.pc = .creating → v.ring = SharedRingBuffer.zeroed ∧ v.produced = []
  holds : v.pc ≠ .creating → v.ring.Holds v.produced
  stopped : v.pc ≠ .creating → v.ring.serverRunning = false →
    v.pc = .exited ∨ v.stopRequested = true
  exited : v.pc = .exited → v.ring.serverRunning = false
  counter : ∀ i, (v.pc = .loop i ∨ v.pc = .pushing i) →
    i = v.produced.length ∧ (0 < i → messageCount / 10 ≠ 0)
  pushing : ∀ i, v.pc = .pushing i → i < messageCount
  le : (v.produced.length : Int) ≤ max messageCount 0
  finished : v.pc = .done ∨ v.pc = .exited → v.stopRequested = false →
    (v.produced.length : Int) = max messageCount 0
  divByZero : v.pc = .divByZero → (messageRate = 0 ∧ v.produced = []) ∨
    (0 < messageCount ∧ messageCount < 10 ∧ v.produced.length = 1)

section Steps

variable {messageCount messageRate : Int} {v v' : IpcServer}

/-- **Everything one step of the server can do.** -/
theorem step_cases {t : Int} {p : UInt64} (h : v.step messageCount messageRate t p = some v') :
    (v.pc = .creating ∧
      v' = { v with ring := v.ring.init, pc := if messageRate = 0 then .divByZero else .loop 0 }) ∨
    (∃ i, v.pc = .loop i ∧
      v' = { v with
        pc := if i < messageCount ∧ v.stopRequested = false then .pushing i else .done }) ∨
    (∃ i, v.pc = .pushing i ∧ v' = { v with
      ring := { (v.ring.push ⟨invalidSeq, t, p⟩).2 with
        totalMessages := (v.ring.push ⟨invalidSeq, t, p⟩).2.totalMessages + 1 },
      produced := v.produced ++ [⟨invalidSeq, t, p⟩],
      pc := if messageCount / 10 = 0 then .divByZero else .loop (i + 1) }) ∨
    (v.pc = .done ∧
      v' = { v with ring := { v.ring with serverRunning := false }, pc := .exited }) := by
  unfold step at h
  split at h
  · exact .inl ⟨‹_›, (Option.some.inj h).symm⟩
  · exact .inr (.inl ⟨_, ‹_›, (Option.some.inj h).symm⟩)
  · exact .inr (.inr (.inl ⟨_, ‹_›, (Option.some.inj h).symm⟩))
  · exact .inr (.inr (.inr ⟨‹_›, (Option.some.inj h).symm⟩))
  · cases h
  · cases h

theorem signal_eq (h : v.signal = some v') :
    v.pc ≠ .exited ∧ v.pc ≠ .divByZero ∧
      v' = { v with stopRequested := true, ring := { v.ring with serverRunning := false } } := by
  unfold signal at h
  split at h
  · cases h
  · cases h
  · next h1 h2 => exact ⟨h1, h2, (Option.some.inj h).symm⟩

/-- A step of the server only appends to its pushes. -/
theorem step_produced {t : Int} {p : UInt64} (h : v.step messageCount messageRate t p = some v') :
    ∃ ext, v'.produced = v.produced ++ ext := by
  rcases step_cases h with ⟨-, rfl⟩ | ⟨-, -, rfl⟩ | ⟨-, -, rfl⟩ | ⟨-, rfl⟩ <;>
    first | exact ⟨_, rfl⟩ | exact ⟨_, (List.append_nil _).symm⟩

theorem Inv.step (h : Inv messageCount messageRate v) {t : Int} {p : UInt64}
    (hs : v.step messageCount messageRate t p = some v') : Inv messageCount messageRate v' := by
  rcases step_cases hs with ⟨hc, rfl⟩ | ⟨i, hc, rfl⟩ | ⟨i, hc, rfl⟩ | ⟨hc, rfl⟩
  · obtain ⟨-, hp⟩ := h.creating hc
    by_cases hr : messageRate = 0 <;>
      refine ⟨?_, fun _ => hp ▸ SharedRingBuffer.init_holds _, fun _ h' => ?_,
        ?_, ?_, ?_, ?_, ?_, ?_⟩ <;>
      simp_all [SharedRingBuffer.init]
  · obtain ⟨hi, hpos⟩ := h.counter i (.inl hc)
    have hst : v.ring.serverRunning = false → v.stopRequested = true := fun h' =>
      (h.stopped (by simp [hc]) h').resolve_left (by simp [hc])
    by_cases hcond : i < messageCount ∧ v.stopRequested = false
    · rw [if_pos hcond]
      refine ⟨by simp, fun _ => h.holds (by simp [hc]), fun _ h' => .inr (hst h'), by simp,
        ?_, fun j hj => ?_, h.le, by simp, by simp⟩
      · rintro j (hj | hj) <;> cases hj
        exact ⟨hi, hpos⟩
      · cases hj; exact hcond.1
    · rw [if_neg hcond]
      refine ⟨by simp, fun _ => h.holds (by simp [hc]), fun _ h' => .inr (hst h'), by simp,
        by simp, by simp, h.le, fun _ hf => ?_, by simp⟩
      have := h.le
      have hf' : v.stopRequested = false := hf
      simp only [hf', and_true, not_lt] at hcond
      dsimp only
      omega
  · obtain ⟨hi, hpos⟩ := h.counter i (.inr hc)
    have hlt := h.pushing i hc
    have hst : v.ring.serverRunning = false → v.stopRequested = true := fun h' =>
      (h.stopped (by simp [hc]) h').resolve_left (by simp [hc])
    have hle :
        ((v.produced ++ [(⟨invalidSeq, t, p⟩ : Msg)]).length : Int) ≤ max messageCount 0 := by
      simp only [List.length_append, List.length_singleton, Nat.cast_add, Nat.cast_one]; omega
    have hholds := SharedRingBuffer.push_holds (h.holds (by simp [hc])) ⟨invalidSeq, t, p⟩
    by_cases hz : messageCount / 10 = 0
    · rw [if_pos hz]
      refine ⟨by simp, fun _ => hholds, fun _ h' => .inr (hst h'), by simp, by simp, by simp, hle,
        by simp, fun _ => ?_⟩
      have : i = 0 := by by_contra h0; exact hpos (by omega) hz
      right
      simp only [List.length_append, List.length_singleton]
      omega
    · rw [if_neg hz]
      refine ⟨by simp, fun _ => hholds, fun _ h' => .inr (hst h'), by simp, ?_, by simp, hle,
        by simp, by simp⟩
      rintro j (hj | hj) <;> cases hj
      exact ⟨by simp [hi], fun _ => hz⟩
  · refine ⟨by simp, fun _ => h.holds (by simp [hc]), fun _ _ => .inl rfl, fun _ => rfl,
      by simp, by simp, h.le, fun _ hf => h.finished (.inl hc) hf, by simp⟩

theorem Inv.signal (h : Inv messageCount messageRate v) (hs : v.signal = some v') :
    Inv messageCount messageRate v' := by
  obtain ⟨h1, h2, rfl⟩ := signal_eq hs
  refine ⟨fun hc => ?_, h.holds, fun _ _ => .inr rfl, fun hc => absurd hc h1, h.counter, h.pushing,
    h.le, fun _ hf => absurd hf (by simp), fun hc => absurd hc h2⟩
  obtain ⟨hr, hp⟩ := h.creating hc
  exact ⟨by rw [hr]; rfl, hp⟩

theorem quiet_or_pushing (h : Inv messageCount messageRate v) (hc : v.pc ≠ .creating)
    (hr : v.ring.serverRunning = false) :
    v.Quiet ∨ (v.stopRequested = true ∧ ∃ i, v.pc = .pushing i) := by
  rcases h.stopped hc hr with hx | hst
  · exact .inl (.inl hx)
  · unfold Quiet
    cases hs : v.pc with
    | creating => exact absurd hs hc
    | pushing i => exact .inr ⟨hst, i, rfl⟩
    | _ => simp [hst]

/-- A reader that leaves its loop by itself after `init` stands as `LeftAfter` says. -/
theorem leftAfter_of_exit (h : Inv messageCount messageRate v) (hc : v.pc ≠ .creating)
    (hrun : v.ring.serverRunning = false) {n : Nat} (hw : v.ring.writeSeq ≤ n) : v.LeftAfter n :=
  ⟨hrun, hc, .inl ⟨by have := (h.holds hc).1; omega, quiet_or_pushing h hc hrun⟩⟩

/-- **Where a reader that has left stands, the server's steps keep**: the one push the
server still makes after the reader left needs a stop request, and nothing follows it. -/
theorem LeftAfter.step (h : Inv messageCount messageRate v) {n : Nat} {t : Int}
    {p : UInt64} (hl : v.LeftAfter n) (hs : v.step messageCount messageRate t p = some v') :
    v'.LeftAfter n := by
  obtain ⟨hr, hc, hw⟩ := hl
  have hst : v.pc ≠ .exited → v.stopRequested = true := (h.stopped hc hr).resolve_left
  rcases step_cases hs with ⟨hc', -⟩ | ⟨i, hi, rfl⟩ | ⟨i, hi, rfl⟩ | ⟨hi, rfl⟩ <;>
    replace hst := hst (by simp [*])
  · exact absurd hc' hc
  · have hq : Quiet { v with
        pc := if i < messageCount ∧ v.stopRequested = false then .pushing i else .done } :=
      .inr (.inr ⟨hst, by simp [hst], by simp [hst]⟩)
    refine ⟨hr, by simp [hst], ?_⟩
    rcases hw with ⟨hle, -⟩ | ⟨heq, -, -⟩
    exacts [.inl ⟨hle, .inl hq⟩, .inr ⟨heq, hst, hq⟩]
  · have hq : Quiet { v with
        ring := { (v.ring.push ⟨invalidSeq, t, p⟩).2 with
          totalMessages := (v.ring.push ⟨invalidSeq, t, p⟩).2.totalMessages + 1 },
        produced := v.produced ++ [⟨invalidSeq, t, p⟩],
        pc := if messageCount / 10 = 0 then .divByZero else .loop (i + 1) } := by
      split_ifs
      exacts [.inr (.inl rfl), .inr (.inr ⟨hst, by simp, by simp⟩)]
    refine ⟨hr, by split_ifs <;> simp, ?_⟩
    rcases hw with ⟨hle, -⟩ | ⟨-, -, hq'⟩
    · simp only [List.length_append, List.length_singleton]
      rcases Nat.lt_or_eq_of_le hle with hlt | heq
      exacts [.inl ⟨hlt, .inl hq⟩, .inr ⟨by omega, hst, hq⟩]
    · exact absurd hq' (by simp [Quiet, hi])
  · refine ⟨rfl, by simp, ?_⟩
    rcases hw with ⟨hle, -⟩ | ⟨heq, -, -⟩
    exacts [.inl ⟨hle, .inl (.inl rfl)⟩, .inr ⟨heq, hst, .inl rfl⟩]

theorem LeftAfter.signal {n : Nat} (hl : v.LeftAfter n) (hs : v.signal = some v') :
    v'.LeftAfter n := by
  obtain ⟨h1, h2, rfl⟩ := signal_eq hs
  obtain ⟨-, hc, hw⟩ := hl
  have hq : v.Quiet →
      Quiet { v with stopRequested := true, ring := { v.ring with serverRunning := false } } :=
    fun hq => hq.imp id (Or.imp id fun ⟨_, h⟩ => ⟨rfl, h⟩)
  refine ⟨rfl, hc, ?_⟩
  rcases hw with ⟨hle, hq' | ⟨-, i, hi⟩⟩ | ⟨heq, -, hq'⟩
  exacts [.inl ⟨hle, .inl (hq hq')⟩, .inl ⟨hle, .inr ⟨rfl, i, hi⟩⟩, .inr ⟨heq, rfl, hq hq'⟩]

end Steps

end IpcServer

/-! ### What a reader has read -/

/-- `seen` against the pushes `ms`: the message pushed under each sequence number in turn,
except that the first may be the zero message of slot 0, read before `init`. -/
def ReadsPushes (ms seen : List Msg) : Prop :=
  ∀ k (hk : k < seen.length),
    (k < ms.length ∧ seen[k] = pushedMsg ms k) ∨ (k = 0 ∧ seen[k] = zeroMsg)

theorem ReadsPushes.append {ms seen : List Msg} (h : ReadsPushes ms seen)
    (ext : List Msg) : ReadsPushes (ms ++ ext) seen := fun k hk =>
  (h k hk).imp_left fun ⟨hlt, he⟩ =>
    ⟨by simp only [List.length_append]; omega, he.trans (pushedMsg_append_of_lt ext hlt).symm⟩

/-- A reader that has read nothing pushed has read nothing, or the zero message. -/
theorem ReadsPushes.nil {seen : List Msg} (h : ReadsPushes [] seen) :
    seen = [] ∨ seen = [zeroMsg] := by
  match seen, h with
  | [], _ => exact .inl rfl
  | [m], h => exact .inr (by rcases h 0 (by simp) with ⟨h0, -⟩ | ⟨-, h0⟩ <;> simp_all)
  | _ :: _ :: _, h => exact absurd (h 1 (by simp)) (by simp)

/-- What a reader running `P` has read, and where it stands once it has left its loop. -/
structure ReaderInv {σ : Type} (P : ReaderProg σ) (v : IpcServer) (R : Reader σ) : Prop where
  readSeq : P.readSeq R.st = R.seen.length
  reads : ReadsPushes v.produced R.seen
  exited : R.pc = .exited → R.stopRequested = true ∨ R.seen = [zeroMsg] ∨
    v.LeftAfter R.seen.length

section ReaderSteps

variable {messageCount messageRate : Int} {v : IpcServer} {σ : Type}
  {P : ReaderProg σ} {R R' : Reader σ}

/-- A message read at the end of what a reader has read is the next one pushed, or before
`init` the zero message at sequence 0. -/
theorem ReadsPushes.snoc (h : v.Inv messageCount messageRate)
    (hr : ReadsPushes v.produced R.seen) {m : Msg} (hm : v.ring.read R.seen.length = some m) :
    ReadsPushes v.produced (R.seen ++ [m]) := by
  intro k hk
  simp only [List.length_append, List.length_singleton] at hk
  rcases Nat.lt_succ_iff_lt_or_eq.mp hk with hk | rfl
  · rw [List.getElem_append_left hk]; exact hr k hk
  · rw [List.getElem_append_right (Nat.le_refl _)]
    simp only [Nat.sub_self, List.getElem_singleton]
    by_cases hc : v.pc = .creating
    · rw [(h.creating hc).1, SharedRingBuffer.zeroed_read] at hm
      split_ifs at hm with h0
      · cases hm; exact .inr ⟨by omega, rfl⟩
    · rw [SharedRingBuffer.read_of_holds (h.holds hc)] at hm
      split_ifs at hm with hw
      cases hm
      exact .inl ⟨by omega, by simp⟩

/-- **A reader's own step keeps what it has read and where it stands.** -/
theorem ReaderInv.step (h : v.Inv messageCount messageRate) (hr : ReaderInv P v R)
    (hs : R.step P v.ring = some R') : ReaderInv P v R' := by
  obtain ⟨hpc, ⟨hst, rfl⟩ | ⟨-, m, hm, rfl⟩ | ⟨-, hm, hrun, hw, rfl⟩ | ⟨-, -, -, rfl⟩⟩ :=
    Reader.step_cases hs
  · exact ⟨by simp [P.readSeq_finish, hr.readSeq], hr.reads, fun _ => .inl hst⟩
  · refine ⟨by simp [P.readSeq_take, hr.readSeq], ?_,
      fun hx => absurd (hpc.symm.trans hx) (by simp)⟩
    rw [hr.readSeq] at hm
    exact hr.reads.snoc h hm
  · refine ⟨by simp [P.readSeq_finish, P.readSeq_idle, hr.readSeq], hr.reads, fun _ => .inr ?_⟩
    rw [hr.readSeq] at hm hw
    by_cases hc : v.pc = .creating
    · obtain ⟨hz, hp⟩ := h.creating hc
      rw [hz, SharedRingBuffer.zeroed_read] at hm
      have hnil : ReadsPushes [] R.seen := hp ▸ hr.reads
      rcases hnil.nil with h0 | h0
      · simp [h0] at hm
      · exact .inl h0
    · exact .inr (IpcServer.leftAfter_of_exit h hc hrun hw)
  · exact ⟨by simp [P.readSeq_idle, hr.readSeq], hr.reads,
      fun hx => absurd (hpc.symm.trans hx) (by simp)⟩

theorem ReaderInv.signal (hr : ReaderInv P v R) (hs : R.signal = some R') :
    ReaderInv P v R' := by
  obtain ⟨hpc, rfl⟩ := Reader.signal_eq hs
  exact ⟨hr.readSeq, hr.reads, fun hx => absurd (hpc.symm.trans hx) (by simp)⟩

theorem ReaderInv.serverStep (h : v.Inv messageCount messageRate) (hr : ReaderInv P v R)
    {v' : IpcServer} {t : Int} {p : UInt64} (hs : v.step messageCount messageRate t p = some v') :
    ReaderInv P v' R := by
  obtain ⟨ext, he⟩ := IpcServer.step_produced hs
  exact ⟨hr.readSeq, he ▸ hr.reads.append ext,
    fun hx => (hr.exited hx).imp_right (Or.imp_right fun hl => hl.step h hs)⟩

theorem ReaderInv.serverSignal (hr : ReaderInv P v R) {v' : IpcServer}
    (hs : v.signal = some v') : ReaderInv P v' R := by
  have hp : v'.produced = v.produced := by rw [(IpcServer.signal_eq hs).2.2]
  exact ⟨hr.readSeq, hp ▸ hr.reads,
    fun hx => (hr.exited hx).imp_right (Or.imp_right fun hl => hl.signal hs)⟩

/-- A reader that has left its loop by itself read everything pushed, but possibly one
message pushed after a stop request, or read the zero message before `init`. -/
theorem ReaderInv.exited_by_itself (hr : ReaderInv P v R) (hx : R.pc = .exited)
    (hstop : R.stopRequested = false) :
    R.seen = [zeroMsg] ∨ v.produced.length ≤ R.seen.length ∨
      (v.produced.length = R.seen.length + 1 ∧ v.stopRequested = true) := by
  rcases hr.exited hx with h1 | h1 | ⟨-, -, ⟨hle, -⟩ | ⟨heq, hst, -⟩⟩
  · simp [hstop] at h1
  · exact .inl h1
  · exact .inr (.inl hle)
  · exact .inr (.inr ⟨heq, hst⟩)

end ReaderSteps

/-! ### The three processes -/

/-- The server with its segment, the recorder and the client. -/
structure IpcSys where
  server : IpcServer
  recorder : Reader IpcRecorder
  client : Reader IpcClient

/-- What can happen next. -/
inductive IpcEvent
  /-- The server takes a step; a push sends a message with this timestamp and payload. -/
  | server (timestampNs : Int) (payload : UInt64)
  /-- `SIGINT` or `SIGTERM` reaches the server. -/
  | serverSignal
  /-- The recorder takes a step. -/
  | recorder
  /-- A signal reaches the recorder. -/
  | recorderSignal
  /-- The client takes a step. -/
  | client
  /-- A signal reaches the client. -/
  | clientSignal
  deriving DecidableEq, Repr

/-- The two reader processes. -/
inductive Role
  | recorder
  | client
  deriving DecidableEq, Repr

/-- A step of the reader. -/
def Role.event : Role → IpcEvent
  | .recorder => .recorder
  | .client => .client

namespace IpcSys

/-- What the reader has read. -/
def seen (s : IpcSys) : Role → List Msg
  | .recorder => s.recorder.seen
  | .client => s.client.seen

/-- The reader's `read_seq`. -/
def readSeq (s : IpcSys) : Role → Int
  | .recorder => s.recorder.st.readSeq
  | .client => s.client.st.readSeq

/-- Where the reader is. -/
def readerPc (s : IpcSys) : Role → ReaderPc
  | .recorder => s.recorder.pc
  | .client => s.client.pc

/-- The reader's `g_stop_requested`. -/
def readerStop (s : IpcSys) : Role → Bool
  | .recorder => s.recorder.stopRequested
  | .client => s.client.stopRequested

/-- The segment just created and zero-filled, before `init`, with both readers attached
at sequence 0. -/
def created : IpcSys :=
  ⟨IpcServer.created, Reader.attached IpcRecorder.start, Reader.attached IpcClient.start⟩

section Model

variable (dbl : DoubleArith) (messageCount messageRate : Int)

/-- One event; `none` when it cannot happen. -/
def step (s : IpcSys) : IpcEvent → Option IpcSys
  | .server t p => (s.server.step messageCount messageRate t p).map fun v => { s with server := v }
  | .serverSignal => s.server.signal.map fun v => { s with server := v }
  | .recorder =>
    (s.recorder.step (recorderProg dbl) s.server.ring).map fun r => { s with recorder := r }
  | .recorderSignal => s.recorder.signal.map fun r => { s with recorder := r }
  | .client => (s.client.step (clientProg dbl) s.server.ring).map fun c => { s with client := c }
  | .clientSignal => s.client.signal.map fun c => { s with client := c }

/-- Take the events in turn; `none` as soon as one cannot happen. -/
def run (s : IpcSys) : List IpcEvent → Option IpcSys
  | [] => some s
  | e :: es => (step dbl messageCount messageRate s e).bind fun s' => run s' es

/-- One step of some process. -/
def Next (s s' : IpcSys) : Prop := ∃ e, step dbl messageCount messageRate s e = some s'

/-- The states a run from `created` reaches: the three processes and the signals, in any
interleaving. -/
def Reachable (s : IpcSys) : Prop :=
  Relation.ReflTransGen (Next dbl messageCount messageRate) created s

/-- The invariant of the three processes. -/
structure Inv (s : IpcSys) : Prop where
  server : s.server.Inv messageCount messageRate
  recorder : ReaderInv (recorderProg dbl) s.server s.recorder
  client : ReaderInv (clientProg dbl) s.server s.client
  logs : s.recorder.st.Logs dbl s.recorder.pc s.recorder.seen
  sums : s.client.st.Sums dbl s.client.seen

end Model

section Runs

variable {dbl : DoubleArith} {messageCount messageRate : Int} {s s' : IpcSys}

/-- One step of the system moves each reader by its own step on the segment as it was, by
its signal, or not at all, and only appends to the pushes. -/
theorem step_moves {e : IpcEvent} (hs : step dbl messageCount messageRate s e = some s') :
    (s'.recorder = s.recorder ∨
      s.recorder.step (recorderProg dbl) s.server.ring = some s'.recorder ∨
      s.recorder.signal = some s'.recorder) ∧
    (s'.client = s.client ∨ s.client.step (clientProg dbl) s.server.ring = some s'.client ∨
      s.client.signal = some s'.client) ∧
    (∃ ext, s'.server.produced = s.server.produced ++ ext) := by
  cases e with
  | server t p =>
    obtain ⟨v, hv, rfl⟩ := Option.map_eq_some'.mp hs
    exact ⟨.inl rfl, .inl rfl, IpcServer.step_produced hv⟩
  | serverSignal =>
    obtain ⟨v, hv, rfl⟩ := Option.map_eq_some'.mp hs
    exact ⟨.inl rfl, .inl rfl, [], by rw [(IpcServer.signal_eq hv).2.2, List.append_nil]⟩
  | recorder =>
    obtain ⟨R, hR, rfl⟩ := Option.map_eq_some'.mp hs
    exact ⟨.inr (.inl hR), .inl rfl, [], by simp⟩
  | recorderSignal =>
    obtain ⟨R, hR, rfl⟩ := Option.map_eq_some'.mp hs
    exact ⟨.inr (.inr hR), .inl rfl, [], by simp⟩
  | client =>
    obtain ⟨C, hC, rfl⟩ := Option.map_eq_some'.mp hs
    exact ⟨.inl rfl, .inr (.inl hC), [], by simp⟩
  | clientSignal =>
    obtain ⟨C, hC, rfl⟩ := Option.map_eq_some'.mp hs
    exact ⟨.inl rfl, .inr (.inr hC), [], by simp⟩

/-- **Every step keeps the invariant.** -/
theorem Inv.step {e : IpcEvent} (h : Inv dbl messageCount messageRate s)
    (hs : step dbl messageCount messageRate s e = some s') :
    Inv dbl messageCount messageRate s' := by
  cases e with
  | server t p =>
    obtain ⟨v, hv, rfl⟩ := Option.map_eq_some'.mp hs
    exact ⟨h.server.step hv, h.recorder.serverStep h.server hv, h.client.serverStep h.server hv,
      h.logs, h.sums⟩
  | serverSignal =>
    obtain ⟨v, hv, rfl⟩ := Option.map_eq_some'.mp hs
    exact ⟨h.server.signal hv, h.recorder.serverSignal hv, h.client.serverSignal hv, h.logs,
      h.sums⟩
  | recorder =>
    obtain ⟨R, hR, rfl⟩ := Option.map_eq_some'.mp hs
    exact ⟨h.server, h.recorder.step h.server hR, h.client,
      (recorderProg_keeps dbl).step hR h.logs, h.sums⟩
  | recorderSignal =>
    obtain ⟨R, hR, rfl⟩ := Option.map_eq_some'.mp hs
    obtain ⟨-, rfl⟩ := Reader.signal_eq hR
    exact ⟨h.server, h.recorder.signal hR, h.client, h.logs, h.sums⟩
  | client =>
    obtain ⟨C, hC, rfl⟩ := Option.map_eq_some'.mp hs
    exact ⟨h.server, h.recorder, h.client.step h.server hC,
      h.logs, (clientProg_keeps dbl).step hC h.sums⟩
  | clientSignal =>
    obtain ⟨C, hC, rfl⟩ := Option.map_eq_some'.mp hs
    obtain ⟨-, rfl⟩ := Reader.signal_eq hC
    exact ⟨h.server, h.recorder, h.client.signal hC, h.logs, h.sums⟩

/-- The invariant holds along every run from a state where it holds. -/
theorem Inv.steps (h : Inv dbl messageCount messageRate s)
    (hr : Relation.ReflTransGen (Next dbl messageCount messageRate) s s') :
    Inv dbl messageCount messageRate s' := by
  induction hr with
  | refl => exact h
  | tail _ hn ih => obtain ⟨e, he⟩ := hn; exact ih.step he

theorem created_inv : Inv dbl messageCount messageRate created :=
  ⟨by constructor <;> simp [created, IpcServer.created],
    ⟨rfl, nofun, by simp [created, Reader.attached]⟩,
    ⟨rfl, nofun, by simp [created, Reader.attached]⟩,
    ⟨rfl, rfl, rfl, [], .inl ⟨rfl, rfl, rfl⟩⟩, ⟨rfl, rfl, rfl⟩⟩

/-- **The invariant holds in every reachable state.** -/
theorem reachable_inv (h : Reachable dbl messageCount messageRate s) :
    Inv dbl messageCount messageRate s := created_inv.steps h

theorem run_steps {es : List IpcEvent} (h : run dbl messageCount messageRate s es = some s') :
    Relation.ReflTransGen (Next dbl messageCount messageRate) s s' := by
  induction es generalizing s with
  | nil => cases h; exact .refl
  | cons e es ih =>
    obtain ⟨s₁, h₁, h₂⟩ := Option.bind_eq_some.mp h
    exact .head ⟨e, h₁⟩ (ih h₂)

theorem run_replicate_recorder (s : IpcSys) (n : Nat) :
    run dbl messageCount messageRate s (List.replicate n .recorder) =
      (s.recorder.stepN (recorderProg dbl) s.server.ring n).map
        fun R => { s with recorder := R } := by
  induction n generalizing s with
  | zero => rfl
  | succ n ih =>
    simp only [List.replicate_succ, run, step, Reader.stepN]
    cases s.recorder.step (recorderProg dbl) s.server.ring with
    | none => rfl
    | some R => exact ih _

theorem run_replicate_client (s : IpcSys) (n : Nat) :
    run dbl messageCount messageRate s (List.replicate n .client) =
      (s.client.stepN (clientProg dbl) s.server.ring n).map fun C => { s with client := C } := by
  induction n generalizing s with
  | zero => rfl
  | succ n ih =>
    simp only [List.replicate_succ, run, step, Reader.stepN]
    cases s.client.step (clientProg dbl) s.server.ring with
    | none => rfl
    | some C => exact ih _

theorem Inv.readSeq_role (h : Inv dbl messageCount messageRate s) (r : Role) :
    s.readSeq r = (s.seen r).length := by
  cases r
  exacts [h.recorder.readSeq, h.client.readSeq]

end Runs

/-! ### What the three processes guarantee -/

section Guarantees

variable {dbl : DoubleArith} {messageCount messageRate : Int} {s s' : IpcSys}

/-- **Once the server has cleaned up, a reader that is not a lap behind finishes on its
own**: running alone, it reads the remaining messages in order and leaves its loop, in
exactly one step more than there are messages left. -/
theorem reader_finishes (hs : Reachable dbl messageCount messageRate s)
    (hsrv : s.server.pc = .exited) (r : Role) (hpc : s.readerPc r = .polling)
    (hstop : s.readerStop r = false)
    (hl : (s.server.produced.length : Int) ≤ s.readSeq r + shmRingBufferSize) :
    ∃ s', run dbl messageCount messageRate s
        (List.replicate (s.server.produced.length - (s.seen r).length + 1) r.event) = some s' ∧
      s'.readerPc r = .exited ∧ s'.readerStop r = false ∧
      s'.seen r = s.seen r ++ (List.range' (s.seen r).length
        (s.server.produced.length - (s.seen r).length)).map (pushedMsg s.server.produced) := by
  have h := reachable_inv hs
  have hb := h.server.holds (by simp [hsrv])
  have hrun := h.server.exited hsrv
  have hl' : s.server.produced.length ≤ (s.seen r).length + shmRingBufferSize := by
    have := h.readSeq_role r
    omega
  cases r
  · obtain ⟨R', h1, h2, h3, h4⟩ :=
      Reader.stepN_finish hb hrun _ s.recorder rfl hpc hstop h.recorder.readSeq hl'
    refine ⟨{ s with recorder := R' }, ?_, h2, h3, h4⟩
    rw [Role.event, run_replicate_recorder]
    exact congrArg (Option.map _) h1
  · obtain ⟨C', h1, h2, h3, h4⟩ :=
      Reader.stepN_finish hb hrun _ s.client rfl hpc hstop h.client.readSeq hl'
    refine ⟨{ s with client := C' }, ?_, h2, h3, h4⟩
    rw [Role.event, run_replicate_client]
    exact congrArg (Option.map _) h1

/-- After the server has pushed ten messages and returned, the recorder reads them in eleven
steps. -/
theorem reader_finishes_after_ten_messages :
    ∃ s, run ⟨(· + ·), (· - ·)⟩ 10 1 created (List.replicate 23 (.server 0 0)) = some s ∧
      s.server.pc = .exited ∧ s.readerPc .recorder = .polling ∧
      s.readerStop .recorder = false ∧
      ∃ s', run ⟨(· + ·), (· - ·)⟩ 10 1 s (List.replicate
          (s.server.produced.length - (s.seen .recorder).length + 1) Role.recorder.event) =
            some s' ∧
        s'.readerPc .recorder = .exited ∧ s'.readerStop .recorder = false ∧
        s'.seen .recorder = s.seen .recorder ++
          (List.range' (s.seen .recorder).length
            (s.server.produced.length - (s.seen .recorder).length)).map
              (pushedMsg s.server.produced) :=
  ⟨_, rfl, rfl, rfl, rfl, reader_finishes
    (@run_steps ⟨(· + ·), (· - ·)⟩ 10 1 _ _ (List.replicate 23 (.server 0 0)) rfl)
    rfl .recorder rfl rfl (by decide)⟩

/-- **What the server does**, in every reachable state: it never pushes more than
`--messages` messages; it dies of a division by zero only with `--rate=0`, before pushing
anything, or with 1 to 9 messages, right after its first push; and once it has returned
without a stop request it has pushed exactly `max(--messages, 0)` messages. -/
theorem server_outcome (hs : Reachable dbl messageCount messageRate s) :
    (s.server.produced.length : Int) ≤ max messageCount 0 ∧
    (s.server.pc = .divByZero → (messageRate = 0 ∧ s.server.produced = []) ∨
      (0 < messageCount ∧ messageCount < 10 ∧ s.server.produced.length = 1)) ∧
    (s.server.pc = .exited → s.server.stopRequested = false →
      (s.server.produced.length : Int) = max messageCount 0) :=
  let h := (reachable_inv hs).server
  ⟨h.le, h.divByZero, fun hx => h.finished (.inr hx)⟩

/-- Five messages: the progress check divides by `5 / 10 = 0` after the first push. -/
theorem server_outcome_five_messages :
    ∃ s, run ⟨(· + ·), (· - ·)⟩ 5 1 created (List.replicate 3 (.server 0 0)) = some s ∧
      s.server.pc = .divByZero ∧
      (s.server.produced.length : Int) ≤ max 5 0 ∧
      (s.server.pc = .divByZero → ((1 : Int) = 0 ∧ s.server.produced = []) ∨
        (0 < (5 : Int) ∧ (5 : Int) < 10 ∧ s.server.produced.length = 1)) ∧
      (s.server.pc = .exited → s.server.stopRequested = false →
        (s.server.produced.length : Int) = max 5 0) :=
  ⟨_, rfl, rfl,
    server_outcome (@run_steps ⟨(· + ·), (· - ·)⟩ 5 1 _ _ (List.replicate 3 (.server 0 0)) rfl)⟩

/-- **A server killed by a division by zero leaves the readers waiting for ever**: unless
it got a stop request first, it never cleared `server_running`, so no reader has left its
loop by itself after `init`; only a signal ends a reader. -/
theorem readers_hang_after_divByZero (hs : Reachable dbl messageCount messageRate s)
    (hd : s.server.pc = .divByZero) (hstop : s.server.stopRequested = false) (r : Role) :
    s.server.ring.serverRunning = true ∧
      (s.readerPc r = .exited → s.readerStop r = true ∨ s.seen r = [zeroMsg]) := by
  have h := reachable_inv hs
  have hrun : s.server.ring.serverRunning = true := by
    by_contra hr
    rcases h.server.stopped (by simp [hd]) (by simpa using hr) with hx | hx
    · simp [hd] at hx
    · simp [hstop] at hx
  have key : ∀ {σ : Type} {P : ReaderProg σ} {R : Reader σ}, ReaderInv P s.server R →
      R.pc = .exited → R.stopRequested = true ∨ R.seen = [zeroMsg] := fun hr hx => by
    rcases hr.exited hx with h1 | h1 | ⟨h1, -⟩
    exacts [.inl h1, .inr h1, by simp [hrun] at h1]
  refine ⟨hrun, ?_⟩
  cases r
  exacts [key h.recorder, key h.client]

/-- Five messages: the server dies after its first push, with `server_running` still set. -/
theorem readers_hang_after_divByZero_five_messages :
    ∃ s, run ⟨(· + ·), (· - ·)⟩ 5 1 created (List.replicate 3 (.server 0 0)) = some s ∧
      s.server.pc = .divByZero ∧ s.server.stopRequested = false ∧
      s.server.ring.serverRunning = true ∧
        (s.readerPc .recorder = .exited →
          s.readerStop .recorder = true ∨ s.seen .recorder = [zeroMsg]) :=
  ⟨_, rfl, rfl, rfl, readers_hang_after_divByZero
    (@run_steps ⟨(· + ·), (· - ·)⟩ 5 1 _ _ (List.replicate 3 (.server 0 0)) rfl) rfl rfl .recorder⟩

end Guarantees

end IpcSys

end Ipc

end Replay
