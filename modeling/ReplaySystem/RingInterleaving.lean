import Mathlib.Logic.Function.Iterate
import ReplaySystem.Ring

/-!
# The ring at the granularity of loads and stores

`RingBuffer` of `ReplaySystem.Ring` takes each `push` and each `readEx` as one atomic step.
Here the single producer and a consumer are interleaved at the granularity of their
memory accesses, as the source writes them:

* `push` and `pushBatch`: one `fetch_add` on `write_seq_`, then for each message the load
  of the slot's published sequence, the stores of the three message fields, the store that
  patches `seq_num`, and the release store of the published sequence;
* `readEx`: the load of the published sequence, the copy of the three fields, the fence
  and the re-load.

The seqlock check of `readEx` compares the published sequence before and after the copy.
The producer rewrites a slot's fields before it publishes the new sequence, so a copy that
overlaps those stores still sees the old sequence twice: `readEx` then returns `OK` with a
message whose fields come from two generations.

## Main definitions

* `Fine.Mem`, `Fine.Producer`, `Fine.Reader` — the memory, the producer thread and a
  thread inside `readEx`.
* `Fine.step`, `Fine.runSched` — one access of the thread a schedule picks; a schedule.

## Main results

* `Fine.readAlone`, `Fine.writeAlone` — a `readEx` or a slot write that the other thread
  does not interrupt is the atomic model's `readEx` or `publish`.
* `Fine.torn_read_returns_ok` — a schedule under which `readEx` returns `OK` with a torn
  message.
-/

namespace Replay

namespace Fine

/-! ### Memory -/

/-- The cells of one slot: the three fields of its message and its published sequence. -/
structure SlotCells where
  seqNum : Int
  timestampNs : Int
  payload : UInt64
  seq : Int
  deriving DecidableEq, Repr

/-- A slot as the constructor leaves it. -/
def SlotCells.empty : SlotCells := ⟨invalidSeq, 0, 0, invalidSeq⟩

/-- The ring's memory: the slots, `write_seq_` and `overwrite_count_`. -/
structure Mem where
  buffer : Nat → SlotCells
  writeSeq : Int
  overwriteCount : Int

/-- The freshly constructed ring. -/
def Mem.init : Mem := ⟨fun _ => .empty, 0, 0⟩

/-- A store into slot `i`. -/
def Mem.store (mem : Mem) (i : Nat) (f : SlotCells → SlotCells) : Mem :=
  { mem with buffer := fun j => if j = i then f (mem.buffer i) else mem.buffer j }

/-- The memory read as the atomic model's ring. -/
def Mem.toRing (mem : Mem) : RingBuffer :=
  ⟨fun i => ⟨⟨(mem.buffer i).seqNum, (mem.buffer i).timestampNs, (mem.buffer i).payload⟩,
    (mem.buffer i).seq⟩, mem.writeSeq, mem.overwriteCount⟩

/-! ### The producer -/

/-- The accesses of one slot write, in program order. -/
inductive WriteStage
  /-- Load the slot's published sequence (`old_seq`). -/
  | loadOld
  /-- `slot.msg = msg`: store `seq_num`. -/
  | copySeqNum
  /-- `slot.msg = msg`: store `timestamp_ns`. -/
  | copyTimestamp
  /-- `slot.msg = msg`: store `payload`. -/
  | copyPayload
  /-- `slot.msg.seq_num = seq`. -/
  | patchSeqNum
  /-- `slot.seq.store(seq, release)`. -/
  | publish
  deriving DecidableEq, Repr

/-- The producer: the calls it has still to make, and the messages of the current call still
to write, the first at sequence `seq` and at `stage`. -/
structure Producer where
  calls : List RingCall
  batch : List Msg
  seq : Int
  stage : WriteStage

/-- One access of the producer; `none` when it has made all its calls. -/
def producerStep (C : Capacity) (mem : Mem) (p : Producer) : Option (Mem × Producer) :=
  match p.batch with
  | [] =>
    match p.calls with
    | [] => none
    | c :: cs =>
      if c.msgs.isEmpty then some (mem, { p with calls := cs })
      else some ({ mem with writeSeq := mem.writeSeq + c.msgs.length },
        ⟨cs, c.msgs, mem.writeSeq, .loadOld⟩)
  | m :: rest =>
    let i := slotIndex C p.seq
    match p.stage with
    | .loadOld =>
      some (if (mem.buffer i).seq ≠ invalidSeq then
          { mem with overwriteCount := mem.overwriteCount + 1 } else mem,
        { p with stage := .copySeqNum })
    | .copySeqNum =>
      some (mem.store i fun s => { s with seqNum := m.seqNum }, { p with stage := .copyTimestamp })
    | .copyTimestamp =>
      some (mem.store i fun s => { s with timestampNs := m.timestampNs },
        { p with stage := .copyPayload })
    | .copyPayload =>
      some (mem.store i fun s => { s with payload := m.payload }, { p with stage := .patchSeqNum })
    | .patchSeqNum =>
      some (mem.store i fun s => { s with seqNum := p.seq }, { p with stage := .publish })
    | .publish =>
      some (mem.store i fun s => { s with seq := p.seq },
        { p with batch := rest, seq := p.seq + 1, stage := .loadOld })

/-! ### A reader inside `readEx` -/

/-- The accesses of `readEx`, in program order, and its result. -/
inductive ReadStage
  /-- Load the published sequence. -/
  | loadFirst
  /-- `local_msg = slot.msg`: load `seq_num`. -/
  | copySeqNum
  /-- `local_msg = slot.msg`: load `timestamp_ns`. -/
  | copyTimestamp
  /-- `local_msg = slot.msg`: load `payload`. -/
  | copyPayload
  /-- The fence and the re-load. -/
  | recheck
  /-- `readEx` has returned. -/
  | done (result : ReadResult)
  deriving DecidableEq, Repr

/-- A thread inside `readEx(expected)`, with its copy of the message. -/
structure Reader where
  expected : Int
  localMsg : Msg
  stage : ReadStage

/-- One access of the reader; `none` once `readEx` has returned. -/
def readerStep (C : Capacity) (mem : Mem) (r : Reader) : Option Reader :=
  let slot := mem.buffer (slotIndex C r.expected)
  match r.stage with
  | .loadFirst =>
    if r.expected < 0 then some { r with stage := .done ⟨.notReady, Msg.empty⟩ }
    else if slot.seq = r.expected then some { r with stage := .copySeqNum }
    else if slot.seq > r.expected then some { r with stage := .done ⟨.overwritten, Msg.empty⟩ }
    else some { r with stage := .done ⟨.notReady, Msg.empty⟩ }
  | .copySeqNum =>
    some { r with localMsg := { r.localMsg with seqNum := slot.seqNum }, stage := .copyTimestamp }
  | .copyTimestamp =>
    some { r with
      localMsg := { r.localMsg with timestampNs := slot.timestampNs }, stage := .copyPayload }
  | .copyPayload =>
    some { r with localMsg := { r.localMsg with payload := slot.payload }, stage := .recheck }
  | .recheck =>
    if slot.seq = r.expected then some { r with stage := .done ⟨.ok, r.localMsg⟩ }
    else some { r with stage := .done ⟨.overwritten, Msg.empty⟩ }
  | .done _ => none

/-! ### Interleavings -/

/-- The producer, one reader and the memory they share. -/
structure State where
  mem : Mem
  producer : Producer
  reader : Reader

/-- The producer about to make `calls` and a reader about to run `readEx(e)`, on a fresh
ring. -/
def State.init (calls : List RingCall) (e : Int) : State :=
  ⟨.init, ⟨calls, [], 0, .loadOld⟩, ⟨e, Msg.empty, .loadFirst⟩⟩

/-- The thread a schedule runs next. -/
inductive Thread
  | producer
  | reader
  deriving DecidableEq, Repr

/-- One access of thread `t`; `none` when `t` has nothing left to do. -/
def step (C : Capacity) (s : State) : Thread → Option State
  | .producer => (producerStep C s.mem s.producer).map fun r => { s with mem := r.1, producer := r.2 }
  | .reader => (readerStep C s.mem s.reader).map fun r => { s with reader := r }

/-- The state after a schedule, each of whose steps must be enabled. -/
def runSched (C : Capacity) (s : State) : List Thread → Option State
  | [] => some s
  | t :: ts => (step C s t).bind fun s' => runSched C s' ts

/-! ### A read that nothing interrupts -/

/-- **An uninterrupted read is the atomic read.**  Five reader steps with no producer step
between them end `readEx` with the result the atomic model's `readEx` gives on the same
memory (or end it earlier, at its first load). -/
theorem readAlone (C : Capacity) (mem : Mem) (e : Int) (m0 : Msg) :
    ∃ n ≤ 5, (Nat.iterate (fun r => (r.bind (readerStep C mem))) n
      (some ⟨e, m0, .loadFirst⟩)).map Reader.stage =
        some (.done ((mem.toRing).readEx C e)) := by
  by_cases he : e < 0
  · exact ⟨1, by omega, by simp [readerStep, he, RingBuffer.readEx]⟩
  by_cases h1 : (mem.buffer (slotIndex C e)).seq = e
  · exact ⟨5, le_rfl, by simp [readerStep, he, h1, RingBuffer.readEx, Mem.toRing]⟩
  by_cases h2 : (mem.buffer (slotIndex C e)).seq > e
  · exact ⟨1, by omega, by simp [readerStep, he, h1, h2, RingBuffer.readEx, Mem.toRing]⟩
  · exact ⟨1, by omega, by simp [readerStep, he, h1, h2, RingBuffer.readEx, Mem.toRing]⟩

/-- **An uninterrupted slot write is the atomic `publish`.**  The six accesses of one slot
write, with no reader step between them, change the memory as the atomic model's
`publish` changes the ring. -/
theorem writeAlone (C : Capacity) (mem : Mem) (calls : List RingCall) (m : Msg)
    (rest : List Msg) (seq : Int) :
    (Nat.iterate (fun o => o.bind fun r => producerStep C r.1 r.2) 6
      (some (mem, ⟨calls, m :: rest, seq, .loadOld⟩))).map (fun r => r.1.toRing) =
        some (RingBuffer.publish C mem.toRing seq m) := by
  -- the load of `old_seq` touches only the overwrite count
  obtain ⟨mem1, hmem1, hbuf, hws⟩ : ∃ mem1 : Mem,
      (if (mem.buffer (slotIndex C seq)).seq ≠ invalidSeq then
        { mem with overwriteCount := mem.overwriteCount + 1 } else mem) = mem1 ∧
      mem1.buffer = mem.buffer ∧ mem1.writeSeq = mem.writeSeq :=
    ⟨_, rfl, by split_ifs <;> rfl, by split_ifs <;> rfl⟩
  simp only [Function.iterate_succ, Function.iterate_zero, Function.comp_apply, id_eq, Option.bind,
    producerStep, Option.map_some', Option.some.injEq, hmem1]
  simp only [Mem.toRing, Mem.store, RingBuffer.publish, RingBuffer.mk.injEq, hbuf]
  refine ⟨funext fun j => ?_, hws, ?_⟩
  · by_cases hj : j = slotIndex C seq
    · subst hj; simp
    · simp [hj, Function.update_noteq hj]
  · rw [← hmem1]; split_ifs <;> rfl

/-! ### A torn read -/

/-- A ring of one slot. -/
def oneSlot : Capacity := ⟨1, ⟨0, rfl⟩⟩

/-- The schedule of the torn read: the first push whole; `readEx(0)` loads the published
sequence, `seq_num` and `timestamp_ns`; the second push stores its fields and patches
`seq_num` but does not publish; `readEx(0)` loads `payload`, re-loads the sequence, and
returns. -/
def tornSchedule : List Thread :=
  List.replicate 7 .producer ++ List.replicate 3 .reader ++ List.replicate 6 .producer ++
    List.replicate 2 .reader

/-- **A torn `OK`.**  Two pushes into a ring of one slot, and `readEx(0)` interleaved with
the second: `readEx` returns `OK` with sequence number and timestamp of the first message
and the payload of the second, while the message pushed with sequence number `0` has the
first message's payload. -/
theorem torn_read_returns_ok :
    (runSched oneSlot (.init [.push ⟨7, 10, 20⟩, .push ⟨8, 11, 21⟩] 0) tornSchedule).map
        (fun s => s.reader.stage) = some (.done ⟨.ok, ⟨0, 10, 21⟩⟩) ∧
      pushedMsg [⟨7, 10, 20⟩, ⟨8, 11, 21⟩] 0 = ⟨0, 10, 20⟩ := by
  decide

end Fine

end Replay
