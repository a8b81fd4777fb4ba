import Mathlib.Data.Int.Interval
import ReplaySystem.Ring
import ReplaySystem.Log

/-!
# The recorder

`MktDataRecorder::run` reads the ring through its own cursor and appends every message it
reads to the log, in batches: a message of sequence number above the last one is added to
`batch_buffer_` and to the Kahan sum, and the batch is written and flushed when it is full
or the ring has nothing new.  When the recorder is lapped (`OVERWRITTEN`) it jumps ahead,
to at least the next sequence and at least half a ring behind the head, and counts the
loss.  `stop` writes what is left and closes the log.

The recorder runs against the single producer, each `push`/`pushBatch` and each `readEx`
one atomic step (`ReplaySystem.Ring`).  An iteration of `run` is one step, except that the
`OVERWRITTEN` branch reads the ring a second time, for its head, in a step of its own.

## Main definitions

* `Recorder`, `Recorder.writeBatch`, `Recorder.loopStep`, `Recorder.lappedStep`.
* `RecSys` — the producer, the recorder thread and `stop`, as one state machine, with the
  writer's calls kept as its history.
* `RecSys.Inv` — the recorder's invariant.

## Main results

* `RecSys.reachable_inv` — the invariant holds in every reachable state.
* `RecSys.recorder_records` — what the log and the batch hold, in every reachable state.
-/

namespace Replay

/-! ### The recorder thread -/

/-- The recorder's state: its cursor, the accumulator of INV-R1, the batch, the log writer
and the metrics. -/
structure Recorder where
  cursor : Int
  lastSeq : Int
  recordedCount : Int
  expectedSum : UInt64
  kahanC : UInt64
  batch : List Msg
  batchSize : Nat
  channel : FileWriteChannel
  seqGapCount : Int
  overwriteCount : Int

/-- The program points of the recorder thread. -/
inductive RecorderPc
  /-- The head of `run`'s loop. -/
  | loop
  /-- `OVERWRITTEN` at `seq`: about to read the ring's head. -/
  | lapped (seq : Int)
  /-- `run` has returned. -/
  | exited
  /-- `stop` has written the rest and closed the log. -/
  | stopped
  deriving DecidableEq, Repr

namespace Recorder

/-- The state `start` leaves, with the log opened (a writer that fails to open does not
start). -/
def started (batchSize : Nat) : Recorder :=
  ⟨0, invalidSeq, 0, 0, 0, [], batchSize, FileWriteChannel.new.«open».2, 0, 0⟩

/-- `writeBatch`: write every message of the batch, clear it, flush.  Also returns the
calls made on the writer. -/
def writeBatch (r : Recorder) : Recorder × List WriterCall :=
  let calls := r.batch.map .write ++ [.flush]
  ({ r with channel := r.channel.run calls, batch := [] }, calls)

/-- `writeBatch` if the batch is not empty. -/
def writeIfAny (r : Recorder) : Recorder × List WriterCall :=
  if r.batch.isEmpty then (r, []) else r.writeBatch

/-- Record a message read at the cursor `seq` (the `OK` branch past the order check). -/
def record (dbl : DoubleArith) (r : Recorder) (seq : Int) (msg : Msg) : Recorder :=
  let prev := r.lastSeq
  let gap := if prev ≠ invalidSeq ∧ msg.seqNum ≠ prev + 1 then msg.seqNum - prev - 1 else 0
  let acc := kahanStep dbl (r.expectedSum, r.kahanC) msg.payload
  { r with
    seqGapCount := r.seqGapCount + gap, batch := r.batch ++ [msg], expectedSum := acc.1,
    kahanC := acc.2, lastSeq := msg.seqNum, recordedCount := r.recordedCount + 1,
    cursor := seq + 1 }

/-- One iteration of `run`'s loop after the stop check: read the ring at the cursor.
Returns the recorder, where the thread goes on, and the calls made on the writer. -/
def loopStep (dbl : DoubleArith) (C : Capacity) (rb : RingBuffer) (r : Recorder) :
    Recorder × RecorderPc × List WriterCall :=
  let seq := r.cursor
  let result := rb.readEx C seq
  match result.status with
  | .ok =>
    if r.lastSeq ≠ invalidSeq ∧ result.msg.seqNum ≤ r.lastSeq then
      ({ r with cursor := seq + 1 }, .loop, [])
    else
      let r := r.record dbl seq result.msg
      if r.batch.length ≥ r.batchSize then
        let w := r.writeBatch
        (w.1, .loop, w.2)
      else (r, .loop, [])
  | .overwritten => ({ r with overwriteCount := r.overwriteCount + 1 }, .lapped seq, [])
  | .notReady =>
    let w := r.writeIfAny
    (w.1, .loop, w.2)

/-- The rest of an `OVERWRITTEN` iteration at `seq`, with `latest` the ring's head: jump to
at least `seq + 1` and at least half a ring behind the head, then write what the batch
holds. -/
def lappedStep (C : Capacity) (latest seq : Int) (r : Recorder) : Recorder × List WriterCall :=
  let r := if latest ≥ 0 then { r with cursor := max (seq + 1) (latest - (C.val : Int) / 2) }
    else { r with cursor := seq + 1 }
  r.writeIfAny

/-! ### Writes and reads -/

/-- `writeBatch` passes the batch to `write`, and changes nothing but the writer and the
batch. -/
theorem writeBatch_spec (r : Recorder) :
    r.writeBatch.1 = { r with channel := r.channel.run r.writeBatch.2, batch := [] } ∧
      written r.writeBatch.2 = r.batch := ⟨rfl, by simp [writeBatch]⟩

theorem writeIfAny_spec (r : Recorder) :
    r.writeIfAny.1 = { r with channel := r.channel.run r.writeIfAny.2, batch := r.writeIfAny.1.batch } ∧
      written r.writeIfAny.2 ++ r.writeIfAny.1.batch = r.batch := by
  unfold writeIfAny
  split
  · exact ⟨rfl, by simp⟩
  · exact ⟨rfl, by simp [writeBatch]⟩

@[simp] theorem writeIfAny_overwriteCount (r : Recorder) :
    r.writeIfAny.1.overwriteCount = r.overwriteCount := by
  rw [(writeIfAny_spec r).1]

/-- One iteration on a ring holding the pushes `p`, by the position of the cursor: past the
head it writes what the batch holds; a ring behind it is lapped; otherwise it records the
pushed message, unless INV-R1 drops it. -/
theorem loopStep_ringOf (dbl : DoubleArith) (C : Capacity) (r : Recorder) (p : List Msg) :
    r.loopStep dbl C (ringOf C p) =
      if r.cursor < 0 ∨ p.length ≤ r.cursor then (r.writeIfAny.1, .loop, r.writeIfAny.2)
      else if r.cursor + C.val < p.length then
        ({ r with overwriteCount := r.overwriteCount + 1 }, .lapped r.cursor, [])
      else if r.lastSeq ≠ invalidSeq ∧ r.cursor ≤ r.lastSeq then
        ({ r with cursor := r.cursor + 1 }, .loop, [])
      else
        let r' := r.record dbl r.cursor (pushedMsg p r.cursor.toNat)
        if r'.batch.length ≥ r'.batchSize then (r'.writeBatch.1, .loop, r'.writeBatch.2)
        else (r', .loop, []) := by
  simp only [loopStep, RingBuffer.readEx_ringOf]
  by_cases h1 : r.cursor < 0 ∨ p.length ≤ r.cursor
  · simp only [if_pos h1]
  by_cases h2 : r.cursor + C.val < p.length
  · simp only [if_neg h1, if_pos h2]
  have hseq : (pushedMsg p r.cursor.toNat).seqNum = r.cursor := by simp; omega
  simp only [if_neg h1, if_neg h2, hseq]

/-- An iteration counts at most one more lap. -/
theorem overwriteCount_le_loopStep (dbl : DoubleArith) (C : Capacity) (rb : RingBuffer)
    (r : Recorder) : r.overwriteCount ≤ (r.loopStep dbl C rb).1.overwriteCount := by
  simp only [loopStep]
  split
  · split_ifs <;> simp [record, writeBatch]
  · simp
  · simp

/-! ### The recorder's counters -/

/-- How many sequence numbers between the first and the last of `ms` are not in `ms`, for
a strictly increasing `ms`. -/
def gapsOf (ms : List Msg) : Int :=
  if ms = [] then 0 else lastSeqOf ms - firstSeqOf ms + 1 - ms.length

/-- The sequence numbers from the first to the last of `ms` that no message of `ms` has. -/
def missingSeqs (ms : List Msg) : Finset Int :=
  if ms = [] then ∅ else Finset.Icc (firstSeqOf ms) (lastSeqOf ms) \ (ms.map Msg.seqNum).toFinset

/-- For strictly increasing non-negative sequence numbers, `gapsOf` counts the missing
ones. -/
theorem card_missingSeqs {ms : List Msg} (hs : ms.Pairwise (fun a b => a.seqNum < b.seqNum))
    (hnn : ∀ m ∈ ms, 0 ≤ m.seqNum) : ((missingSeqs ms).card : Int) = gapsOf ms := by
  rcases eq_or_ne ms [] with rfl | hne
  · rfl
  obtain ⟨y, ys, hy⟩ := List.exists_cons_of_ne_nil hne
  obtain ⟨zs, z, hz⟩ := (List.eq_nil_or_concat ms).resolve_left hne
  have hfirst : firstSeqOf ms = y.seqNum := by
    rw [hy]; exact firstSeqOf_cons (by have := hnn y (by simp [hy]); rw [invalidSeq_eq]; omega) ys
  have hlast : lastSeqOf ms = z.seqNum := by rw [hz, List.concat_eq_append, lastSeqOf_append_singleton]
  -- every sequence number lies between the first and the last
  have hsub : (ms.map Msg.seqNum).toFinset ⊆ Finset.Icc y.seqNum z.seqNum := by
    intro x hx
    obtain ⟨m, hm, rfl⟩ := List.mem_map.1 (List.mem_toFinset.1 hx)
    have h1 : y.seqNum ≤ m.seqNum := by
      rw [hy] at hm hs
      rcases List.mem_cons.1 hm with rfl | hm
      · exact le_rfl
      · exact Int.le_of_lt (List.rel_of_pairwise_cons hs hm)
    have h2 : m.seqNum ≤ z.seqNum := by
      rw [hz, List.concat_eq_append] at hm hs
      rcases List.mem_append.1 hm with hm | hm
      · exact Int.le_of_lt (List.pairwise_append.1 hs |>.2.2 m hm z (by simp))
      · rw [List.mem_singleton.1 hm]
    exact Finset.mem_Icc.2 ⟨h1, h2⟩
  have hnd : (ms.map Msg.seqNum).Nodup :=
    (List.pairwise_map.2 hs).imp (fun h => Int.ne_of_lt h)
  have hyz : y.seqNum ≤ z.seqNum :=
    (Finset.mem_Icc.1 (hsub (List.mem_toFinset.2 (List.mem_map.2 ⟨y, by simp [hy], rfl⟩)))).2
  have hle := Finset.card_le_card hsub
  rw [Int.card_Icc, List.toFinset_card_of_nodup hnd, List.length_map] at hle
  rw [missingSeqs, if_neg hne, hfirst, hlast, Finset.card_sdiff hsub, Int.card_Icc,
    List.toFinset_card_of_nodup hnd, List.length_map, gapsOf, if_neg hne, hfirst, hlast,
    Nat.cast_sub hle]
  omega

/-- What the recorder's counters say about the records `recs` it has taken from the ring,
of the messages `produced` so far: they are the producer's messages under increasing
sequence numbers below the cursor, and the counters, the sum and the gap count are theirs;
a recorder never lapped has taken `0, 1, …` with nothing missing. -/
structure Counts (dbl : DoubleArith) (produced recs : List Msg) (r : Recorder) : Prop where
  sorted : recs.Pairwise (fun a b => a.seqNum < b.seqNum)
  pushed : ∀ m ∈ recs,
    0 ≤ m.seqNum ∧ m.seqNum < produced.length ∧ m = pushedMsg produced m.seqNum.toNat
  below : ∀ m ∈ recs, m.seqNum < r.cursor
  cursor : 0 ≤ r.cursor
  count : r.recordedCount = recs.length
  sum : (r.expectedSum, r.kahanC) = kahanFold dbl (recs.map Msg.payload)
  last : r.lastSeq = lastSeqOf recs
  gaps : r.seqGapCount = gapsOf recs
  overwrites : 0 ≤ r.overwriteCount
  contiguous : r.overwriteCount = 0 →
    recs.map Msg.seqNum = (List.range recs.length).map Int.ofNat ∧ r.cursor = recs.length

namespace Counts

variable {dbl : DoubleArith} {p recs : List Msg} {r : Recorder}

theorem started (dbl : DoubleArith) (batchSize : Nat) : Counts dbl [] [] (started batchSize) :=
  ⟨.nil, by simp, by simp, Int.le_refl 0, rfl, rfl, rfl, rfl, Int.le_refl 0, fun _ => ⟨rfl, rfl⟩⟩

/-- The recorder never takes a message at or below the last one it recorded: INV-R1's
drop branch is dead. -/
theorem not_dup (h : Counts dbl p recs r) : ¬(r.lastSeq ≠ invalidSeq ∧ r.cursor ≤ r.lastSeq) := by
  rcases lastSeqOf_cases recs with hl | ⟨m, hm, hl⟩
  · rw [h.last, hl]; simp
  · have := h.below m hm
    rw [h.last, hl]; omega

theorem produce (h : Counts dbl p recs r) (more : List Msg) : Counts dbl (p ++ more) recs r :=
  { h with
    pushed := fun m hm => by
      obtain ⟨h0, hlt, heq⟩ := h.pushed m hm
      refine ⟨h0, by simp; omega, ?_⟩
      rw [pushedMsg_append_of_lt _ (by omega)]; exact heq }

/-- The writer and the batch are not counters. -/
theorem io (h : Counts dbl p recs r) (ch : FileWriteChannel) (b : List Msg) :
    Counts dbl p recs { r with channel := ch, batch := b } :=
  ⟨h.sorted, h.pushed, h.below, h.cursor, h.count, h.sum, h.last, h.gaps, h.overwrites,
    h.contiguous⟩

theorem overwrite (h : Counts dbl p recs r) :
    Counts dbl p recs { r with overwriteCount := r.overwriteCount + 1 } :=
  { h with
    overwrites := by have := h.overwrites; simp only; omega
    contiguous := fun h0 => absurd h0 (by have := h.overwrites; simp only; omega) }

theorem jump (h : Counts dbl p recs r) (hpos : 0 < r.overwriteCount) {c : Int} (hc : r.cursor ≤ c) :
    Counts dbl p recs { r with cursor := c } :=
  { h with
    below := fun m hm => by have := h.below m hm; simp only; omega
    cursor := by have := h.cursor; simp only; omega
    contiguous := fun h0 => absurd h0 (by simp only; omega) }

/-- The gap count after one more record, above all the others. -/
theorem gapsOf_append (hs : ∀ m ∈ recs, 0 ≤ m.seqNum) (m : Msg) :
    gapsOf (recs ++ [m]) = gapsOf recs +
      if lastSeqOf recs ≠ invalidSeq ∧ m.seqNum ≠ lastSeqOf recs + 1 then
        m.seqNum - lastSeqOf recs - 1 else 0 := by
  induction recs using List.reverseRecOn with
  | nil => simp [gapsOf, firstSeqOf, lastSeqOf]
  | append_singleton rs x _ =>
    obtain ⟨y, ys, hy⟩ := List.exists_cons_of_ne_nil
      (List.append_ne_nil_of_right_ne_nil rs (List.cons_ne_nil x []))
    have hy0 := hs y (by rw [hy]; simp)
    have hx0 := hs x (by simp)
    have hfirst : firstSeqOf (rs ++ [x]) = y.seqNum := by
      rw [hy]; exact firstSeqOf_cons (by rw [invalidSeq_eq]; omega) ys
    have hfirst' : firstSeqOf (rs ++ [x] ++ [m]) = y.seqNum := by
      rw [firstSeqOf_append_singleton, hfirst, if_neg (by rw [invalidSeq_eq]; omega)]
    unfold gapsOf
    rw [if_neg (by simp), if_neg (by simp), hfirst', hfirst, lastSeqOf_append_singleton,
      lastSeqOf_append_singleton]
    simp only [List.length_append, List.length_singleton, invalidSeq_eq]
    split_ifs <;> push_cast <;> omega

/-- **Recording the message at the cursor** keeps the counters right. -/
theorem record (h : Counts dbl p recs r) (hc : r.cursor < p.length) :
    Counts dbl p (recs ++ [pushedMsg p r.cursor.toNat])
      (r.record dbl r.cursor (pushedMsg p r.cursor.toNat)) := by
  have h0 := h.cursor
  have hseq : (pushedMsg p r.cursor.toNat).seqNum = r.cursor := by simp; omega
  have hnn : ∀ m ∈ recs, 0 ≤ m.seqNum := fun m hm => (h.pushed m hm).1
  refine ⟨List.pairwise_append.2 ⟨h.sorted, List.pairwise_singleton _ _, ?_⟩, ?_, ?_, ?_, ?_, ?_,
    ?_, ?_, h.overwrites, ?_⟩
  · intro a ha b hb
    rw [List.mem_singleton.1 hb, hseq]; exact h.below a ha
  · intro m hm
    rcases List.mem_append.1 hm with hm | hm
    · exact h.pushed m hm
    · rw [List.mem_singleton.1 hm, hseq]; exact ⟨h0, hc, by simp⟩
  · intro m hm
    rcases List.mem_append.1 hm with hm | hm
    · have := h.below m hm; simp only [Recorder.record]; omega
    · rw [List.mem_singleton.1 hm, hseq]; simp only [Recorder.record]; omega
  · simp only [Recorder.record]; omega
  · simp [Recorder.record, h.count]
  · simp [Recorder.record, ← h.sum]
  · simp [Recorder.record, hseq]
  · simp only [Recorder.record, h.gaps, gapsOf_append hnn, h.last]
  · intro hz
    obtain ⟨hr, hcur⟩ := h.contiguous hz
    refine ⟨?_, ?_⟩
    · simp [hr, List.range_succ, hseq, hcur]
    · simp only [Recorder.record, List.length_append, List.length_singleton]; push_cast; omega

end Counts

end Recorder

/-! ### The producer and the recorder -/

/-- The producer, the recorder thread and its `stop`, with two histories: the messages
pushed so far and the calls made on the writer. -/
structure RecSys where
  ring : RingBuffer
  recorder : Recorder
  pc : RecorderPc
  stopRequested : Bool
  produced : List Msg
  calls : List WriterCall

/-- What can happen next. -/
inductive RecEvent
  /-- The producer makes one call. -/
  | produce (c : RingCall)
  /-- The recorder thread takes one step. -/
  | recorder
  /-- `stop` sets `stop_requested_`. -/
  | requestStop
  /-- `stop`, once the thread has returned, writes the rest and closes the log. -/
  | finishStop

namespace RecSys

variable (dbl : DoubleArith) (C : Capacity)

/-- A fresh ring and a recorder just started. -/
def init (batchSize : Nat) : RecSys :=
  ⟨RingBuffer.init, Recorder.started batchSize, .loop, false, [], []⟩

/-- The recorder thread's step. -/
def recorderStep (s : RecSys) : Option RecSys :=
  match s.pc with
  | .loop =>
    if s.stopRequested then some { s with pc := .exited }
    else
      let r := s.recorder.loopStep dbl C s.ring
      some { s with recorder := r.1, pc := r.2.1, calls := s.calls ++ r.2.2 }
  | .lapped seq =>
    let r := s.recorder.lappedStep C s.ring.getLatestSeq seq
    some { s with recorder := r.1, pc := .loop, calls := s.calls ++ r.2 }
  | .exited | .stopped => none

/-- One event; `none` when it cannot happen. -/
def step (s : RecSys) : RecEvent → Option RecSys
  | .produce c =>
    some { s with ring := (s.ring.call C c).2, produced := s.produced ++ c.msgs }
  | .recorder => recorderStep dbl C s
  | .requestStop => some { s with stopRequested := true }
  | .finishStop =>
    if s.pc = .exited then
      let w := s.recorder.writeBatch
      some { s with
        recorder := { w.1 with channel := w.1.channel.close }, pc := .stopped,
        calls := s.calls ++ w.2 }
    else none

/-- The states a run from `init` reaches. -/
inductive Reachable (batchSize : Nat) : RecSys → Prop
  | init : Reachable batchSize (init batchSize)
  | step {s s' : RecSys} (e : RecEvent) : Reachable batchSize s → step dbl C s e = some s' →
      Reachable batchSize s'

/-- A schedule run from `s`: the events in order, `none` once one cannot happen. -/
def run (s : RecSys) : List RecEvent → Option RecSys
  | [] => some s
  | e :: es => (step dbl C s e).bind fun s' => run s' es

/-- A schedule leads from a reachable state to a reachable state. -/
theorem reachable_of_run {batchSize : Nat} :
    ∀ {s s' : RecSys} (es : List RecEvent), Reachable dbl C batchSize s →
      run dbl C s es = some s' → Reachable dbl C batchSize s'
  | _, _, [], hs, h => by cases h; exact hs
  | _, _, e :: es, hs, h => by
    obtain ⟨s₁, h₁, h₂⟩ := Option.bind_eq_some.1 h
    exact reachable_of_run es (.step e hs h₁) h₂

/-! ### The invariant -/

/-- The records: what the recorder has passed to `write`, then what its batch holds. -/
def records (s : RecSys) : List Msg := written s.calls ++ s.recorder.batch

/-- The writer the recorder holds after the calls `calls`, closed once `stop` has run. -/
def writerOf (pc : RecorderPc) (calls : List WriterCall) : FileWriteChannel :=
  if pc = .stopped then (FileWriteChannel.new.«open».2.run calls).close
  else FileWriteChannel.new.«open».2.run calls

/-- The invariant of the producer and the recorder: the ring holds the pushes, the writer
has seen every call, the counters are those of the records, and a lapped recorder is at the
lapped position. -/
structure Inv (s : RecSys) : Prop where
  ring : s.ring = ringOf C s.produced
  writer : s.recorder.channel = writerOf s.pc s.calls
  acc : Recorder.Counts dbl s.produced s.records s.recorder
  lapped : ∀ seq, s.pc = .lapped seq → seq = s.recorder.cursor ∧ 0 < s.recorder.overwriteCount
  stopped : s.pc = .stopped → s.recorder.batch = []

variable {dbl C}

/-- A recorder step leaves the ring and the pushes alone, only adds calls on the writer,
and only adds to the overwrite count. -/
theorem recorderStep_frame {s s' : RecSys} (hs : recorderStep dbl C s = some s') :
    s'.ring = s.ring ∧ s'.produced = s.produced ∧ (∃ w, s'.calls = s.calls ++ w) ∧
      s.recorder.overwriteCount ≤ s'.recorder.overwriteCount := by
  unfold recorderStep at hs
  split at hs
  · split at hs <;> cases hs
    · exact ⟨rfl, rfl, ⟨[], by simp⟩, le_refl _⟩
    · exact ⟨rfl, rfl, ⟨_, rfl⟩, Recorder.overwriteCount_le_loopStep ..⟩
  · cases hs
    refine ⟨rfl, rfl, ⟨_, rfl⟩, ?_⟩
    simp only [Recorder.lappedStep, Recorder.writeIfAny_overwriteCount]
    split <;> exact le_refl _
  · cases hs
  · cases hs

theorem init_inv (batchSize : Nat) : Inv dbl C (init batchSize) :=
  ⟨by simp [init], rfl, Recorder.Counts.started dbl batchSize, by simp [init], by simp [init]⟩

/-- A step that moves part of the batch to the writer, away from `stop`, keeps the
invariant once the recorder's counters are right for the records. -/
theorem inv_of_moved {s : RecSys} (h : Inv dbl C s) (hpc : s.pc ≠ .stopped) (r r' : Recorder)
    (w : List WriterCall) (pc : RecorderPc)
    (hacc : Recorder.Counts dbl s.produced (written s.calls ++ r.batch) r)
    (hch : r.channel = s.recorder.channel)
    (hr' : r' = { r with channel := r.channel.run w, batch := r'.batch })
    (hw : written w ++ r'.batch = r.batch) (hpc' : pc ≠ .stopped)
    (hl : ∀ seq, pc = .lapped seq → seq = r.cursor ∧ 0 < r.overwriteCount) :
    Inv dbl C { s with recorder := r', pc := pc, calls := s.calls ++ w } := by
  have hw' : r'.channel = r.channel.run w := by rw [hr']
  refine ⟨h.ring, ?_, ?_, fun seq hs => ?_, fun hs => absurd hs hpc'⟩
  · simp only [writerOf, if_neg hpc', hw', hch, h.writer, if_neg hpc,
      FileWriteChannel.run_append]
  · simp only [records, written_append, List.append_assoc, hw]
    rw [hr']; exact hacc.io _ _
  · rw [hr']; exact hl seq hs

/-- A step that only writes what the batch holds. -/
theorem inv_of_write {s : RecSys} (h : Inv dbl C s) (hpc : s.pc ≠ .stopped) (r : Recorder)
    (pc : RecorderPc) (hacc : Recorder.Counts dbl s.produced (written s.calls ++ r.batch) r)
    (hch : r.channel = s.recorder.channel) (hpc' : pc ≠ .stopped)
    (hl : ∀ seq, pc = .lapped seq → seq = r.cursor ∧ 0 < r.overwriteCount) :
    Inv dbl C { s with recorder := r.writeIfAny.1, pc := pc, calls := s.calls ++ r.writeIfAny.2 } :=
  inv_of_moved h hpc r _ _ pc hacc hch (Recorder.writeIfAny_spec r).1 (Recorder.writeIfAny_spec r).2
    hpc' hl

/-- The recorder thread's step keeps the invariant. -/
theorem recorderStep_inv {s s' : RecSys} (h : Inv dbl C s) (hs : recorderStep dbl C s = some s') :
    Inv dbl C s' := by
  unfold recorderStep at hs
  split at hs
  · rename_i hpc
    split at hs
    · -- the stop check: `run` returns
      cases hs
      exact ⟨h.ring, by rw [h.writer]; simp [writerOf, hpc], h.acc, by simp, by simp⟩
    · cases hs
      have hpc' : s.pc ≠ .stopped := by rw [hpc]; simp
      have hacc : Recorder.Counts dbl s.produced (written s.calls ++ s.recorder.batch) s.recorder :=
        h.acc
      have hstep := Recorder.loopStep_ringOf dbl C s.recorder s.produced
      rw [← h.ring] at hstep
      rw [hstep]
      dsimp only
      split_ifs with h1 h2 h3
      · exact inv_of_write h hpc' _ .loop hacc rfl (by simp) (by simp)
      · exact inv_of_moved h hpc' { s.recorder with overwriteCount := s.recorder.overwriteCount + 1 }
          _ [] _ hacc.overwrite rfl rfl (by simp) (by simp)
          (fun _ hl => ⟨(RecorderPc.lapped.inj hl).symm, by have := hacc.overwrites; simp only; omega⟩)
      · exact absurd h3 hacc.not_dup
      · have hr := hacc.record (by omega)
        rw [List.append_assoc] at hr
        set r1 := Recorder.record dbl s.recorder s.recorder.cursor
          (pushedMsg s.produced s.recorder.cursor.toNat)
        exact inv_of_moved h hpc' r1 r1.writeBatch.1 r1.writeBatch.2 .loop hr rfl
          (Recorder.writeBatch_spec r1).1
          (by rw [(Recorder.writeBatch_spec r1).2]; exact List.append_nil _) (by simp) (by simp)
      · have hr := hacc.record (by omega)
        rw [List.append_assoc] at hr
        set r1 := Recorder.record dbl s.recorder s.recorder.cursor
          (pushedMsg s.produced s.recorder.cursor.toNat)
        exact inv_of_moved h hpc' r1 r1 [] .loop hr rfl rfl (by simp) (by simp) (by simp)
  · rename_i seq hpc
    cases hs
    have hpc' : s.pc ≠ .stopped := by rw [hpc]; simp
    obtain ⟨hseq, hpos⟩ := h.lapped seq hpc
    simp only [Recorder.lappedStep]
    split_ifs
    · exact inv_of_write h hpc' _ .loop (h.acc.jump hpos (by rw [← hseq]; omega)) rfl (by simp)
        (by simp)
    · exact inv_of_write h hpc' _ .loop (h.acc.jump hpos (by rw [← hseq]; omega)) rfl (by simp)
        (by simp)
  · cases hs
  · cases hs

/-- **Each event keeps the invariant.** -/
theorem step_inv {s s' : RecSys} {e : RecEvent} (h : Inv dbl C s) (hs : step dbl C s e = some s') :
    Inv dbl C s' := by
  cases e with
  | produce c =>
    cases hs
    exact ⟨by simp [h.ring, RingBuffer.call_snd, RingBuffer.pushAll_ringOf], h.writer,
      h.acc.produce c.msgs, h.lapped, h.stopped⟩
  | recorder => exact recorderStep_inv h hs
  | requestStop =>
    cases hs
    exact ⟨h.ring, h.writer, h.acc, h.lapped, h.stopped⟩
  | finishStop =>
    simp only [step] at hs
    split_ifs at hs with hpc
    cases hs
    have hw2 := (Recorder.writeBatch_spec s.recorder).2
    refine ⟨h.ring, ?_, ?_, by simp, fun _ => rfl⟩
    · simp [writerOf, Recorder.writeBatch, h.writer, hpc, FileWriteChannel.run_append]
    · show Recorder.Counts dbl s.produced (written (s.calls ++ s.recorder.writeBatch.2) ++ []) _
      rw [written_append, hw2, List.append_nil]
      exact h.acc.io _ _

/-- **The invariant holds in every reachable state.** -/
theorem reachable_inv {batchSize : Nat} {s : RecSys} (hs : Reachable dbl C batchSize s) :
    Inv dbl C s := by
  induction hs with
  | init => exact init_inv batchSize
  | step e _ hstep ih => exact step_inv ih hstep

/-- **What the recorder has recorded.**  In every state that an interleaving of the
producer's calls with the recorder's steps and `stop` reaches, the records the recorder has
passed to `write`, followed by its batch, have strictly increasing sequence numbers, and
each is the message the producer pushed under its sequence number; `recorded_count` is
their number, `(expected_sum, kahan_c)` the Kahan sum of their payloads in order, and
`seq_gap_count` the number of sequence numbers missing between the first and the last.
After `stop` the batch is empty and the log is closed over every record; a recorder never
lapped has recorded `0, 1, …, recorded_count - 1`. -/
theorem recorder_records {batchSize : Nat} {s : RecSys} (hs : Reachable dbl C batchSize s) :
    let recs := written s.calls ++ s.recorder.batch
    recs.Pairwise (fun a b => a.seqNum < b.seqNum) ∧
    (∀ m ∈ recs,
      0 ≤ m.seqNum ∧ m.seqNum < s.produced.length ∧ m = pushedMsg s.produced m.seqNum.toNat) ∧
    s.recorder.recordedCount = recs.length ∧
    (s.recorder.expectedSum, s.recorder.kahanC) = kahanFold dbl (recs.map Msg.payload) ∧
    s.recorder.seqGapCount = (Recorder.missingSeqs recs).card ∧
    (s.pc = .stopped → s.recorder.batch = [] ∧
      s.recorder.channel = (FileWriteChannel.new.«open».2.run s.calls).close) ∧
    (s.recorder.overwriteCount = 0 →
      recs.map Msg.seqNum = (List.range recs.length).map Int.ofNat) := by
  have h := reachable_inv hs
  have hc := h.acc
  refine ⟨hc.sorted, hc.pushed, hc.count, hc.sum, ?_, fun hpc => ⟨h.stopped hpc, ?_⟩,
    fun h0 => (hc.contiguous h0).1⟩
  · rw [hc.gaps]; exact (Recorder.card_missingSeqs hc.sorted fun m hm => (hc.pushed m hm).1).symm
  · rw [h.writer, writerOf, if_pos hpc]

set_option maxRecDepth 20000 in
/-- A ring of four slots: the recorder records `0`, is lapped at `1` by five more pushes,
jumps to `4`, records `4, 5, 6`, and is stopped.  Its log holds `0, 4, 5, 6`, with three
sequence numbers missing. -/
theorem recorder_records_after_lap_and_stop :
    ∃ s, Reachable ⟨(· + ·), (· - ·)⟩ ⟨4, ⟨2, rfl⟩⟩ 4 s ∧ s.pc = .stopped ∧
      s.recorder.overwriteCount = 1 ∧ (written s.calls).map Msg.seqNum = [0, 4, 5, 6] ∧
      let recs := written s.calls ++ s.recorder.batch
      recs.Pairwise (fun a b => a.seqNum < b.seqNum) ∧
      (∀ m ∈ recs,
        0 ≤ m.seqNum ∧ m.seqNum < s.produced.length ∧ m = pushedMsg s.produced m.seqNum.toNat) ∧
      s.recorder.recordedCount = recs.length ∧
      (s.recorder.expectedSum, s.recorder.kahanC) =
        kahanFold ⟨(· + ·), (· - ·)⟩ (recs.map Msg.payload) ∧
      s.recorder.seqGapCount = (Recorder.missingSeqs recs).card ∧
      (s.pc = .stopped → s.recorder.batch = [] ∧
        s.recorder.channel = (FileWriteChannel.new.«open».2.run s.calls).close) ∧
      (s.recorder.overwriteCount = 0 →
        recs.map Msg.seqNum = (List.range recs.length).map Int.ofNat) := by
  have h : (run ⟨(· + ·), (· - ·)⟩ ⟨4, ⟨2, rfl⟩⟩ (init 4)
      [.produce (.pushBatch [⟨0, 0, 1⟩, ⟨0, 0, 2⟩]), .recorder,
        .produce (.pushBatch [⟨0, 0, 3⟩, ⟨0, 0, 4⟩, ⟨0, 0, 5⟩, ⟨0, 0, 6⟩, ⟨0, 0, 7⟩]),
        .recorder, .recorder, .recorder, .recorder, .recorder, .recorder, .requestStop,
        .recorder, .finishStop]).map
      (fun s => (decide (s.pc = .stopped), s.recorder.overwriteCount,
        (written s.calls).map Msg.seqNum)) = some (true, 1, [0, 4, 5, 6]) := by decide
  obtain ⟨s, hrun, hobs⟩ := Option.map_eq_some'.1 h
  simp only [Prod.mk.injEq, decide_eq_true_eq] at hobs
  have hs := reachable_of_run _ _ _ .init hrun
  exact ⟨s, hs, hobs.1, hobs.2.1, hobs.2.2, recorder_records hs⟩

end RecSys

end Replay
