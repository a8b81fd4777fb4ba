import ReplaySystem.Ring
import ReplaySystem.ReplayEngine

/-!
# The client

`MktDataClient` consumes the ring through a cursor and sums payloads with Kahan summation,
keeping INV-C1: it accepts a message only when its sequence number exceeds the last one
it accepted.  On a `CLIENT_CRASH` fault it resets its accumulator and recovers from the
recorder's log: it replays the log through a `ReplayEngine` until the replayed sequence is
within `CATCHUP_THRESHOLD` of the ring's head, and then points its cursor just past the
last replayed message.

`run` and `startRecovery` are loops over two shared objects, the ring and the log file.
Each is modelled as a step function over its program points (`ClientPc`, `RecoveryPc`)
that makes at most one shared access a step; the concurrent model runs these steps, and
`startRecovery` below runs the recovery steps alone.

## Main definitions

* `Client`, `Client.processMessage`, `Client.onFault`, `Client.switchToLive`.
* `RecoveryPc`, `Client.recoveryStep` — the steps of `startRecovery`.
* `ClientPc`, `Client.loopStep`, `Client.skipStep` — the steps of `run`.
* `Client.startRecovery` — `startRecovery` on its own, with fuel.
* `Client.restart` — `stop` and `start` again, as the new `run` begins.

## Main results

* `Client.startRecovery_cursor` — `startRecovery` returns, with the cursor just past the
  last replayed record, or where it was when no record was replayed.
* `Client.restart_drops_counted` — a restarted client reads the ring again from 0 and drops
  every message it had accepted, counting each as a gap.
-/

namespace Replay

/-! ### State -/

/-- The client's state that its threads share: the cursor, the accumulator of INV-C1, the
recovery flags and the metrics. -/
structure Client where
  cursor : Int
  lastSeq : Int
  processedCount : Int
  sum : UInt64
  kahanC : UInt64
  inRecovery : Bool
  state : ClientState
  stopRequested : Bool
  autoFaultDetection : Bool
  seqGapCount : Int
  overwriteCount : Int
  autoFaultCount : Int
  recoveryCount : Int

namespace Client

/-- The constructor's state, with the cursor reset by `run`. -/
def new : Client :=
  ⟨0, invalidSeq, 0, 0, 0, false, .normal, false, true, 0, 0, 0, 0⟩

/-- INV-C1's test: `processMessage` accepts `msg` (it drops it when this is false). -/
def accepts (c : Client) (msg : Msg) : Prop := ¬(c.lastSeq ≠ invalidSeq ∧ msg.seqNum ≤ c.lastSeq)

instance (c : Client) (msg : Msg) : Decidable (c.accepts msg) :=
  inferInstanceAs (Decidable (¬_))

/-- `processMessage`: drop a message that does not exceed the last accepted sequence;
otherwise count the gap before it, add its payload with Kahan summation and make it the
last accepted message. -/
def processMessage (dbl : DoubleArith) (c : Client) (msg : Msg) : Client :=
  let prevSeq := c.lastSeq
  if prevSeq ≠ invalidSeq ∧ msg.seqNum ≤ prevSeq then
    { c with seqGapCount := c.seqGapCount + 1 }
  else
    let gap := if prevSeq ≠ invalidSeq ∧ msg.seqNum ≠ prevSeq + 1 then msg.seqNum - prevSeq - 1
      else 0
    let acc := kahanStep dbl (c.sum, c.kahanC) msg.payload
    { c with
      seqGapCount := c.seqGapCount + gap, sum := acc.1, kahanC := acc.2,
      lastSeq := msg.seqNum, processedCount := c.processedCount + 1 }

/-- The reset of a `CLIENT_CRASH`: state `FAULTED`, empty accumulator. -/
def crashReset (c : Client) : Client :=
  { c with state := .faulted, sum := 0, kahanC := 0, lastSeq := invalidSeq, processedCount := 0 }

@[simp] theorem processMessage_cursor (dbl : DoubleArith) (c : Client) (msg : Msg) :
    (c.processMessage dbl msg).cursor = c.cursor := by
  simp only [processMessage]; split <;> rfl

@[simp] theorem processMessage_inRecovery (dbl : DoubleArith) (c : Client) (msg : Msg) :
    (c.processMessage dbl msg).inRecovery = c.inRecovery := by
  simp only [processMessage]; split <;> rfl

@[simp] theorem processMessage_stopRequested (dbl : DoubleArith) (c : Client) (msg : Msg) :
    (c.processMessage dbl msg).stopRequested = c.stopRequested := by
  simp only [processMessage]; split <;> rfl

@[simp] theorem processMessage_autoFaultDetection (dbl : DoubleArith) (c : Client) (msg : Msg) :
    (c.processMessage dbl msg).autoFaultDetection = c.autoFaultDetection := by
  simp only [processMessage]; split <;> rfl

/-- An accepted message becomes the last one, is counted and is added to the sum. -/
theorem processMessage_of_accepts (dbl : DoubleArith) (c : Client) {msg : Msg}
    (h : c.accepts msg) :
    (c.processMessage dbl msg).lastSeq = msg.seqNum ∧
      (c.processMessage dbl msg).processedCount = c.processedCount + 1 ∧
      ((c.processMessage dbl msg).sum, (c.processMessage dbl msg).kahanC) =
        kahanStep dbl (c.sum, c.kahanC) msg.payload := by
  simp only [processMessage]
  rw [if_neg h]
  exact ⟨rfl, rfl, rfl⟩

/-- A dropped message only counts as a gap. -/
theorem processMessage_of_not_accepts (dbl : DoubleArith) (c : Client) {msg : Msg}
    (h : ¬c.accepts msg) :
    c.processMessage dbl msg = { c with seqGapCount := c.seqGapCount + 1 } := by
  simp only [processMessage]
  exact if_pos (not_not.1 h)

/-- The accumulator of INV-C1: the last accepted sequence number, the count and the Kahan
pair. -/
def accumulator (c : Client) : Int × Int × UInt64 × UInt64 :=
  (c.lastSeq, c.processedCount, c.sum, c.kahanC)

/-- `processMessage` reads the accumulator and writes it from the accumulator alone. -/
theorem accumulator_processMessage (dbl : DoubleArith) {c₁ c₂ : Client}
    (h : c₁.accumulator = c₂.accumulator) (msg : Msg) :
    (c₁.processMessage dbl msg).accumulator = (c₂.processMessage dbl msg).accumulator := by
  simp only [accumulator, Prod.mk.injEq] at h
  obtain ⟨h1, h2, h3, h4⟩ := h
  simp only [processMessage, accumulator, h1, h2, h3, h4]
  split <;> rfl

/-- So processing the same messages from two equal accumulators ends in equal ones. -/
theorem accumulator_foldl (dbl : DoubleArith) {c₁ c₂ : Client}
    (h : c₁.accumulator = c₂.accumulator) (ms : List Msg) :
    (ms.foldl (·.processMessage dbl ·) c₁).accumulator =
      (ms.foldl (·.processMessage dbl ·) c₂).accumulator := by
  induction ms generalizing c₁ c₂ with
  | nil => exact h
  | cons m ms ih => exact ih (accumulator_processMessage dbl h m)

/-! ### Recovery -/

end Client

/-- The program points of `startRecovery`, with its local variables: the replay engine,
`last_recovered_seq` and `switched_to_live`. -/
inductive RecoveryPc
  /-- Entry: raise `in_recovery_`. -/
  | begin
  /-- Open the replay engine on the log. -/
  | «open»
  /-- The head of the replay loop. -/
  | loop (replay : ReplayEngine) (lastRecoveredSeq : Int)
  /-- A record was processed: compare it with the ring's head. -/
  | check (replay : ReplayEngine) (msg : Msg)
  /-- After the loop: close, place the cursor, lower `in_recovery_`. -/
  | finish (replay : ReplayEngine) (lastRecoveredSeq : Int) (switchedToLive : Bool)

namespace Client

/-- `onFault`: a crash resets the accumulator and starts a recovery; a message loss skips
ten messages; a hang changes nothing. -/
def onFault (c : Client) : FaultType → Client × Option RecoveryPc
  | .clientCrash => (c.crashReset, some .begin)
  | .messageLoss => ({ c with cursor := c.cursor + 10 }, none)
  | .temporaryHang => (c, none)

/-- `switchToLive`: point the cursor at the first sequence wanted from the ring. -/
def switchToLive (c : Client) (expectedSeq : Int) : Client := { c with cursor := expectedSeq }

/-- One step of `startRecovery` at `pc`, on the log `file` and with `latest` the value the
ring's `getLatestSeq` returns if the step reads it; `none` when `startRecovery` returns. -/
def recoveryStep (dbl : DoubleArith) (file : Bytes) (latest : Int) (c : Client) :
    RecoveryPc → Client × Option RecoveryPc
  | .begin =>
    ({ c with inRecovery := true, state := .replaying, recoveryCount := c.recoveryCount + 1 },
      some .open)
  | .open =>
    let r := ReplayEngine.new.«open» file
    if r.1 then (c, some (.loop r.2 invalidSeq))
    else ({ c with inRecovery := false, state := .normal }, none)
  | .loop replay last =>
    if c.inRecovery ∧ !c.stopRequested then
      let r := replay.nextMessage file
      match r.1 with
      | none => (c, some (.finish r.2 last false))
      | some msg => (c.processMessage dbl msg, some (.check r.2 msg))
    else (c, some (.finish replay last false))
  | .check replay msg =>
    if latest ≥ 0 ∧ msg.seqNum ≥ latest - catchupThreshold then
      (switchToLive { c with state := .catchingUp } (msg.seqNum + 1),
        some (.finish replay msg.seqNum true))
    else (c, some (.loop replay msg.seqNum))
  | .finish _ last switched =>
    let c := if !switched ∧ last ≠ invalidSeq then { c with cursor := last + 1 } else c
    ({ c with inRecovery := false, state := .normal }, none)

/-- The recovery steps from `pc` on a fixed log, with `live i` the ring's head at step `i`:
the client when `startRecovery` returns, `none` if `fuel` steps do not reach it. -/
def runRecovery (dbl : DoubleArith) (file : Bytes) (live : Nat → Int) :
    Nat → Nat → Client → RecoveryPc → Option Client
  | 0, _, _, _ => none
  | fuel + 1, i, c, pc =>
    match recoveryStep dbl file (live i) c pc with
    | (c', none) => some c'
    | (c', some pc') => runRecovery dbl file live fuel (i + 1) c' pc'

/-- `startRecovery` run alone on the log `file`. -/
def startRecovery (dbl : DoubleArith) (file : Bytes) (live : Nat → Int) (fuel : Nat)
    (c : Client) : Option Client :=
  runRecovery dbl file live fuel 0 c .begin

/-! ### The consumer loop -/

end Client

/-- The program points of the thread running `run`. -/
inductive ClientPc
  /-- The head of the consumer loop. -/
  | loop
  /-- `OVERWRITTEN` with automatic recovery off: skip to the ring's head. -/
  | skip
  /-- Inside `onFault`'s `startRecovery`. -/
  | recovering (pc : RecoveryPc)
  /-- `run` has returned. -/
  | exited

namespace Client

/-- One iteration of `run`'s loop, reading the ring once at the cursor. -/
def loopStep (dbl : DoubleArith) (C : Capacity) (rb : RingBuffer) (c : Client) :
    Client × ClientPc :=
  if c.stopRequested then (c, .exited)
  else if c.inRecovery then (c, .loop)
  else
    let seq := c.cursor
    let result := rb.readEx C seq
    match result.status with
    | .ok => ({ c.processMessage dbl result.msg with cursor := seq + 1 }, .loop)
    | .overwritten =>
      let c := { c with overwriteCount := c.overwriteCount + 1, seqGapCount := c.seqGapCount + 1 }
      if c.autoFaultDetection ∧ !c.inRecovery then
        let r := { c with autoFaultCount := c.autoFaultCount + 1 }.onFault .clientCrash
        (r.1, .recovering .begin)
      else (c, .skip)
    | .notReady => (c, .loop)

/-- The rest of an `OVERWRITTEN` iteration without automatic recovery: move the cursor past
the ring's head. -/
def skipStep (latest : Int) (c : Client) : Client :=
  if latest ≥ 0 then { c with cursor := latest + 1 } else c

/-- The skip moves the cursor and nothing else. -/
theorem skipStep_eq (latest : Int) (c : Client) :
    c.skipStep latest = { c with cursor := if latest ≥ 0 then latest + 1 else c.cursor } := by
  unfold skipStep; split <;> rfl

/-- One iteration on a ring holding the pushes `p`, by the position of the cursor, for a
running client with automatic recovery: past the head nothing happens; a ring that has
lapped the cursor starts a recovery; otherwise the pushed message is processed. -/
theorem loopStep_ringOf (dbl : DoubleArith) (C : Capacity) (c : Client) (p : List Msg)
    (hs : c.stopRequested = false) (hr : c.inRecovery = false) (ha : c.autoFaultDetection = true) :
    c.loopStep dbl C (ringOf C p) =
      if c.cursor < 0 ∨ p.length ≤ c.cursor then (c, .loop)
      else if c.cursor + C.val < p.length then
        (crashReset { c with
          overwriteCount := c.overwriteCount + 1, seqGapCount := c.seqGapCount + 1,
          autoFaultCount := c.autoFaultCount + 1 }, .recovering .begin)
      else ({ c.processMessage dbl (pushedMsg p c.cursor.toNat) with cursor := c.cursor + 1 },
        .loop) := by
  simp only [loopStep, hs, hr, RingBuffer.readEx_ringOf]
  by_cases h1 : c.cursor < 0 ∨ p.length ≤ c.cursor
  · simp only [if_pos h1, Bool.false_eq_true, if_false]
  by_cases h2 : c.cursor + C.val < p.length
  · simp [if_neg h1, if_pos h2, ha, onFault]
  · simp only [if_neg h1, if_neg h2, Bool.false_eq_true, if_false]

/-! ### The recovery steps -/

section Steps

variable (dbl : DoubleArith) (file : Bytes) (latest : Int) (c : Client)

theorem recoveryStep_begin :
    c.recoveryStep dbl file latest .begin =
      ({ c with inRecovery := true, state := .replaying, recoveryCount := c.recoveryCount + 1 },
        some .open) := rfl

theorem recoveryStep_open {e : ReplayEngine} (h : ReplayEngine.new.«open» file = (true, e)) :
    c.recoveryStep dbl file latest .open = (c, some (.loop e invalidSeq)) := by
  simp [recoveryStep, h]

theorem recoveryStep_loop_none {e : ReplayEngine} {last : Int} (hr : c.inRecovery = true)
    (hs : c.stopRequested = false) (hy : (e.nextMessage file).1 = none) :
    c.recoveryStep dbl file latest (.loop e last) =
      (c, some (.finish (e.nextMessage file).2 last false)) := by
  simp only [recoveryStep, hr, hs, hy, Bool.not_false, and_self, if_true]

theorem recoveryStep_loop_some {e : ReplayEngine} {last : Int} {y : Msg}
    (hr : c.inRecovery = true) (hs : c.stopRequested = false)
    (hy : (e.nextMessage file).1 = some y) :
    c.recoveryStep dbl file latest (.loop e last) =
      (c.processMessage dbl y, some (.check (e.nextMessage file).2 y)) := by
  simp only [recoveryStep, hr, hs, hy, Bool.not_false, and_self, if_true]

theorem recoveryStep_check_switch {e : ReplayEngine} {msg : Msg}
    (h : latest ≥ 0 ∧ msg.seqNum ≥ latest - catchupThreshold) :
    c.recoveryStep dbl file latest (.check e msg) =
      (switchToLive { c with state := .catchingUp } (msg.seqNum + 1),
        some (.finish e msg.seqNum true)) := by
  simp only [recoveryStep, if_pos h]

theorem recoveryStep_check_stay {e : ReplayEngine} {msg : Msg}
    (h : ¬(latest ≥ 0 ∧ msg.seqNum ≥ latest - catchupThreshold)) :
    c.recoveryStep dbl file latest (.check e msg) = (c, some (.loop e msg.seqNum)) := by
  simp only [recoveryStep, if_neg h]

theorem recoveryStep_finish (e : ReplayEngine) (last : Int) (switched : Bool) :
    c.recoveryStep dbl file latest (.finish e last switched) =
      ({ (if !switched ∧ last ≠ invalidSeq then { c with cursor := last + 1 } else c) with
        inRecovery := false, state := .normal }, none) := rfl

end Steps

section Run

variable {dbl : DoubleArith} {file : Bytes} {live : Nat → Int} {c c' : Client}
  {pc pc' : RecoveryPc} {i fuel : Nat}

theorem runRecovery_of_some (h : c.recoveryStep dbl file (live i) pc = (c', some pc')) :
    runRecovery dbl file live (fuel + 1) i c pc = runRecovery dbl file live fuel (i + 1) c' pc' := by
  simp [runRecovery, h]

theorem runRecovery_of_none (h : c.recoveryStep dbl file (live i) pc = (c', none)) :
    runRecovery dbl file live (fuel + 1) i c pc = some c' := by
  simp [runRecovery, h]

end Run

/-! ### What `startRecovery` leaves in the cursor -/

/-- **The replay loop.**  From the loop head, with an engine that yields the records `ys`,
the recovery returns within `2 |ys| + 2` steps, having replayed a prefix of `ys` that is
non-empty when `ys` is: its accumulator is that of `processMessage` over the replayed
records, in order.  The cursor is then the last replayed sequence number plus one,
unless that number is `INVALID_SEQ`; with nothing replayed it is placed by `last` alone. -/
theorem runRecovery_loop (dbl : DoubleArith) (file : Bytes) (live : Nat → Int) :
    ∀ (ys : List Msg) (e : ReplayEngine) (c : Client) (last : Int) (i : Nat),
    ReplayEngine.Yields file e ys → c.inRecovery = true → c.stopRequested = false →
    ∃ c' replayed, (∀ fuel, 2 * ys.length + 2 ≤ fuel →
        runRecovery dbl file live fuel i c (.loop e last) = some c') ∧
      replayed <+: ys ∧ (ys ≠ [] → replayed ≠ []) ∧
      c'.accumulator = (replayed.foldl (·.processMessage dbl ·) c).accumulator ∧
      (replayed = [] → c'.cursor = if last ≠ invalidSeq then last + 1 else c.cursor) ∧
      ∀ m, replayed.getLast? = some m → m.seqNum ≠ invalidSeq → c'.cursor = m.seqNum + 1
  | [], e, c, last, i, hy, hr, hs => by
    refine ⟨{ (if last ≠ invalidSeq then { c with cursor := last + 1 } else c) with
        inRecovery := false, state := .normal }, [], fun fuel hf => ?_, List.nil_prefix,
      by simp, by split <;> rfl, fun _ => by split <;> rfl, by simp⟩
    obtain ⟨f, rfl⟩ : ∃ f, fuel = f + 2 := ⟨fuel - 2, by omega⟩
    rw [runRecovery_of_some (recoveryStep_loop_none dbl file _ c hr hs hy),
      runRecovery_of_none (recoveryStep_finish dbl file _ c _ last false)]
    simp
  | y :: ys, e, c, last, i, ⟨hy, hys⟩, hr, hs => by
    have hloop := @recoveryStep_loop_some dbl file (live i) c e last y hr hs hy
    by_cases hsw : live (i + 1) ≥ 0 ∧ y.seqNum ≥ live (i + 1) - catchupThreshold
    · -- the head is close enough: switch to the ring just past `y`
      refine ⟨{ switchToLive { c.processMessage dbl y with state := .catchingUp } (y.seqNum + 1)
          with inRecovery := false, state := .normal }, [y], fun fuel hf => ?_, ⟨ys, rfl⟩,
        by simp, rfl, by simp, fun m hm _ => ?_⟩
      · obtain ⟨f, rfl⟩ : ∃ f, fuel = f + 3 :=
          ⟨fuel - 3, by simp only [List.length_cons] at hf; omega⟩
        rw [runRecovery_of_some hloop, runRecovery_of_some (recoveryStep_check_switch _ _ _ _ hsw),
          runRecovery_of_none (recoveryStep_finish _ _ _ _ _ _ _)]
        rfl
      · cases (by simpa using hm : y = m); rfl
    · -- keep replaying, with `y` as the last recovered sequence
      obtain ⟨c', r, hrun, ⟨t, ht⟩, -, hacc, hnil, hlast⟩ := runRecovery_loop dbl file live ys _
        (c.processMessage dbl y) y.seqNum (i + 2) hys (by simp [hr]) (by simp [hs])
      refine ⟨c', y :: r, fun fuel hf => ?_, ⟨t, by rw [List.cons_append, ht]⟩, by simp,
        hacc, by simp, fun m hm hm' => ?_⟩
      · obtain ⟨f, rfl⟩ : ∃ f, fuel = f + 2 :=
          ⟨fuel - 2, by simp only [List.length_cons] at hf; omega⟩
        rw [runRecovery_of_some hloop, runRecovery_of_some (recoveryStep_check_stay _ _ _ _ hsw)]
        exact hrun f (by simp only [List.length_cons] at hf; omega)
      · cases r with
        | nil =>
          cases (by simpa using hm : y = m)
          exact (hnil rfl).trans (if_pos hm')
        | cons z r => exact hlast m (by simpa using hm) hm'

/-- A replay that yields no record leaves the cursor where it was: on the log of a writer
that has only opened it, `startRecovery` returns within four steps with the cursor
unchanged, whatever the ring's head. -/
theorem startRecovery_empty_log_keeps_cursor (dbl : DoubleArith) (live : Nat → Int)
    (c : Client) :
    c.startRecovery dbl FileWriteChannel.new.«open».2.file live 4 =
      some { c with inRecovery := false, state := .normal, recoveryCount := c.recoveryCount + 1 } := by
  have hw := FileWriteChannel.open_holds
  have hfile : FileWriteChannel.new.«open».2.file =
      encodeHeader { headerOf [] with flags := 0 } ++ [] := by
    rw [hw.file, hw.header]; rfl
  obtain ⟨hok, hch⟩ : (FileChannel.new.«open» FileWriteChannel.new.«open».2.file).1 = true ∧
      (FileChannel.new.«open» FileWriteChannel.new.«open».2.file).2.At 0 0 := by
    rw [hfile, FileChannel.open_log _ (headerOf_isInt64 (by simp) (by simp) _) rfl]
    exact ⟨rfl, rfl, rfl, rfl, rfl, rfl⟩
  generalize FileWriteChannel.new.«open».2.file = file at hok hch
  have hnext : ((FileChannel.new.«open» file).2.readNext file).1 = none := by
    rw [FileChannel.readNext_end hch (by simp)]
  cases hs : c.stopRequested <;> simp [startRecovery, runRecovery, recoveryStep, hok, hnext, hs]

/-- `stop()` and then `start()` on a client whose `run` has returned, up to the first
statement of the new `run`, `cursor_.reset(0)`: the stop flag is clear, the state is
`NORMAL` and the cursor is back at 0; `last_seq_`, the accumulator and the metrics are
kept. -/
def restart (c : Client) : Client :=
  { c with stopRequested := false, state := .normal, cursor := 0 }

/-- An iteration that reads a message at or below `last_seq_` from a ring that has not
lapped the cursor drops it and counts a gap. -/
theorem loopStep_drop (dbl : DoubleArith) (C : Capacity) (d : Client) (p : List Msg)
    (hs : d.stopRequested = false) (hr : d.inRecovery = false)
    (ha : d.autoFaultDetection = true) (h0 : 0 ≤ d.cursor) (hd : d.cursor ≤ d.lastSeq)
    (hlen : d.cursor < p.length) (hlap : p.length ≤ C.val) :
    (d.loopStep dbl C (ringOf C p)).1 =
      { d with cursor := d.cursor + 1, seqGapCount := d.seqGapCount + 1 } := by
  have hdrop : ¬d.accepts (pushedMsg p d.cursor.toNat) := by
    simp only [accepts, pushedMsg_seqNum, invalidSeq_eq, not_not]; omega
  rw [loopStep_ringOf _ _ _ _ hs hr ha, if_neg (by omega), if_neg (by omega),
    processMessage_of_not_accepts _ _ hdrop]

/-- The first `n` iterations of a restarted client over a ring that still holds messages
`0, …, n - 1`, all at or below its `last_seq_`: each is dropped and counted as a gap. -/
theorem iterate_loopStep_restart (dbl : DoubleArith) (C : Capacity) (c : Client) (p : List Msg)
    (hlap : p.length ≤ C.val) (hr : c.inRecovery = false)
    (ha : c.autoFaultDetection = true) (n : Nat) (hn : n ≤ c.lastSeq + 1)
    (hlen : (n : Int) ≤ p.length) :
    (fun c => (c.loopStep dbl C (ringOf C p)).1)^[n] c.restart =
      { c.restart with cursor := n, seqGapCount := c.seqGapCount + n } := by
  induction n with
  | zero => simp [restart]
  | succ n ih =>
    rw [Function.iterate_succ_apply', ih (by omega) (by omega)]
    dsimp only
    refine (loopStep_drop dbl C _ p (by rfl) (by exact hr) (by exact ha) ?_ ?_ ?_
      hlap).trans ?_
    · exact Int.natCast_nonneg n
    · show (n : Int) ≤ c.lastSeq; omega
    · show (n : Int) < p.length; omega
    · simp only [restart]; congr 1; omega

/-- **A restarted client counts nothing twice**: after `stop()` and `start()`, `run` reads
the ring again from sequence 0, and while the ring still holds those messages, the first
`last_seq_ + 1` iterations drop every message the client had already accepted; the sum,
`last_seq_` and `processed_count_` are unchanged, and each dropped message is counted in
`seq_gap_count`, which so reports `last_seq_ + 1` gaps that never happened. -/
theorem restart_drops_counted (dbl : DoubleArith) (C : Capacity) (c : Client) (p : List Msg)
    (hk : 0 ≤ c.lastSeq) (hlen : c.lastSeq < p.length) (hlap : p.length ≤ C.val)
    (hr : c.inRecovery = false) (ha : c.autoFaultDetection = true) :
    (fun c => (c.loopStep dbl C (ringOf C p)).1)^[c.lastSeq.toNat + 1] c.restart =
      { c.restart with
        cursor := c.lastSeq + 1
        seqGapCount := c.seqGapCount + (c.lastSeq + 1) } := by
  have h := iterate_loopStep_restart dbl C c p hlap hr ha (c.lastSeq.toNat + 1) (by omega)
    (by omega)
  have e : ((c.lastSeq.toNat + 1 : Nat) : Int) = c.lastSeq + 1 := by omega
  rwa [e] at h

/-- A client that accepted messages 0 and 1, restarted over a ring of capacity 2 holding
them: it reads both again and drops both. -/
theorem restart_drops_counted_after_two_messages :
    0 ≤ (⟨2, 1, 2, 0, 0, false, .normal, false, true, 0, 0, 0, 0⟩ : Client).lastSeq ∧
    (⟨2, 1, 2, 0, 0, false, .normal, false, true, 0, 0, 0, 0⟩ : Client).lastSeq <
      ([⟨0, 0, 0⟩, ⟨0, 0, 0⟩] : List Msg).length ∧
    ([⟨0, 0, 0⟩, ⟨0, 0, 0⟩] : List Msg).length ≤ (⟨2, ⟨1, rfl⟩⟩ : Capacity).val ∧
    (fun c => (c.loopStep ⟨(· + ·), (· - ·)⟩ ⟨2, ⟨1, rfl⟩⟩
        (ringOf ⟨2, ⟨1, rfl⟩⟩ [⟨0, 0, 0⟩, ⟨0, 0, 0⟩])).1)^[
          (⟨2, 1, 2, 0, 0, false, .normal, false, true, 0, 0, 0, 0⟩ : Client).lastSeq.toNat + 1]
        (⟨2, 1, 2, 0, 0, false, .normal, false, true, 0, 0, 0, 0⟩ : Client).restart =
      { (⟨2, 1, 2, 0, 0, false, .normal, false, true, 0, 0, 0, 0⟩ : Client).restart with
        cursor := (⟨2, 1, 2, 0, 0, false, .normal, false, true, 0, 0, 0, 0⟩ : Client).lastSeq + 1
        seqGapCount :=
          (⟨2, 1, 2, 0, 0, false, .normal, false, true, 0, 0, 0, 0⟩ : Client).seqGapCount +
            ((⟨2, 1, 2, 0, 0, false, .normal, false, true, 0, 0, 0, 0⟩ : Client).lastSeq + 1) } :=
  ⟨by decide, by decide, by decide, restart_drops_counted ⟨(· + ·), (· - ·)⟩ ⟨2, ⟨1, rfl⟩⟩
    (⟨2, 1, 2, 0, 0, false, .normal, false, true, 0, 0, 0, 0⟩ : Client) [⟨0, 0, 0⟩, ⟨0, 0, 0⟩]
    (by decide) (by decide) (by decide) rfl rfl⟩

end Client

end Replay
