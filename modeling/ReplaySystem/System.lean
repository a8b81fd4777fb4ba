import ReplaySystem.Client
import ReplaySystem.Recorder

/-!
# The replay system

The producer, the recorder and the client run as threads over the ring and the log:

* the producer's calls, the recorder's steps and its `stop` are those of `RecSys`;
* the client thread runs `MktDataClient::run`, and inside it `onFault`'s `startRecovery`
  when it finds itself lapped (`ClientPc`);
* a second thread may call `triggerFault(CLIENT_CRASH)` once, and then runs its own
  `startRecovery` (`TriggerPc`).

Each step makes at most one access to the ring or the log, so every interleaving of the
threads is a sequence of `Sys.step`s.  The system keeps one history variable: the messages
`processMessage` has accepted since the last reset of the accumulator.  The steps that
update the accumulator (`processMessage`, `onFault`'s reset) are taken whole; they are the
only writers of its fields while `triggerFault` is not called, since the consumer thread
then makes both, so the results about the accumulator are stated without `triggerFault`.

## Main definitions

* `Sys`, `SysEvent`, `Sys.step`, `Sys.Reachable`.
* `Sys.processAll` — `processMessage` on a sequence of messages, with the ones accepted.

## Main results

* `Sys.shouldSwitchToLive_of_recorder_log` — on the recorder's log, `shouldSwitchToLive`
  compares the live sequence with the number of records replayed, one past the last
  replayed sequence number when the recorder was never lapped.
* `Sys.seqViolationCount_zero_of_recorder_log` — a replay of the recorder's log counts no
  order violation.
* `Sys.client_accepts_in_order` — with automatic recovery and no `triggerFault`, while the
  recorder has never been lapped, the client has accepted exactly `0, 1, …, last_seq`.
* `Sys.processAll_crashReset` — INV-C1 from a reset, over any sequence numbers.
* `Sys.accumulator_of_accepted` — in every interleaving without `triggerFault`, lapped
  recorder included, the accumulator is that of the accepted messages, in INV-C1's order.
* `Sys.trigger_race_loses_message` — a `triggerFault` that races the consumer loop leaves
  the client with a message missing after its recovery.
-/

namespace Replay

/-! ### The system -/

/-- The program points of the thread that calls `triggerFault(CLIENT_CRASH)` once. -/
inductive TriggerPc
  /-- Not called yet. -/
  | idle
  /-- Inside `onFault`'s `startRecovery`. -/
  | recovering (pc : RecoveryPc)
  /-- `triggerFault` has returned. -/
  | done

/-- The whole system: the producer and the recorder, the client and its threads, and the
messages accepted since the last reset. -/
structure Sys where
  rs : RecSys
  client : Client
  clientPc : ClientPc
  trigger : TriggerPc
  accepted : List Msg

/-- What can happen next. -/
inductive SysEvent
  /-- A producer call, a recorder step or the recorder's `stop`. -/
  | recording (e : RecEvent)
  /-- A step of the client thread. -/
  | client
  /-- A step of the thread calling `triggerFault`. -/
  | trigger

namespace Sys

variable (dbl : DoubleArith) (C : Capacity)

/-- A fresh ring, a recorder just started with the default batch size, a client just
started, and the fault not yet triggered. -/
def init : Sys := ⟨RecSys.init diskBatchSize, Client.new, .loop, .idle, []⟩

/-- The log as the client's replay reads it: the file of the recorder's writer. -/
def logFile (s : Sys) : Bytes := s.rs.recorder.channel.file

/-- The message a loop step passes to `processMessage`, if any. -/
def loopInput (rb : RingBuffer) (c : Client) : Option Msg :=
  if c.stopRequested ∨ c.inRecovery then none
  else if (rb.readEx C c.cursor).status = .ok then some (rb.readEx C c.cursor).msg else none

/-- The message a recovery step passes to `processMessage`, if any. -/
def recoveryInput (file : Bytes) (c : Client) : RecoveryPc → Option Msg
  | .loop e _ => if c.inRecovery ∧ !c.stopRequested then (e.nextMessage file).1 else none
  | _ => none

/-- The history after `processMessage` is given `m?` in state `c`. -/
def acceptInto (c : Client) (acc : List Msg) : Option Msg → List Msg
  | none => acc
  | some m => if c.accepts m then acc ++ [m] else acc

/-- The history after a loop iteration that went on to `pc`: a fault resets it. -/
def afterLoop (acc : List Msg) (input : Option Msg) (c : Client) : ClientPc → List Msg
  | .recovering _ => []
  | _ => acceptInto c acc input

/-- Where a thread inside `startRecovery` goes after a step. -/
def afterRecovery (next : Option RecoveryPc) (back : ClientPc) : ClientPc :=
  match next with
  | none => back
  | some pc => .recovering pc

/-- A step of the client thread. -/
def clientStep (s : Sys) : Option Sys :=
  match s.clientPc with
  | .loop =>
    let r := s.client.loopStep dbl C s.rs.ring
    some { s with
      client := r.1, clientPc := r.2,
      accepted := afterLoop s.accepted (loopInput C s.rs.ring s.client) s.client r.2 }
  | .skip => some { s with client := s.client.skipStep s.rs.ring.getLatestSeq, clientPc := .loop }
  | .recovering pc =>
    let r := s.client.recoveryStep dbl (logFile s) s.rs.ring.getLatestSeq pc
    some { s with
      client := r.1, clientPc := afterRecovery r.2 .loop,
      accepted := acceptInto s.client s.accepted (recoveryInput (logFile s) s.client pc) }
  | .exited => none

/-- A step of the thread calling `triggerFault(CLIENT_CRASH)`. -/
def triggerStep (s : Sys) : Option Sys :=
  match s.trigger with
  | .idle =>
    some { s with
      client := (s.client.onFault .clientCrash).1, trigger := .recovering .begin, accepted := [] }
  | .recovering pc =>
    let r := s.client.recoveryStep dbl (logFile s) s.rs.ring.getLatestSeq pc
    some { s with
      client := r.1,
      trigger := match r.2 with
        | none => .done
        | some pc => .recovering pc,
      accepted := acceptInto s.client s.accepted (recoveryInput (logFile s) s.client pc) }
  | .done => none

/-- One event; `none` when it cannot happen.  The producer's messages carry `int64_t`
timestamps, and it hands out fewer than `2 ^ 63` sequence numbers. -/
def step (s : Sys) : SysEvent → Option Sys
  | .recording (.produce c) =>
    if (∀ m ∈ c.msgs, IsInt64 m.timestampNs) ∧ s.rs.produced.length + c.msgs.length < 2 ^ 63 then
      (RecSys.step dbl C s.rs (.produce c)).map fun rs => { s with rs := rs }
    else none
  | .recording e => (RecSys.step dbl C s.rs e).map fun rs => { s with rs := rs }
  | .client => clientStep dbl C s
  | .trigger => triggerStep dbl s

/-- A schedule run from `s`: the events in order, `none` once one cannot happen. -/
def run (s : Sys) : List SysEvent → Option Sys
  | [] => some s
  | e :: es => (step dbl C s e).bind fun s' => run s' es

/-- The states reached from `init` by events that `ok` allows. -/
inductive Reachable (ok : SysEvent → Prop) : Sys → Prop
  | init : Reachable ok (init)
  | step {s s' : Sys} (e : SysEvent) : Reachable ok s → ok e → Sys.step dbl C s e = some s' →
      Reachable ok s'

/-- A schedule of allowed events leads from a reachable state to a reachable state. -/
theorem reachable_of_run {ok : SysEvent → Prop} :
    ∀ {s s' : Sys} (es : List SysEvent), Reachable dbl C ok s → (∀ e ∈ es, ok e) →
      run dbl C s es = some s' → Reachable dbl C ok s'
  | _, _, [], hs, _, h => by cases h; exact hs
  | s, _, e :: es, hs, hok, h => by
    obtain ⟨s1, h1, h2⟩ := Option.bind_eq_some.1 h
    exact reachable_of_run es (.step e hs (hok e (List.mem_cons_self e es)) h1)
      (fun e' he' => hok e' (List.mem_cons_of_mem e he')) h2

/-! ### Messages in the producer's order -/

/-- `ms` are the producer's messages `0, 1, …, ms.length - 1`, as they were pushed. -/
def Follows (P ms : List Msg) : Prop := ms = (List.range ms.length).map (pushedMsg P)

theorem Follows.snoc {P ms : List Msg} (h : Follows P ms) :
    Follows P (ms ++ [pushedMsg P ms.length]) := by
  unfold Follows
  rw [List.length_append, List.length_singleton, List.range_succ, List.map_append,
    List.map_singleton, ← h]

/-- More pushes leave the first messages as they were. -/
theorem Follows.mono {P P' ms : List Msg} (h : Follows P ms) (hle : ms.length ≤ P.length)
    (hP : P <+: P') : Follows P' ms := by
  obtain ⟨t, rfl⟩ := hP
  exact h.trans (List.map_congr_left fun i hi =>
    (pushedMsg_append_of_lt t ((List.mem_range.1 hi).trans_le hle)).symm)

theorem Follows.getElem {P ms : List Msg} (h : Follows P ms) {i : Nat} (hi : i < ms.length) :
    ms[i] = pushedMsg P i := by
  have : ms[i]? = some (pushedMsg P i) := by rw [h]; simp [hi]
  simpa [List.getElem?_eq_getElem hi] using this

theorem Follows.prefix {P ms ms' : List Msg} (h : Follows P ms') (hp : ms <+: ms') :
    Follows P ms := by
  obtain ⟨t, rfl⟩ := hp
  refine List.ext_getElem (by simp) fun i h1 _ => ?_
  have := h.getElem (by simp; omega : i < (ms ++ t).length)
  rw [List.getElem_append_left h1] at this
  rw [List.getElem_map, List.getElem_range, this]

/-- A pushed message is `int64_t` throughout when the producer's timestamps are and fewer
than `2 ^ 63` messages were pushed. -/
theorem pushedMsg_isInt64 {P : List Msg} (hfit : ∀ m ∈ P, IsInt64 m.timestampNs)
    (hb : P.length < 2 ^ 63) {i : Nat} (hi : i < P.length) : (pushedMsg P i).IsInt64 := by
  refine ⟨⟨by simp; omega, by simp; omega⟩, ?_⟩
  simpa [pushedMsg, List.getElem?_eq_getElem hi] using hfit _ (List.getElem_mem hi)

/-! ### The log as the replay reads it -/

/-- The recorder's log is a header, written over some prefix of the records, followed by
every record passed to `write`. -/
theorem writerOf_file (pc : RecorderPc) (calls : List WriterCall) :
    ∃ ms f, ms <+: written calls ∧ (RecSys.writerOf pc calls).file =
      encodeHeader { headerOf ms with flags := f } ++ encodeAll (written calls) := by
  obtain ⟨k, hw⟩ := FileWriteChannel.open_run_holds calls
  unfold RecSys.writerOf
  split
  · exact ⟨_, _, List.prefix_refl _, FileWriteChannel.close_file hw⟩
  · exact ⟨_, _, List.take_prefix k _, by rw [hw.file, hw.header]⟩

/-- The records a replay may meet: the producer's messages, `int64_t` throughout. -/
structure Records (P W : List Msg) : Prop where
  follows : Follows P W
  le : W.length ≤ P.length
  fit : ∀ m ∈ W, m.IsInt64

/-- A replay engine positioned at record `n` of a log whose header counted `k ≤ |W|`
records. -/
def Positioned (W : List Msg) (e : ReplayEngine) (n : Nat) : Prop :=
  ∃ k : Nat, e.channel.At n k ∧ n ≤ k ∧ k ≤ W.length

theorem Positioned.mono {W W' : List Msg} {e : ReplayEngine} {n : Nat} (h : Positioned W e n)
    (hW : W <+: W') : Positioned W' e n := by
  obtain ⟨k, hk, h1, h2⟩ := h
  exact ⟨k, hk, h1, le_trans h2 hW.length_le⟩

section Log

variable {P W ms : List Msg} {f : UInt16}

/-- `ReplayEngine::open` on the log succeeds and positions the engine at its first record. -/
theorem open_positioned (hpre : ms <+: W) (hR : Records P W) (hb : P.length < 2 ^ 63) :
    ReplayEngine.new.«open» (encodeHeader { headerOf ms with flags := f } ++ encodeAll W) =
      (true, (ReplayEngine.new.«open» (encodeHeader { headerOf ms with flags := f } ++
        encodeAll W)).2) ∧
    Positioned W (ReplayEngine.new.«open» (encodeHeader { headerOf ms with flags := f } ++
      encodeAll W)).2 0 := by
  have hlen := hpre.length_le
  have hfit : ∀ m ∈ ms, m.IsInt64 := fun m hm => hR.fit m (hpre.subset hm)
  have hms : ms.length < 2 ^ 63 := by have := hR.le; omega
  have hopen := FileChannel.open_log { headerOf ms with flags := f }
    (headerOf_isInt64 hfit hms f) (headerOf_isValid ms f) (encodeAll W)
  have h1 : (ReplayEngine.new.«open» (encodeHeader { headerOf ms with flags := f } ++
      encodeAll W)).1 = true := by
    rw [ReplayEngine.open_fst, ReplayEngine.new_channel, hopen]
  have hat : (ReplayEngine.new.«open» (encodeHeader { headerOf ms with flags := f } ++
      encodeAll W)).2.channel.At 0 ms.length := by
    rw [ReplayEngine.open_channel, ReplayEngine.new_channel, hopen]
    exact ⟨rfl, rfl, rfl, rfl, rfl⟩
  exact ⟨by rw [← h1, Prod.mk.eta], ms.length, hat, Nat.zero_le _, hlen⟩

/-- Below the header's count, `nextMessage` returns the producer's message at the engine's
position and moves on; at the count it returns nothing and stays. -/
theorem nextMessage_positioned (hR : Records P W) {e : ReplayEngine} {n k : Nat}
    (h : e.channel.At n k) (hk : k ≤ W.length) (H : FileHeader) :
    (n < k → (e.nextMessage (encodeHeader H ++ encodeAll W)).1 = some (pushedMsg P n) ∧
      (e.nextMessage (encodeHeader H ++ encodeAll W)).2.channel.At (n + 1) k) ∧
    (k ≤ n → (e.nextMessage (encodeHeader H ++ encodeAll W)).1 = none ∧
      (e.nextMessage (encodeHeader H ++ encodeAll W)).2.channel = e.channel) := by
  refine ⟨fun hn => ?_, fun hn => ?_⟩
  · have hnW : n < W.length := by omega
    obtain ⟨h1, h2⟩ := @FileChannel.readNext_at (encodeHeader H) [] W _ n k h (by omega)
      (by simp) hnW
    rw [List.append_nil] at h1 h2
    rw [ReplayEngine.nextMessage_fst, h1, ReplayEngine.nextMessage_channel,
      Msg.toInt64_of_isInt64 (hR.fit _ (List.getElem_mem hnW)), hR.follows.getElem hnW]
    exact ⟨rfl, h2⟩
  · have hend := FileChannel.readNext_end h (by omega) (encodeHeader H ++ encodeAll W)
    rw [ReplayEngine.nextMessage_fst, ReplayEngine.nextMessage_channel, hend]
    exact ⟨rfl, rfl⟩

end Log

/-- Under strictly increasing non-negative sequence numbers, record `i` is numbered at
least `i`. -/
theorem le_seqNum_getElem {ms : List Msg} (hs : ms.Pairwise (fun a b => a.seqNum < b.seqNum))
    (hnn : ∀ m ∈ ms, 0 ≤ m.seqNum) (i : Nat) (hi : i < ms.length) : (i : Int) ≤ ms[i].seqNum := by
  induction i with
  | zero => exact hnn _ (List.getElem_mem _)
  | succ i ih =>
    have hlt := List.pairwise_iff_getElem.1 hs i (i + 1) (by omega) hi (by omega)
    have := ih (by omega)
    omega

/-- The recorder records each sequence number at most once, and only pushed ones. -/
theorem length_le_of_counts {P recs : List Msg} {r : Recorder}
    (hc : Recorder.Counts dbl P recs r) : recs.length ≤ P.length := by
  rcases Nat.eq_zero_or_pos recs.length with h0 | hpos
  · omega
  · have h1 := le_seqNum_getElem hc.sorted (fun m hm => (hc.pushed m hm).1) _
      (Nat.sub_lt hpos Nat.one_pos)
    have h2 := (hc.pushed _ (List.getElem_mem (Nat.sub_lt hpos Nat.one_pos))).2.1
    omega

/-- While the recorder has never been lapped, what it has passed to `write` is the
producer's first messages. -/
theorem records_of_inv {rs : RecSys} (h : RecSys.Inv dbl C rs)
    (h0 : rs.recorder.overwriteCount = 0) (hfit : ∀ m ∈ rs.produced, IsInt64 m.timestampNs)
    (hb : rs.produced.length < 2 ^ 63) : Records rs.produced (written rs.calls) := by
  have hc := h.acc
  have hseq : ∀ i (hi : i < rs.records.length), rs.records[i].seqNum = i := fun i hi => by
    have := congrArg (fun l => l[i]?) (hc.contiguous h0).1
    simpa [hi] using this
  have hR : Follows rs.produced rs.records := List.ext_getElem (by simp) fun i h1 _ => by
    rw [List.getElem_map, List.getElem_range, (hc.pushed _ (List.getElem_mem h1)).2.2,
      hseq i h1]
    rfl
  have hRP := length_le_of_counts dbl hc
  have hW : Follows rs.produced (written rs.calls) := hR.prefix (List.prefix_append _ _)
  have hWR : (written rs.calls).length ≤ rs.records.length := by simp [RecSys.records]
  refine ⟨hW, by omega, fun m hm => ?_⟩
  obtain ⟨i, hi, rfl⟩ := List.getElem_of_mem hm
  rw [hW.getElem hi]
  exact pushedMsg_isInt64 hfit hb (by omega)

/-! ### The catch-up predicate on the recorder's log -/

/-- A prefix of what the recorder has recorded ends at a sequence number at least its
length less one, and exactly that while the recorder has never been lapped. -/
theorem seqNum_getLast_of_prefix {P recs : List Msg} {r : Recorder}
    (hc : Recorder.Counts dbl P recs r) {ms : List Msg} (hpre : ms <+: recs) {y : Msg}
    (hy : y ∈ ms.getLast?) :
    (ms.length : Int) ≤ y.seqNum + 1 ∧ (r.overwriteCount = 0 → y.seqNum + 1 = ms.length) := by
  obtain ⟨ms, z, rfl⟩ := (List.eq_nil_or_concat ms).resolve_left (by rintro rfl; simp at hy)
  rw [List.concat_eq_append] at hpre hy ⊢
  simp only [List.getLast?_append, List.getLast?_singleton, Option.or_some, Option.mem_def,
    Option.some.injEq] at hy
  subst hy
  obtain ⟨t, rfl⟩ := hpre
  have hi : ms.length < (ms ++ [z] ++ t).length := by
    simp only [List.length_append, List.length_singleton]; omega
  have hget : (ms ++ [z] ++ t)[ms.length] = z := by simp [List.getElem_append_right]
  refine ⟨?_, fun h0 => ?_⟩
  · have := le_seqNum_getElem hc.sorted (fun m hm => (hc.pushed m hm).1) ms.length hi
    rw [hget] at this
    simp only [List.length_append, List.length_singleton]
    omega
  · have := congrArg (·[ms.length]?) (hc.contiguous h0).1
    simp only [List.getElem?_map, List.getElem?_eq_getElem hi, hget, Option.map_some',
      List.getElem?_range hi, Option.some.injEq, Int.ofNat_eq_coe] at this
    simp only [List.length_append, List.length_singleton, this]
    omega

/-- **A replay of the recorder's log reads what it recorded**, in order: at every point of
a replay from `open` through `nextMessage`, the records returned are the first records the
recorder took from the ring. -/
theorem replayed_prefix_of_inv {rs : RecSys} (h : RecSys.Inv dbl C rs)
    (hfit : ∀ m ∈ rs.produced, IsInt64 m.timestampNs) (hb : rs.produced.length < 2 ^ 63)
    {e : ReplayEngine} {ms : List Msg} (hr : ReplayEngine.Replayed rs.recorder.channel.file e ms) :
    ms <+: rs.records := by
  have hc := h.acc
  -- the log: a header over some records written, then every record written
  obtain ⟨pre, f, hpre, hfile⟩ := writerOf_file rs.pc rs.calls
  have hr' : ReplayEngine.Replayed (encodeHeader { headerOf pre with flags := f } ++
      encodeAll (written rs.calls) ++ []) e ms := by
    rwa [List.append_nil, ← hfile, ← h.writer]
  have hW : written rs.calls <+: rs.records := List.prefix_append _ _
  have hfitW : ∀ m ∈ written rs.calls, m.IsInt64 := fun m hm => by
    obtain ⟨h0, hlt, heq⟩ := hc.pushed m (hW.subset hm)
    rw [heq]
    exact pushedMsg_isInt64 hfit hb (by omega)
  have hopen := FileChannel.open_log { headerOf pre with flags := f }
    (headerOf_isInt64 (fun m hm => hfitW m (hpre.subset hm))
      (by have := hpre.length_le; have := hW.length_le; have := length_le_of_counts dbl hc; omega)
      f)
    (headerOf_isValid pre f) (encodeAll (written rs.calls) ++ [])
  rw [← List.append_assoc] at hopen
  rw [hr'.eq_take (length_encodeHeader _) (by rw [hopen]; exact Int.ofNat_le.2 hpre.length_le),
    List.map_congr_left fun m hm => Msg.toInt64_of_isInt64 (hfitW m (List.mem_of_mem_take hm)),
    List.map_id']
  exact (List.take_prefix _ _).trans hW

/-- **The catch-up predicate on the recorder's log.**  In every state an interleaving of
the producer and the recorder reaches, at every point of a replay of the recorder's log
from `open` through `nextMessage`, `shouldSwitchToLive(L)` compares `L` with the number `k`
of records returned, not with the sequence number of the last one: it holds exactly when
`L - k ≤ CATCHUP_THRESHOLD`.  The last record returned is numbered at least `k - 1`, and
exactly `k - 1` while the recorder has never been lapped; `shouldSwitchToLive(L)` then holds
exactly when `L - seq_num ≤ CATCHUP_THRESHOLD + 1`, one more than `startRecovery`'s
`seq_num ≥ L - CATCHUP_THRESHOLD` allows. -/
theorem shouldSwitchToLive_of_recorder_log {batchSize : Nat} {s : RecSys}
    (hs : RecSys.Reachable dbl C batchSize s) (hfit : ∀ m ∈ s.produced, IsInt64 m.timestampNs)
    (hb : s.produced.length < 2 ^ 63) {e : ReplayEngine} {ms : List Msg}
    (hr : ReplayEngine.Replayed s.recorder.channel.file e ms) (liveSeq : Int) :
    e.shouldSwitchToLive liveSeq = decide (liveSeq - ms.length ≤ catchupThreshold) ∧
    ∀ y ∈ ms.getLast?, (ms.length : Int) ≤ y.seqNum + 1 ∧
      (s.recorder.overwriteCount = 0 →
        e.shouldSwitchToLive liveSeq = decide (liveSeq - y.seqNum ≤ catchupThreshold + 1)) := by
  have h := RecSys.reachable_inv hs
  refine ⟨hr.shouldSwitchToLive_eq liveSeq, fun y hy => ?_⟩
  obtain ⟨h1, h2⟩ :=
    seqNum_getLast_of_prefix dbl h.acc (replayed_prefix_of_inv dbl C h hfit hb hr) hy
  refine ⟨h1, fun h0 => ?_⟩
  rw [hr.shouldSwitchToLive_eq, decide_eq_decide]
  have := h2 h0
  omega

set_option maxRecDepth 20000 in
/-- One message pushed, recorded and flushed, and read back once, against `L = 101`. -/
theorem shouldSwitchToLive_of_recorder_log_one_record :
    ∃ s e, (RecSys.Reachable ⟨(· + ·), (· - ·)⟩ ⟨4, ⟨2, rfl⟩⟩ 4 s ∧
        (∀ m ∈ s.produced, IsInt64 m.timestampNs) ∧ s.produced.length < 2 ^ 63 ∧
        ReplayEngine.Replayed s.recorder.channel.file e [⟨0, 0, 0⟩]) ∧
      e.shouldSwitchToLive 101 =
        decide (101 - ([⟨0, 0, 0⟩] : List Msg).length ≤ catchupThreshold) ∧
      ∀ y ∈ ([⟨0, 0, 0⟩] : List Msg).getLast?,
        (([⟨0, 0, 0⟩] : List Msg).length : Int) ≤ y.seqNum + 1 ∧
        (s.recorder.overwriteCount = 0 →
          e.shouldSwitchToLive 101 = decide (101 - y.seqNum ≤ catchupThreshold + 1)) :=
  have hs : RecSys.Reachable ⟨(· + ·), (· - ·)⟩ ⟨4, ⟨2, rfl⟩⟩ 4 _ :=
    .step .recorder (.step .recorder (.step (.produce (.push ⟨0, 0, 0⟩)) .init rfl) rfl) rfl
  have hr := ReplayEngine.Replayed.next_some (m := ⟨0, 0, 0⟩)
    (@ReplayEngine.Replayed.opened (RecSys.recorder _).channel.file) (by decide)
  ⟨_, _, ⟨hs, by decide, by decide, hr⟩,
    shouldSwitchToLive_of_recorder_log _ _ hs (by decide) (by decide) hr 101⟩

set_option maxRecDepth 20000 in
/-- One message pushed, recorded and flushed, and read back once: against `L = 101` the
engine would switch, while `startRecovery`'s test `0 ≥ 101 - CATCHUP_THRESHOLD` fails. -/
theorem shouldSwitchToLive_one_past_startRecovery :
    ∃ s e, RecSys.Reachable ⟨(· + ·), (· - ·)⟩ ⟨4, ⟨2, rfl⟩⟩ 4 s ∧
      ReplayEngine.Replayed s.recorder.channel.file e [⟨0, 0, 0⟩] ∧
      e.shouldSwitchToLive 101 = true ∧
      ¬((⟨0, 0, 0⟩ : Msg).seqNum ≥ 101 - catchupThreshold) :=
  ⟨_, _, .step .recorder (.step .recorder (.step (.produce (.push ⟨0, 0, 0⟩)) .init rfl) rfl) rfl,
    .next_some .opened (by decide), by decide, by decide⟩

/-- Along a chain, every adjacent pair is related. -/
theorem rel_of_mem_zip_tail {α : Type} {R : α → α → Prop} {l : List α} (hl : l.Chain' R)
    {p : α × α} (h : p ∈ l.zip l.tail) : R p.1 p.2 := by
  induction l with
  | nil => simp at h
  | cons a l ih =>
    cases l with
    | nil => simp at h
    | cons b l =>
      rcases List.mem_cons.1 h with rfl | h
      · exact hl.rel_head
      · exact ih hl.tail h

end Sys

/-! ### What the client keeps -/

/-- The cursor is at a sequence number the ring has overwritten, as it stays while the
producer pushes. -/
def Lapped (C : Capacity) (P : List Msg) (x : Int) : Prop := 0 ≤ x ∧ x + C.val < P.length

theorem Lapped.mono {C : Capacity} {P P' : List Msg} {x : Int} (h : Lapped C P x)
    (hP : P <+: P') : Lapped C P' x := by
  have := hP.length_le
  exact ⟨h.1, by have := h.2; omega⟩

/-- What holds at each program point of `startRecovery` for a client that has accepted `n`
messages since its reset, on a log holding the records `W`: the cursor stays where the ring
lapped it until the recovery places it, and the engine stands at record `n`. -/
def RecoveryPc.Replays (C : Capacity) (P W : List Msg) (n : Nat) (c : Client) :
    RecoveryPc → Prop
  | .begin => n = 0 ∧ Lapped C P c.cursor
  | .open => n = 0 ∧ Lapped C P c.cursor ∧ c.inRecovery = true
  | .loop e last =>
    last = n - 1 ∧ Lapped C P c.cursor ∧ c.inRecovery = true ∧ Sys.Positioned W e n
  | .check e m =>
    0 < n ∧ m = pushedMsg P (n - 1) ∧ Lapped C P c.cursor ∧ c.inRecovery = true ∧
      Sys.Positioned W e n
  | .finish _ last switched =>
    last = n - 1 ∧ (switched = true → c.cursor = n) ∧ (switched = false → Lapped C P c.cursor)

/-- What holds at each program point of `run`'s thread: at the loop head the cursor is the
next sequence number wanted or, with nothing accepted, still where the ring lapped it;
automatic recovery never skips and no stop is requested. -/
def ClientPc.Consumes (C : Capacity) (P W : List Msg) (n : Nat) (c : Client) :
    ClientPc → Prop
  | .loop => c.inRecovery = false ∧ (c.cursor = n ∨ n = 0 ∧ Lapped C P c.cursor)
  | .recovering pc => pc.Replays C P W n c
  | .skip | .exited => False

theorem RecoveryPc.Replays.mono {C : Capacity} {P W P' W' : List Msg} {n : Nat} {c : Client}
    {pc : RecoveryPc} (h : pc.Replays C P W n c) (hn : n ≤ P.length) (hP : P <+: P')
    (hW : W <+: W') : pc.Replays C P' W' n c := by
  cases pc with
  | begin => exact ⟨h.1, h.2.mono hP⟩
  | «open» => exact ⟨h.1, h.2.1.mono hP, h.2.2⟩
  | loop e last => exact ⟨h.1, h.2.1.mono hP, h.2.2.1, h.2.2.2.mono hW⟩
  | check e m =>
    obtain ⟨t, rfl⟩ := hP
    exact ⟨h.1, h.2.1.trans (pushedMsg_append_of_lt t (by have := h.1; omega)).symm,
      h.2.2.1.mono (List.prefix_append _ _), h.2.2.2.1, h.2.2.2.2.mono hW⟩
  | finish e last switched => exact ⟨h.1, h.2.1, fun hs => (h.2.2 hs).mono hP⟩

namespace Sys

variable {dbl : DoubleArith} {C : Capacity}

/-- The client's accumulator after accepting `acc` since its last reset: INV-C1's last
sequence number, the count and the Kahan sum are those of `acc`, the producer's first
messages in order. -/
structure Sums (dbl : DoubleArith) (P acc : List Msg) (c : Client) : Prop where
  follows : Follows P acc
  le : acc.length ≤ P.length
  last : c.lastSeq = acc.length - 1
  count : c.processedCount = acc.length
  sum : (c.sum, c.kahanC) = kahanFold dbl (acc.map Msg.payload)

section Sums

variable {P acc : List Msg} {c : Client}

theorem Sums.reset (dbl : DoubleArith) (P : List Msg) (c : Client) : Sums dbl P [] c.crashReset :=
  ⟨rfl, Nat.zero_le _, rfl, rfl, rfl⟩

/-- Only the last sequence number, the count and the sum matter. -/
theorem Sums.of_eq (h : Sums dbl P acc c) {c' : Client} (h1 : c'.lastSeq = c.lastSeq)
    (h2 : c'.processedCount = c.processedCount) (h3 : (c'.sum, c'.kahanC) = (c.sum, c.kahanC)) :
    Sums dbl P acc c' :=
  ⟨h.follows, h.le, h1.trans h.last, h2.trans h.count, h3.trans h.sum⟩

theorem Sums.mono (h : Sums dbl P acc c) {P' : List Msg} (hP : P <+: P') : Sums dbl P' acc c := by
  obtain ⟨t, rfl⟩ := hP
  exact ⟨h.follows.mono h.le (List.prefix_append _ _), by simp; have := h.le; omega, h.last,
    h.count, h.sum⟩

/-- The producer's next message is accepted, and the accumulator moves on to it. -/
theorem Sums.accept (h : Sums dbl P acc c) (hn : acc.length < P.length) :
    c.accepts (pushedMsg P acc.length) ∧
      Sums dbl P (acc ++ [pushedMsg P acc.length])
        (c.processMessage dbl (pushedMsg P acc.length)) := by
  have hacc : c.accepts (pushedMsg P acc.length) := by
    simp only [Client.accepts, h.last, pushedMsg_seqNum]; omega
  obtain ⟨h1, h2, h3⟩ := Client.processMessage_of_accepts dbl c hacc
  refine ⟨hacc, h.follows.snoc, by simp; omega, ?_, ?_, ?_⟩
  · rw [h1]; simp
  · rw [h2, h.count]; simp
  · rw [h3, h.sum]; simp

end Sums

/-- What the client thread keeps, over the pushes `P` and the records `W`: its accumulator
is that of the history `acc`, automatic recovery stays on, no stop is requested, and its
program point is where `acc` puts it. -/
structure Keeps (dbl : DoubleArith) (C : Capacity) (P W acc : List Msg) (c : Client)
    (pc : ClientPc) : Prop where
  sums : Sums dbl P acc c
  auto : c.autoFaultDetection = true
  stop : c.stopRequested = false
  pc : pc.Consumes C P W acc.length c

section Keeps

variable {P W acc : List Msg} {c : Client}

theorem Keeps.mono {pc : ClientPc} (h : Keeps dbl C P W acc c pc) {P' W' : List Msg}
    (hP : P <+: P') (hW : W <+: W') : Keeps dbl C P' W' acc c pc := by
  refine ⟨h.sums.mono hP, h.auto, h.stop, ?_⟩
  have hpc := h.pc
  cases pc with
  | loop => exact ⟨hpc.1, hpc.2.imp_right fun h' => ⟨h'.1, h'.2.mono hP⟩⟩
  | recovering pc => exact RecoveryPc.Replays.mono hpc h.sums.le hP hW
  | skip | exited => exact hpc.elim

omit dbl in
/-- What a loop iteration passes to `processMessage` on a ring holding the pushes `P`. -/
theorem loopInput_ringOf (hs : c.stopRequested = false) (hr : c.inRecovery = false) :
    loopInput C (ringOf C P) c =
      if c.cursor < 0 ∨ P.length ≤ c.cursor then none
      else if c.cursor + C.val < P.length then none
      else some (pushedMsg P c.cursor.toNat) := by
  simp only [loopInput, hs, hr, RingBuffer.readEx_ringOf, Bool.false_eq_true, or_self, if_false]
  split_ifs <;> first | rfl | contradiction

/-- **The loop head.**  Past the ring's head nothing happens; a ring that has lapped the
cursor resets the accumulator and starts a recovery; otherwise the next message is
accepted. -/
theorem Keeps.loop (h : Keeps dbl C P W acc c .loop) :
    Keeps dbl C P W (afterLoop acc (loopInput C (ringOf C P) c) c
      (c.loopStep dbl C (ringOf C P)).2) (c.loopStep dbl C (ringOf C P)).1
      (c.loopStep dbl C (ringOf C P)).2 := by
  obtain ⟨hrec, hcur⟩ := h.pc
  rw [Client.loopStep_ringOf dbl C c P h.stop hrec h.auto, loopInput_ringOf h.stop hrec]
  split_ifs with h1 h2
  · exact h
  · exact ⟨Sums.reset dbl P _, h.auto, h.stop, rfl, by dsimp only [Client.crashReset]; omega, h2⟩
  · have hn : c.cursor = acc.length := by
      rcases hcur with h' | ⟨-, h'⟩
      · exact h'
      · exact absurd h'.2 h2
    have hm : pushedMsg P c.cursor.toNat = pushedMsg P acc.length := by rw [hn]; rfl
    obtain ⟨hacc, hsums⟩ := h.sums.accept (by omega)
    rw [hm]
    simp only [afterLoop, acceptInto, if_pos hacc]
    exact ⟨hsums.of_eq rfl rfl rfl, by simp [h.auto], by simp [h.stop], by simp [hrec], by simp [hn]⟩

/-- **A recovery step.**  On a log over the records `W`, with the ring's head at the last
push: the replay opens at record `0`, accepts the records in order, and hands the cursor
back just past the last one, or where the ring lapped it when there was none. -/
theorem Keeps.recovery {pc : RecoveryPc} {ms : List Msg} {f : UInt16} {file : Bytes}
    (hR : Records P W) (hb : P.length < 2 ^ 63) (hpre : ms <+: W)
    (hfile : file = encodeHeader { headerOf ms with flags := f } ++ encodeAll W)
    (h : Keeps dbl C P W acc c (.recovering pc)) :
    Keeps dbl C P W (acceptInto c acc (recoveryInput file c pc))
      (c.recoveryStep dbl file (P.length - 1) pc).1
      (afterRecovery (c.recoveryStep dbl file (P.length - 1) pc).2 .loop) := by
  cases pc with
  | begin =>
    obtain ⟨h0, hl⟩ := h.pc
    rw [Client.recoveryStep_begin]
    exact ⟨h.sums.of_eq rfl rfl rfl, h.auto, h.stop, h0, hl, rfl⟩
  | «open» =>
    obtain ⟨h0, hl, hr⟩ := h.pc
    obtain ⟨hok, hpos⟩ := open_positioned (f := f) hpre hR hb
    rw [← hfile] at hok hpos
    rw [Client.recoveryStep_open _ _ _ _ hok]
    refine ⟨h.sums, h.auto, h.stop, ?_, hl, hr, ?_⟩
    · show invalidSeq = (acc.length : Int) - 1
      rw [h0]; rfl
    · show Positioned W _ acc.length
      rwa [h0]
  | loop e last =>
    obtain ⟨hlast, hl, hr, k, hat, hnk, hkW⟩ := h.pc
    have hread := nextMessage_positioned hR hat hkW { headerOf ms with flags := f }
    rw [← hfile] at hread
    have hin : recoveryInput file c (.loop e last) = (e.nextMessage file).1 := by
      simp [recoveryInput, hr, h.stop]
    by_cases hn : acc.length < k
    · -- the next record is the producer's next message
      obtain ⟨hy, hat'⟩ := hread.1 hn
      obtain ⟨hacc, hsums⟩ := h.sums.accept (by have := hR.le; omega)
      rw [Client.recoveryStep_loop_some dbl _ _ c hr h.stop hy, hin, hy]
      simp only [acceptInto, if_pos hacc]
      refine ⟨hsums, by simp [h.auto], by simp [h.stop], ?_⟩
      simp only [afterRecovery, ClientPc.Consumes, RecoveryPc.Replays, List.length_append,
        List.length_singleton, Client.processMessage_cursor, Client.processMessage_inRecovery]
      exact ⟨by omega, by rw [Nat.add_sub_cancel], hl, hr, k, hat', hn, hkW⟩
    · -- the header's count is reached
      obtain ⟨hy, -⟩ := hread.2 (by omega)
      rw [Client.recoveryStep_loop_none dbl _ _ c hr h.stop hy, hin, hy]
      exact ⟨h.sums, h.auto, h.stop, hlast, nofun, fun _ => hl⟩
  | check e m =>
    obtain ⟨hpos, hm, hl, hr, hposd⟩ := h.pc
    have hseq : m.seqNum = (acc.length : Int) - 1 := by rw [hm, pushedMsg_seqNum]; omega
    by_cases hsw : (P.length : Int) - 1 ≥ 0 ∧ m.seqNum ≥ (P.length : Int) - 1 - catchupThreshold
    · -- close enough to the ring's head: switch to it
      rw [Client.recoveryStep_check_switch dbl _ _ c hsw]
      refine ⟨h.sums.of_eq rfl rfl rfl, h.auto, h.stop, hseq, fun _ => ?_, nofun⟩
      show m.seqNum + 1 = (acc.length : Int)
      omega
    · rw [Client.recoveryStep_check_stay dbl _ _ c hsw]
      exact ⟨h.sums, h.auto, h.stop, hseq, hl, hr, hposd⟩
  | finish e last switched =>
    obtain ⟨hlast, hsw, hlap⟩ := h.pc
    rw [Client.recoveryStep_finish]
    split_ifs with hcond
    · refine ⟨h.sums.of_eq rfl rfl rfl, h.auto, h.stop, rfl, Or.inl ?_⟩
      show last + 1 = (acc.length : Int)
      omega
    · refine ⟨h.sums.of_eq rfl rfl rfl, h.auto, h.stop, rfl, ?_⟩
      cases switched with
      | true => exact Or.inl (hsw rfl)
      | false =>
        have hinv : last = invalidSeq := by simpa using hcond
        exact Or.inr ⟨show acc.length = 0 by rw [invalidSeq_eq] at hinv; omega, hlap rfl⟩

end Keeps

/-! ### The system without `triggerFault` -/

/-- The invariant of the system: that of the producer and the recorder, `int64_t` pushes,
and, while the recorder has never been lapped, what the client keeps. -/
structure Inv (dbl : DoubleArith) (C : Capacity) (s : Sys) : Prop where
  recSys : RecSys.Inv dbl C s.rs
  fit : ∀ m ∈ s.rs.produced, IsInt64 m.timestampNs
  bound : s.rs.produced.length < 2 ^ 63
  keeps : s.rs.recorder.overwriteCount = 0 →
    Keeps dbl C s.rs.produced (written s.rs.calls) s.accepted s.client s.clientPc

variable {s s' : Sys}

theorem init_inv : Inv dbl C init :=
  ⟨RecSys.init_inv diskBatchSize, by simp [init, RecSys.init], by simp [init, RecSys.init],
    fun _ => ⟨⟨rfl, le_refl _, rfl, rfl, rfl⟩, rfl, rfl, rfl, Or.inl rfl⟩⟩

/-- A producer call, a recorder step or `stop` keeps the pushes `int64_t`, only adds to the
pushes and to the writer's calls, and only adds to the recorder's overwrite count. -/
theorem step_recording {e : RecEvent} (h : Inv dbl C s)
    (hs : step dbl C s (.recording e) = some s') :
    ∃ rs', RecSys.step dbl C s.rs e = some rs' ∧ s' = { s with rs := rs' } ∧
      (∀ m ∈ rs'.produced, IsInt64 m.timestampNs) ∧ rs'.produced.length < 2 ^ 63 ∧
      s.rs.produced <+: rs'.produced ∧ s.rs.calls <+: rs'.calls ∧
      s.rs.recorder.overwriteCount ≤ rs'.recorder.overwriteCount := by
  cases e with
  | produce c =>
    simp only [step] at hs
    split_ifs at hs with hg
    refine ⟨_, rfl, (Option.some.inj hs).symm, fun m hm => ?_, by simpa using hg.2,
      List.prefix_append _ _, List.prefix_refl _, le_refl _⟩
    rcases List.mem_append.1 hm with hm | hm
    exacts [h.fit m hm, hg.1 m hm]
  | recorder =>
    obtain ⟨rs', hrs, rfl⟩ := Option.map_eq_some'.1 hs
    obtain ⟨-, hp, ⟨w, hw⟩, hoc⟩ := RecSys.recorderStep_frame hrs
    exact ⟨rs', hrs, rfl, hp ▸ h.fit, hp ▸ h.bound, hp ▸ List.prefix_refl _,
      hw ▸ List.prefix_append _ _, hoc⟩
  | requestStop =>
    simp only [step] at hs
    obtain ⟨rs', hrs, rfl⟩ := Option.map_eq_some'.1 hs
    cases hrs
    exact ⟨_, rfl, rfl, h.fit, h.bound, List.prefix_refl _, List.prefix_refl _, le_refl _⟩
  | finishStop =>
    simp only [step] at hs
    obtain ⟨rs', hrs, rfl⟩ := Option.map_eq_some'.1 hs
    have hrs' := hrs
    simp only [RecSys.step] at hrs'
    split_ifs at hrs'
    cases hrs'
    exact ⟨_, hrs, rfl, h.fit, h.bound, List.prefix_refl _, List.prefix_append _ _, le_refl _⟩

/-- A step of the client thread keeps the invariant. -/
theorem clientStep_inv (h : Inv dbl C s) (hs : clientStep dbl C s = some s') : Inv dbl C s' := by
  obtain ⟨rs, c, pc, tr, acc⟩ := s
  have hring : rs.ring = ringOf C rs.produced := h.recSys.ring
  cases pc with
  | loop =>
    cases hs
    refine ⟨h.recSys, h.fit, h.bound, fun h0 => ?_⟩
    have := (h.keeps h0).loop
    simp only [hring]
    exact this
  | recovering pc =>
    cases hs
    refine ⟨h.recSys, h.fit, h.bound, fun h0 => ?_⟩
    obtain ⟨ms, f, hpre, hfile⟩ := writerOf_file rs.pc rs.calls
    have hlog : logFile ⟨rs, c, .recovering pc, tr, acc⟩ =
        encodeHeader { headerOf ms with flags := f } ++ encodeAll (written rs.calls) := by
      rw [logFile, h.recSys.writer, hfile]
    have hlatest : rs.ring.getLatestSeq = rs.produced.length - 1 := by rw [hring]; rfl
    rw [hlatest]
    exact (h.keeps h0).recovery (records_of_inv dbl C h.recSys h0 h.fit h.bound) h.bound hpre hlog
  | skip =>
    cases hs
    exact ⟨h.recSys, h.fit, h.bound, fun h0 => (h.keeps h0).pc.elim⟩
  | exited => cases hs

/-- **Each event but `triggerFault` keeps the invariant.** -/
theorem step_inv {e : SysEvent} (h : Inv dbl C s) (he : e ≠ .trigger)
    (hs : step dbl C s e = some s') : Inv dbl C s' := by
  cases e with
  | recording e =>
    obtain ⟨rs', hrs, rfl, hfit, hb, hP, hW, hoc⟩ := step_recording h hs
    refine ⟨RecSys.step_inv h.recSys hrs, hfit, hb, fun h0 => ?_⟩
    have h0 : rs'.recorder.overwriteCount = 0 := h0
    have h0' : s.rs.recorder.overwriteCount = 0 := by have := h.recSys.acc.overwrites; omega
    obtain ⟨t, ht⟩ := hW
    refine (h.keeps h0').mono hP ?_
    rw [← ht, written_append]
    exact List.prefix_append _ _
  | client => exact clientStep_inv h hs
  | trigger => exact absurd rfl he

/-- **The invariant holds in every state reached without `triggerFault`.** -/
theorem reachable_inv (hs : Reachable dbl C (· ≠ .trigger) s) : Inv dbl C s := by
  induction hs with
  | init => exact init_inv
  | step e _ he hstep ih => exact step_inv ih he hstep

/-- **What the client has accepted.**  With automatic recovery and no `triggerFault`, in
every state of every interleaving of the producer, the recorder and the client in which the
recorder has never been lapped, for every ring capacity: the messages the client has
accepted since its last reset are the producer's messages `0, 1, …, last_seq`, in order
and each once; `processed_count` is `last_seq + 1` and `(sum, kahan_c)` is the Kahan sum of
their payloads.  This holds across any number of recoveries, so no replay-to-live switch
loses or repeats a message. -/
theorem client_accepts_in_order (hs : Reachable dbl C (· ≠ .trigger) s)
    (hrec : s.rs.recorder.overwriteCount = 0) :
    invalidSeq ≤ s.client.lastSeq ∧
    s.accepted = (List.range (s.client.lastSeq + 1).toNat).map (pushedMsg s.rs.produced) ∧
    s.client.processedCount = s.client.lastSeq + 1 ∧
    (s.client.sum, s.client.kahanC) = kahanFold dbl
      ((List.range (s.client.lastSeq + 1).toNat).map fun i => (pushedMsg s.rs.produced i).payload) := by
  have h := ((reachable_inv hs).keeps hrec).sums
  have hn : (s.client.lastSeq + 1).toNat = s.accepted.length := by rw [h.last]; simp
  refine ⟨by rw [h.last, invalidSeq_eq]; omega, by rw [hn]; exact h.follows,
    by rw [h.count, h.last]; omega, ?_⟩
  rw [h.sum, hn]
  conv_lhs => rw [h.follows, List.map_map]
  rfl

set_option maxRecDepth 20000 in
/-- A ring of two slots: the producer pushes `0, 1`, the recorder records them, the
producer pushes `2`, and the recorder records it and writes its batch.  The client, lapped
at `0`, recovers from the log: it replays record `0`, switches to the ring at `1`, and reads
`1` and `2` live. -/
theorem client_accepts_in_order_after_recovery :
    ∃ s, Reachable ⟨(· + ·), (· - ·)⟩ ⟨2, ⟨1, rfl⟩⟩ (· ≠ .trigger) s ∧
      s.rs.recorder.overwriteCount = 0 ∧ s.client.recoveryCount = 1 ∧ s.client.lastSeq = 2 ∧
      invalidSeq ≤ s.client.lastSeq ∧
      s.accepted = (List.range (s.client.lastSeq + 1).toNat).map (pushedMsg s.rs.produced) ∧
      s.client.processedCount = s.client.lastSeq + 1 ∧
      (s.client.sum, s.client.kahanC) = kahanFold ⟨(· + ·), (· - ·)⟩
        ((List.range (s.client.lastSeq + 1).toNat).map
          fun i => (pushedMsg s.rs.produced i).payload) := by
  have h : (run ⟨(· + ·), (· - ·)⟩ ⟨2, ⟨1, rfl⟩⟩ init
      [.recording (.produce (.pushBatch [⟨0, 0, 1⟩, ⟨0, 0, 2⟩])),
        .recording .recorder, .recording .recorder,
        .recording (.produce (.push ⟨0, 0, 3⟩)), .recording .recorder, .recording .recorder,
        .client, .client, .client, .client, .client, .client, .client, .client]).map
      (fun s => (s.rs.recorder.overwriteCount, s.client.recoveryCount, s.client.lastSeq)) =
      some (0, 1, 2) := by decide
  obtain ⟨s, hrun, hobs⟩ := Option.map_eq_some'.1 h
  simp only [Prod.mk.injEq] at hobs
  have hs : Reachable ⟨(· + ·), (· - ·)⟩ ⟨2, ⟨1, rfl⟩⟩ (· ≠ .trigger) s :=
    reachable_of_run _ _ _ .init (by simp) hrun
  exact ⟨s, hs, hobs.1, hobs.2.1, hobs.2.2, client_accepts_in_order hs hobs.1⟩

/-! ### INV-C1 in every interleaving -/

/-- The client's accumulator is that of the messages `acc` accepted since the last reset,
and each of them exceeds the one accepted before it unless that one was `INVALID_SEQ`. -/
structure Matches (dbl : DoubleArith) (acc : List Msg) (c : Client) : Prop where
  last : c.lastSeq = lastSeqOf acc
  count : c.processedCount = acc.length
  sum : (c.sum, c.kahanC) = kahanFold dbl (acc.map Msg.payload)
  order : acc.Chain' fun a b => a.seqNum ≠ invalidSeq → a.seqNum < b.seqNum

section Matches

variable {acc : List Msg} {c : Client}

theorem Matches.of_eq (h : Matches dbl acc c) {c' : Client} (h1 : c'.lastSeq = c.lastSeq)
    (h2 : c'.processedCount = c.processedCount) (h3 : (c'.sum, c'.kahanC) = (c.sum, c.kahanC)) :
    Matches dbl acc c' :=
  ⟨h1.trans h.last, h2.trans h.count, h3.trans h.sum, h.order⟩

theorem Matches.reset (dbl : DoubleArith) (c : Client) : Matches dbl [] c.crashReset :=
  ⟨rfl, rfl, rfl, List.chain'_nil⟩

/-- `processMessage` keeps the accumulator that of the accepted messages. -/
theorem Matches.process (h : Matches dbl acc c) (m : Msg) :
    Matches dbl (acceptInto c acc (some m)) (c.processMessage dbl m) := by
  by_cases hacc : c.accepts m
  · obtain ⟨h1, h2, h3⟩ := Client.processMessage_of_accepts dbl c hacc
    simp only [acceptInto, if_pos hacc]
    refine ⟨by rw [h1]; simp, by rw [h2, h.count]; simp, by rw [h3, h.sum]; simp,
      List.chain'_append.2 ⟨h.order, List.chain'_singleton m, fun x hx y hy hxv => ?_⟩⟩
    obtain ⟨acc', z, rfl⟩ := (List.eq_nil_or_concat acc).resolve_left (by rintro rfl; simp at hx)
    rw [List.concat_eq_append] at h hx
    simp only [List.getLast?_append, List.getLast?_singleton, Option.or_some, Option.mem_def,
      Option.some.injEq, List.head?_cons] at hx hy
    subst hx hy
    simp only [Client.accepts, h.last, lastSeqOf_append_singleton] at hacc
    omega
  · rw [Client.processMessage_of_not_accepts dbl c hacc]
    simp only [acceptInto, if_neg hacc]
    exact h.of_eq rfl rfl rfl

/-- A loop iteration keeps it: it processes the message it reads, resets the accumulator on
a fault, and touches only the cursor and the metrics otherwise. -/
theorem Matches.loop (h : Matches dbl acc c) (rb : RingBuffer) :
    Matches dbl (afterLoop acc (loopInput C rb c) c (c.loopStep dbl C rb).2)
      (c.loopStep dbl C rb).1 := by
  by_cases hs : c.stopRequested
  · simp only [Client.loopStep, loopInput, hs, if_true, true_or]
    exact h
  by_cases hr : c.inRecovery
  · simp only [Client.loopStep, loopInput, hs, hr, if_true, or_true, Bool.false_eq_true, if_false]
    exact h
  simp only [Client.loopStep, loopInput, hs, hr, Bool.false_eq_true, if_false, or_self]
  cases hst : (rb.readEx C c.cursor).status with
  | ok =>
    simp only [if_pos hst]
    exact (h.process _).of_eq rfl rfl rfl
  | overwritten =>
    simp only [hr, Bool.not_false, and_true, if_neg (by simp : ¬ReadStatus.overwritten = .ok)]
    split_ifs
    · exact Matches.reset dbl _
    · exact h.of_eq rfl rfl rfl
  | notReady =>
    simp only [if_neg (by simp : ¬ReadStatus.notReady = .ok)]
    exact h

/-- A recovery step keeps it: only the replay loop processes a message. -/
theorem Matches.recovery (h : Matches dbl acc c) (file : Bytes) (latest : Int)
    (pc : RecoveryPc) :
    Matches dbl (acceptInto c acc (recoveryInput file c pc))
      (c.recoveryStep dbl file latest pc).1 := by
  cases pc with
  | begin => exact h.of_eq rfl rfl rfl
  | «open» =>
    simp only [Client.recoveryStep]
    split <;> exact h.of_eq rfl rfl rfl
  | loop e last =>
    simp only [Client.recoveryStep, recoveryInput]
    split_ifs
    · cases hy : (e.nextMessage file).1 with
      | none => exact h
      | some m => exact h.process m
    · exact h
  | check e m =>
    simp only [Client.recoveryStep]
    split_ifs <;> exact h.of_eq rfl rfl rfl
  | finish e last switched =>
    simp only [Client.recoveryStep]
    split_ifs <;> exact h.of_eq rfl rfl rfl

end Matches

/-- `processMessage` on the messages `ms` in turn, from `c`: the client after the last one,
and the messages it accepted, in order. -/
def processAll (dbl : DoubleArith) (c : Client) (ms : List Msg) : Client × List Msg :=
  ms.foldl (fun r m => (r.1.processMessage dbl m, acceptInto r.1 r.2 (some m))) (c, [])

@[simp] theorem processAll_append_singleton (dbl : DoubleArith) (c : Client) (ms : List Msg)
    (m : Msg) :
    processAll dbl c (ms ++ [m]) =
      ((processAll dbl c ms).1.processMessage dbl m,
        acceptInto (processAll dbl c ms).1 (processAll dbl c ms).2 (some m)) := by
  simp only [processAll, List.foldl_append, List.foldl_cons, List.foldl_nil]

/-- From an empty accumulator, `processMessage` over any messages keeps the accumulator
that of the messages accepted, which are some of those given, in order. -/
theorem matches_processAll {c : Client} (h : Matches dbl [] c) (ms : List Msg) :
    Matches dbl (processAll dbl c ms).2 (processAll dbl c ms).1 ∧
      (processAll dbl c ms).2.Sublist ms := by
  induction ms using List.reverseRecOn with
  | nil => exact ⟨h, List.nil_sublist _⟩
  | append_singleton ms m ih =>
    rw [processAll_append_singleton]
    refine ⟨ih.1.process m, ?_⟩
    simp only [acceptInto]
    split_ifs
    · exact ih.2.append (List.Sublist.refl [m])
    · exact ih.2.trans (List.sublist_append_left ms [m])

/-- **INV-C1 over one epoch.**  From the reset of a `CLIENT_CRASH`, over every sequence of
messages of any sequence numbers, `processMessage` accepts some of them, in order, each
above the one accepted before it unless that one was `INVALID_SEQ`; it drops a message
exactly when the last one accepted is not `INVALID_SEQ` and the message does not exceed it;
`processed_count`, `last_seq` and `(sum, kahan_c)` are those of the messages accepted.
Without `INVALID_SEQ` among the messages, the accepted sequence numbers strictly
increase. -/
theorem processAll_crashReset (dbl : DoubleArith) (c : Client) (ms : List Msg) :
    let r := processAll dbl c.crashReset ms
    r.2.Sublist ms ∧
    r.2.Chain' (fun a b => a.seqNum ≠ invalidSeq → a.seqNum < b.seqNum) ∧
    (∀ m, ¬r.1.accepts m ↔ ∃ a ∈ r.2.getLast?, a.seqNum ≠ invalidSeq ∧ m.seqNum ≤ a.seqNum) ∧
    r.1.processedCount = r.2.length ∧ r.1.lastSeq = lastSeqOf r.2 ∧
    (r.1.sum, r.1.kahanC) = kahanFold dbl (r.2.map Msg.payload) ∧
    ((∀ m ∈ ms, m.seqNum ≠ invalidSeq) → r.2.Chain' fun a b => a.seqNum < b.seqNum) := by
  obtain ⟨h, hsub⟩ := matches_processAll (Matches.reset dbl c) ms
  dsimp only
  generalize processAll dbl c.crashReset ms = r at h hsub ⊢
  obtain ⟨c', acc⟩ := r
  refine ⟨hsub, h.order, fun m => ?_, h.count, h.last, h.sum, fun hms => ?_⟩
  · rw [Client.accepts, not_not, h.last]
    rcases List.eq_nil_or_concat acc with rfl | ⟨acc, a, rfl⟩
    · simp [lastSeqOf]
    · simp
  · exact (List.Chain'.iff_mem.1 h.order).imp fun a b ⟨ha, _, hab⟩ => hab (hms a (hsub.subset ha))

/-- After the reset, a message numbered `-1` is accepted, and so is the next one, numbered
`-5`: the client's last sequence number goes down to `-5` with two messages counted. -/
theorem processAll_accepts_below_invalid_seq :
    ∃ c, processAll ⟨(· + ·), (· - ·)⟩ Client.new.crashReset [⟨-1, 0, 0⟩, ⟨-5, 0, 0⟩] =
      (c, [⟨-1, 0, 0⟩, ⟨-5, 0, 0⟩]) ∧ c.lastSeq = -5 ∧ c.processedCount = 2 :=
  ⟨_, rfl, rfl, rfl⟩

/-- Producer calls, recorder steps and `stop` leave the client alone. -/
theorem step_recording_client {e : RecEvent} (hs : step dbl C s (.recording e) = some s') :
    ∃ rs', s' = { s with rs := rs' } := by
  cases e <;> simp only [step] at hs <;> (try split_ifs at hs) <;>
    obtain ⟨rs', -, rfl⟩ := Option.map_eq_some'.1 hs <;> exact ⟨rs', rfl⟩

/-- **Every event keeps the accumulator that of the accepted messages**, `triggerFault`
included. -/
theorem matches_step {e : SysEvent} (he : e ≠ .trigger) (h : Matches dbl s.accepted s.client)
    (hs : step dbl C s e = some s') : Matches dbl s'.accepted s'.client := by
  obtain ⟨rs, c, pc, tr, acc⟩ := s
  cases e with
  | recording e =>
    obtain ⟨rs', rfl⟩ := step_recording_client hs
    exact h
  | client =>
    cases pc with
    | loop => cases hs; exact h.loop rs.ring
    | skip =>
      cases hs
      rw [Client.skipStep_eq]
      exact h.of_eq rfl rfl rfl
    | recovering pc => cases hs; exact h.recovery _ _ pc
    | exited => cases hs
  | trigger => exact absurd rfl he

/-- **INV-C1 in every interleaving.**  In every state of every interleaving of the
producer, the recorder and the client thread, for every ring capacity and whether or not the
recorder has been lapped, the client's `last_seq`, `processed_count` and `(sum, kahan_c)`
are those of the messages `processMessage` has accepted since the last reset, and each of
them exceeds the one accepted before it unless that one was `INVALID_SEQ`. -/
theorem accumulator_of_accepted (hs : Reachable dbl C (· ≠ .trigger) s) :
    s.client.lastSeq = lastSeqOf s.accepted ∧ s.client.processedCount = s.accepted.length ∧
    (s.client.sum, s.client.kahanC) = kahanFold dbl (s.accepted.map Msg.payload) ∧
    s.accepted.Chain' fun a b => a.seqNum ≠ invalidSeq → a.seqNum < b.seqNum := by
  have h : Matches dbl s.accepted s.client := by
    induction hs with
    | init => exact ⟨rfl, rfl, rfl, List.chain'_nil⟩
    | step e _ he hstep ih => exact matches_step he ih hstep
  exact ⟨h.last, h.count, h.sum, h.order⟩

set_option maxRecDepth 20000 in
/-- A ring of two slots that the producer laps before anything reads it: the recorder jumps
to `1` and records `1, 2`; the client, lapped at `0`, replays record `1` from the log and
reads `2` live. -/
theorem accumulator_of_accepted_after_lapped_recovery :
    ∃ s, Reachable ⟨(· + ·), (· - ·)⟩ ⟨2, ⟨1, rfl⟩⟩ (· ≠ .trigger) s ∧
      s.rs.recorder.overwriteCount = 1 ∧ s.accepted.map Msg.seqNum = [1, 2] ∧
      s.client.lastSeq = lastSeqOf s.accepted ∧ s.client.processedCount = s.accepted.length ∧
      (s.client.sum, s.client.kahanC) =
        kahanFold ⟨(· + ·), (· - ·)⟩ (s.accepted.map Msg.payload) ∧
      s.accepted.Chain' fun a b => a.seqNum ≠ invalidSeq → a.seqNum < b.seqNum := by
  have h : (run ⟨(· + ·), (· - ·)⟩ ⟨2, ⟨1, rfl⟩⟩ init
      [.recording (.produce (.pushBatch [⟨0, 0, 1⟩, ⟨0, 0, 2⟩, ⟨0, 0, 3⟩])),
        .recording .recorder, .recording .recorder, .recording .recorder, .recording .recorder,
        .recording .recorder,
        .client, .client, .client, .client, .client, .client, .client]).map
      (fun s => (s.rs.recorder.overwriteCount, s.accepted.map Msg.seqNum)) =
      some (1, [1, 2]) := by decide
  obtain ⟨s, hrun, hobs⟩ := Option.map_eq_some'.1 h
  simp only [Prod.mk.injEq] at hobs
  have hs : Reachable ⟨(· + ·), (· - ·)⟩ ⟨2, ⟨1, rfl⟩⟩ (· ≠ .trigger) s :=
    reachable_of_run _ _ _ .init (by simp) hrun
  exact ⟨s, hs, hobs.1, hobs.2, accumulator_of_accepted hs⟩

/-! ### `triggerFault` racing the consumer loop -/

set_option maxRecDepth 20000 in
/-- `triggerFault(CLIENT_CRASH)` from another thread resets the accumulator before
`startRecovery` raises `in_recovery_`; in between, the consumer loop accepts the live
message `1`.  The recovery then replays record `0`, which INV-C1 drops, and switches to the
ring at `1`.  Once it has returned, the client has accepted only message `1` since the reset,
with `last_seq = 1 = N - 1` for `N = 2` pushes: `processed_count` is `1`, not `2`, and the
sum is not the recorder's. -/
theorem trigger_race_loses_message :
    ∃ s, Reachable ⟨(· + ·), (· - ·)⟩ ⟨4, ⟨2, rfl⟩⟩ (fun _ => True) s ∧
      s.trigger = .done ∧ s.rs.produced.length = 2 ∧ s.client.lastSeq = 1 ∧
      s.accepted.map Msg.seqNum = [1] ∧ s.client.processedCount = 1 ∧
      s.client.sum ≠ s.rs.recorder.expectedSum := by
  have h : (run ⟨(· + ·), (· - ·)⟩ ⟨4, ⟨2, rfl⟩⟩ init
      [.recording (.produce (.pushBatch [⟨0, 0, 1⟩, ⟨0, 0, 2⟩])),
        .recording .recorder, .recording .recorder, .recording .recorder,
        .client, .trigger, .client, .trigger, .trigger, .trigger, .trigger, .trigger]).map
      (fun s => (s.trigger matches .done, s.rs.produced.length, s.client.lastSeq,
        s.accepted.map Msg.seqNum, s.client.processedCount,
        decide (s.client.sum ≠ s.rs.recorder.expectedSum))) =
      some (true, 2, 1, [1], 1, true) := by decide
  obtain ⟨s, hrun, hobs⟩ := Option.map_eq_some'.1 h
  simp only [Prod.mk.injEq, decide_eq_true_eq] at hobs
  obtain ⟨hdone, hlen, hlast, hacc, hcount, hsum⟩ := hobs
  refine ⟨s, reachable_of_run _ _ _ .init (fun _ _ => trivial) hrun, ?_, hlen, hlast, hacc, hcount,
    hsum⟩
  cases ht : s.trigger <;> simp_all

end Sys

end Replay
