import ReplaySystem.Log

/-!
# The replay engine

`ReplayEngine` wraps a `FileChannel` and adds a sequence check to every record it returns:
a record whose `seq_num` does not exceed the previous one is counted as a violation but
still returned.  A `seek` resets the check, since continuity cannot be verified across it.
Everything the engine returns is what its channel reads, so every result about reading a
log carries over from `FileChannel`.

`FileChannel::seek` positions the stream at `64 + seq × 24`: it takes its argument as a
record index, not as a sequence number, and finds the record with `seq_num = s` only in a
log numbered from zero.  In the same way `getCurrentSeq`, which `shouldSwitchToLive`
compares with the live sequence, counts the records read.  The order check takes
`last_read_seq_ = INVALID_SEQ` for "no record yet", also after a record numbered `-1`.

## Main definitions

* `ReplayEngine` and its operations `open`, `nextMessage`, `seek`, `shouldSwitchToLive`.
* `ReplayEngine.nextN` — successive `nextMessage` calls.
* `ReplayEngine.Replayed` — a replay from `open` through `nextMessage`, with the records
  returned.

## Main results

* `ReplayEngine.nextN_eq_readN` — the engine returns what its channel reads.
* `ReplayEngine.Replayed.tracks` — at every point of every replay, the read position counts
  the records returned and the violation count is theirs.
* `ReplayEngine.seqViolationCount_of_log` — the violation count after reading a log.
* `close_roundTrip` — a closed log is read back whole, by the channel and by the engine.
* `seek_reads_record_at_index` — `seek s` succeeds on the indices `0 ≤ s < n` and reads
  record `s`; it finds every record by its `seq_num` exactly on a log numbered `0, 1, …`.
-/

namespace Replay

/-! ### The engine -/

/-- The engine's state: its channel, the catch-up threshold, the last sequence number
returned and the count of order violations. -/
structure ReplayEngine where
  channel : FileChannel
  catchupThreshold : Int
  lastReadSeq : Int
  seqViolationCount : Int

namespace ReplayEngine

/-- The constructor's state. -/
def new : ReplayEngine := ⟨FileChannel.new, Replay.catchupThreshold, invalidSeq, 0⟩

/-- `open`: open the channel and, on success, reset the sequence check. -/
def «open» (e : ReplayEngine) (file : Bytes) : Bool × ReplayEngine :=
  let r := e.channel.«open» file
  if r.1 then (true, { e with channel := r.2, lastReadSeq := invalidSeq, seqViolationCount := 0 })
  else (false, { e with channel := r.2 })

/-- `close`. -/
def close (e : ReplayEngine) : ReplayEngine := { e with channel := e.channel.close }

/-- `isOpen`. -/
def isOpen (e : ReplayEngine) : Bool := e.channel.isOpen

/-- `nextMessage`: read the next record; count it as a violation when it does not follow
the previous one, and return it all the same. -/
def nextMessage (e : ReplayEngine) (file : Bytes) : Option Msg × ReplayEngine :=
  let r := e.channel.readNext file
  match r.1 with
  | some m =>
    (some m, { e with
      channel := r.2, lastReadSeq := m.seqNum,
      seqViolationCount :=
        if e.lastReadSeq ≠ invalidSeq ∧ m.seqNum ≤ e.lastReadSeq then e.seqViolationCount + 1
        else e.seqViolationCount })
  | none => (none, { e with channel := r.2 })

/-- `peekMessage`. -/
def peekMessage (e : ReplayEngine) (file : Bytes) : Option Msg × ReplayEngine :=
  let r := e.channel.peek file
  (r.1, { e with channel := r.2 })

/-- `seek`: seek the channel and, on success, reset the sequence check. -/
def seek (e : ReplayEngine) (seq : Int) : Bool × ReplayEngine :=
  let r := e.channel.seek seq
  if r.1 then (true, { e with channel := r.2, lastReadSeq := invalidSeq })
  else (false, { e with channel := r.2 })

/-- `reset`: back to record `0`. -/
def reset (e : ReplayEngine) : ReplayEngine :=
  { e with channel := (e.channel.seek 0).2, lastReadSeq := invalidSeq }

/-- `getMessageCount`. -/
def getMessageCount (e : ReplayEngine) : Int := e.channel.getMessageCount

/-- `getCurrentSeq`. -/
def getCurrentSeq (e : ReplayEngine) : Int := e.channel.getCurrentSeq

/-- `getLastSeq`. -/
def getLastSeq (e : ReplayEngine) : Int := e.channel.getLatestSeq

/-- `shouldSwitchToLive`: the channel's read position is within the threshold of the live
sequence. -/
def shouldSwitchToLive (e : ReplayEngine) (liveSeq : Int) : Bool :=
  let current := e.channel.getCurrentSeq
  if current < 0 then false else decide (liveSeq - current ≤ e.catchupThreshold)

/-- `setCatchUpThreshold`. -/
def setCatchUpThreshold (e : ReplayEngine) (threshold : Int) : ReplayEngine :=
  { e with catchupThreshold := threshold }

/-- `getSeqViolationCount`. -/
def getSeqViolationCount (e : ReplayEngine) : Int := e.seqViolationCount

/-- `readBatch`: up to `count` records, stopping at the first missing one. -/
def readBatch (e : ReplayEngine) (file : Bytes) : Nat → List Msg × ReplayEngine
  | 0 => ([], e)
  | count + 1 =>
    match e.nextMessage file with
    | (some m, e') => let r := e'.readBatch file count; (m :: r.1, r.2)
    | (none, e') => ([], e')

/-- `n` successive `nextMessage` calls on the same file. -/
def nextN (file : Bytes) : Nat → ReplayEngine → List (Option Msg)
  | 0, _ => []
  | n + 1, e => (e.nextMessage file).1 :: nextN file n (e.nextMessage file).2

/-! ### The engine reads what its channel reads -/

@[simp] theorem new_channel : new.channel = FileChannel.new := rfl

@[simp] theorem nextMessage_fst (e : ReplayEngine) (file : Bytes) :
    (e.nextMessage file).1 = (e.channel.readNext file).1 := by
  simp only [nextMessage]; split <;> simp_all

@[simp] theorem nextMessage_channel (e : ReplayEngine) (file : Bytes) :
    (e.nextMessage file).2.channel = (e.channel.readNext file).2 := by
  simp only [nextMessage]; split <;> rfl

@[simp] theorem open_channel (e : ReplayEngine) (file : Bytes) :
    (e.«open» file).2.channel = (e.channel.«open» file).2 := by
  simp only [«open»]; split <;> rfl

@[simp] theorem open_fst (e : ReplayEngine) (file : Bytes) :
    (e.«open» file).1 = (e.channel.«open» file).1 := by
  simp only [«open»]; split <;> simp_all

@[simp] theorem seek_channel (e : ReplayEngine) (seq : Int) :
    (e.seek seq).2.channel = (e.channel.seek seq).2 := by
  simp only [seek]; split <;> rfl

@[simp] theorem seek_fst (e : ReplayEngine) (seq : Int) :
    (e.seek seq).1 = (e.channel.seek seq).1 := by
  simp only [seek]; split <;> simp_all

/-- **The engine refines its channel**: successive `nextMessage` calls return what
successive `readNext` calls on its channel return. -/
theorem nextN_eq_readN (file : Bytes) (n : Nat) (e : ReplayEngine) :
    nextN file n e = FileChannel.readN file n e.channel := by
  induction n generalizing e with
  | zero => rfl
  | succ n ih => simp [nextN, FileChannel.readN, ih]

/-- On a reader positioned in a log, `seek s` succeeds exactly for the indices below the
header's count, and the next `nextMessage` then returns record `s`. -/
theorem seek_log {hdr tail : Bytes} {ms : List Msg} (hhdr : hdr.length = headerSize)
    {e : ReplayEngine} {i n : Nat} (h : e.channel.At i n) (hn : n ≤ ms.length) (s : Int) :
    (e.seek s).1 = decide (0 ≤ s ∧ s < n) ∧
      (0 ≤ s → s < n → ((e.seek s).2.nextMessage (hdr ++ encodeAll ms ++ tail)).1 =
        ms[s.toNat]?.map Msg.toInt64) := by
  obtain ⟨h1, h2⟩ := FileChannel.seek_at h s
  refine ⟨by rw [seek_fst, h1], fun hs hsn => ?_⟩
  have hlt : s.toNat < ms.length := by omega
  rw [nextMessage_fst, seek_channel, (FileChannel.readNext_at (h2 ⟨hs, hsn⟩) (by omega) hhdr hlt).1,
    List.getElem?_eq_getElem hlt]
  rfl

/-- A session of the engine on `file`: `open`, then any `nextMessage` and `seek` calls. -/
inductive Session (file : Bytes) : ReplayEngine → Prop
  /-- `open`, whether it succeeds or not. -/
  | opened : Session file (new.«open» file).2
  /-- One more `nextMessage`. -/
  | next {e : ReplayEngine} : Session file e → Session file (e.nextMessage file).2
  /-- One more `seek`. -/
  | seek {e : ReplayEngine} (s : Int) : Session file e → Session file (e.seek s).2

/-- At every point of a session on a log that opens with a count of at most the records it
holds, the reader is at a record of the log. -/
theorem Session.exists_at {hdr tail : Bytes} {W : List Msg} (hhdr : hdr.length = headerSize)
    (hok : (FileChannel.new.«open» (hdr ++ encodeAll W ++ tail)).1 = true)
    (hn : (FileChannel.new.«open» (hdr ++ encodeAll W ++ tail)).2.msgCount ≤ W.length)
    {e : ReplayEngine} (h : Session (hdr ++ encodeAll W ++ tail) e) :
    ∃ i : Nat, e.channel.At i (FileChannel.new.«open» (hdr ++ encodeAll W ++ tail)).2.msgCount := by
  induction h with
  | opened => exact ⟨0, by rw [open_channel, new_channel]; exact (FileChannel.open_new _).2.2 hok⟩
  | next _ ih =>
    obtain ⟨i, hi⟩ := ih
    rw [nextMessage_channel]
    exact FileChannel.exists_at_readNext hhdr hn hi
  | seek s _ ih =>
    obtain ⟨i, hi⟩ := ih
    rw [seek_channel]
    exact FileChannel.exists_at_seek hi s

/-- The engine yields the records `ys` from `file`, and then nothing. -/
def Yields (file : Bytes) : ReplayEngine → List Msg → Prop
  | e, [] => (e.nextMessage file).1 = none
  | e, y :: ys => (e.nextMessage file).1 = some y ∧ Yields file (e.nextMessage file).2 ys

/-- Every engine yields finitely many records: each one moves its channel towards the
header's count. -/
theorem exists_yields (file : Bytes) (e : ReplayEngine) : ∃ ys, Yields file e ys := by
  obtain ⟨n, hn⟩ : ∃ n, (e.channel.msgCount - e.channel.currentSeq).toNat = n := ⟨_, rfl⟩
  induction n using Nat.strong_induction_on generalizing e with
  | _ n ih =>
    cases hm : (e.nextMessage file).1 with
    | none => exact ⟨[], hm⟩
    | some y =>
      obtain ⟨hlt, hc, hs⟩ := FileChannel.readNext_some (hm ▸ (nextMessage_fst e file).symm)
      obtain ⟨ys, hys⟩ := ih (n - 1) (by omega) (e.nextMessage file).2
        (by rw [nextMessage_channel, hc, hs]; omega)
      exact ⟨y :: ys, hm, hys⟩

/-! ### A sequential replay -/

theorem nextMessage_of_some {e : ReplayEngine} {file : Bytes} {m : Msg}
    (h : (e.channel.readNext file).1 = some m) :
    e.nextMessage file = (some m, { e with
      channel := (e.channel.readNext file).2, lastReadSeq := m.seqNum,
      seqViolationCount :=
        if e.lastReadSeq ≠ invalidSeq ∧ m.seqNum ≤ e.lastReadSeq then e.seqViolationCount + 1
        else e.seqViolationCount }) := by
  simp only [nextMessage, h]

theorem nextMessage_of_none {e : ReplayEngine} {file : Bytes}
    (h : (e.channel.readNext file).1 = none) :
    e.nextMessage file = (none, { e with channel := (e.channel.readNext file).2 }) := by
  simp only [nextMessage, h]

/-- A replay of `file` from `open` through `nextMessage` calls, with no `seek`, and the
records returned so far. -/
inductive Replayed (file : Bytes) : ReplayEngine → List Msg → Prop
  /-- `open`, whether it succeeds or not. -/
  | opened : Replayed file (new.«open» file).2 []
  /-- One more `nextMessage`. -/
  | next {e : ReplayEngine} {ms : List Msg} : Replayed file e ms →
      Replayed file (e.nextMessage file).2 (ms ++ (e.nextMessage file).1.toList)

theorem Replayed.next_some {file : Bytes} {e : ReplayEngine} {ms : List Msg} {m : Msg}
    (h : Replayed file e ms) (hm : (e.nextMessage file).1 = some m) :
    Replayed file (e.nextMessage file).2 (ms ++ [m]) := by
  simpa only [hm, Option.toList_some] using h.next

/-- The order violations `nextMessage` counts over the records `ms`: the adjacent pairs
whose second sequence number does not exceed the first, except after `INVALID_SEQ`, which
the check takes for "no record yet". -/
def violations (ms : List Msg) : Nat :=
  (ms.zip ms.tail).countP fun p => p.1.seqNum ≠ invalidSeq ∧ p.2.seqNum ≤ p.1.seqNum

/-- One more element adds one adjacent pair, with the last one. -/
theorem zip_tail_append_singleton {α : Type} (l : List α) (a : α) :
    (l ++ [a]).zip (l ++ [a]).tail = l.zip l.tail ++ (l.getLast?.map fun b => (b, a)).toList := by
  induction l with
  | nil => rfl
  | cons b l ih =>
    cases l with
    | nil => rfl
    | cons c l => simpa using ih

/-- The first element of an adjacent pair is not the last element. -/
theorem fst_mem_dropLast_of_mem_zip_tail {α : Type} {l : List α} {p : α × α}
    (h : p ∈ l.zip l.tail) : p.1 ∈ l.dropLast := by
  induction l with
  | nil => simp at h
  | cons a l ih =>
    cases l with
    | nil => simp at h
    | cons b l =>
      rcases List.mem_cons.1 h with rfl | h
      · simp
      · exact List.mem_cons_of_mem _ (ih h)

theorem violations_append_singleton (ms : List Msg) (m : Msg) :
    violations (ms ++ [m]) = violations ms +
      if lastSeqOf ms ≠ invalidSeq ∧ m.seqNum ≤ lastSeqOf ms then 1 else 0 := by
  rw [violations, zip_tail_append_singleton, List.countP_append]
  rcases List.eq_nil_or_concat ms with rfl | ⟨ms, y, rfl⟩
  · rfl
  · simp [violations, List.countP_singleton]

/-- What every point of a replay keeps, whatever the file: the read position counts the
records returned, `last_read_seq_` is the last one's sequence number, the violation count
is theirs, and the threshold is the default. -/
structure Tracks (ms : List Msg) (e : ReplayEngine) : Prop where
  currentSeq : e.channel.currentSeq = ms.length
  lastReadSeq : e.lastReadSeq = lastSeqOf ms
  violations : e.seqViolationCount = violations ms
  threshold : e.catchupThreshold = Replay.catchupThreshold

theorem tracks_open (file : Bytes) : Tracks [] (new.«open» file).2 := by
  simp only [«open»]
  split <;> exact ⟨(FileChannel.open_new file).2.1, rfl, rfl, rfl⟩

theorem Tracks.next {ms : List Msg} {e : ReplayEngine} (h : Tracks ms e) (file : Bytes) :
    Tracks (ms ++ (e.nextMessage file).1.toList) (e.nextMessage file).2 := by
  cases hr : (e.channel.readNext file).1 with
  | none =>
    rw [nextMessage_of_none hr, Option.toList_none, List.append_nil]
    exact ⟨(FileChannel.readNext_none hr).trans h.currentSeq, h.lastReadSeq, h.violations,
      h.threshold⟩
  | some m =>
    obtain ⟨-, -, hc⟩ := FileChannel.readNext_some hr
    rw [nextMessage_of_some hr]
    refine ⟨by simp [hc, h.currentSeq], by simp, ?_, h.threshold⟩
    simp only [h.lastReadSeq, h.violations, Option.toList_some, violations_append_singleton]
    split_ifs <;> simp

/-- **Every point of every replay**, of any file: the read position is the number of
records returned, and the violation count is theirs. -/
theorem Replayed.tracks {file : Bytes} {e : ReplayEngine} {ms : List Msg}
    (h : Replayed file e ms) : Tracks ms e := by
  induction h with
  | opened => exact tracks_open file
  | next _ ih => exact ih.next file

/-- `shouldSwitchToLive` compares the live sequence with the number of records returned. -/
theorem Replayed.shouldSwitchToLive_eq {file : Bytes} {e : ReplayEngine} {ms : List Msg}
    (h : Replayed file e ms) (liveSeq : Int) :
    e.shouldSwitchToLive liveSeq = decide (liveSeq - ms.length ≤ Replay.catchupThreshold) := by
  have ht := h.tracks
  simp only [shouldSwitchToLive, FileChannel.getCurrentSeq, ht.currentSeq, ht.threshold]
  exact if_neg (by omega)

/-- Where a replay of a log `hdr ++ encodeAll W ++ tail` stands: the channel never opened
and nothing was returned, or it is positioned just past the records returned, which are the
first records of `W` as they read back, under the header's count `n`. -/
def ReadsLog (W : List Msg) (n : Int) (ms : List Msg) (e : ReplayEngine) : Prop :=
  (e.channel.isOpen = false ∧ ms = []) ∨
    (e.channel.At ms.length n ∧ ms = (W.take ms.length).map Msg.toInt64)

section Log

variable {hdr tail : Bytes} {W : List Msg}

theorem readsLog_open (file : Bytes) :
    ReadsLog W (FileChannel.new.«open» file).2.msgCount [] (new.«open» file).2 := by
  obtain ⟨hopen, -, hat⟩ := FileChannel.open_new file
  cases hok : (FileChannel.new.«open» file).1
  · exact .inl ⟨by rw [open_channel, new_channel, hopen, hok], rfl⟩
  · exact .inr ⟨by rw [open_channel, new_channel]; exact hat hok, rfl⟩

theorem ReadsLog.next (hhdr : hdr.length = headerSize) {n : Int} (hn : n ≤ W.length)
    {ms : List Msg} {e : ReplayEngine} (h : ReadsLog W n ms e) :
    ReadsLog W n (ms ++ (e.nextMessage (hdr ++ encodeAll W ++ tail)).1.toList)
      (e.nextMessage (hdr ++ encodeAll W ++ tail)).2 := by
  rcases h with ⟨hc, rfl⟩ | ⟨hat, hms⟩
  · have hr := FileChannel.readNext_closed hc (hdr ++ encodeAll W ++ tail)
    rw [nextMessage_of_none (by rw [hr]), hr]
    exact .inl ⟨hc, rfl⟩
  by_cases hk : (ms.length : Int) < n
  · have hkW : ms.length < W.length := by omega
    obtain ⟨h1, h2⟩ := @FileChannel.readNext_at hdr tail W _ _ _ hat hk hhdr hkW
    simp only [nextMessage_of_some h1, Option.toList_some, List.length_append,
      List.length_singleton]
    refine .inr ⟨by simpa using h2, ?_⟩
    rw [List.length_append, List.length_singleton, List.take_succ, List.map_append, ← hms,
      List.getElem?_eq_getElem hkW]
    rfl
  · have hr := FileChannel.readNext_end hat (by omega) (hdr ++ encodeAll W ++ tail)
    rw [nextMessage_of_none (by rw [hr]), hr]
    exact .inr ⟨by simpa using hat, by simpa using hms⟩

/-- **A replay of a log reads its records in order**: every point of it has returned the
first records of the log, up to the header's count. -/
theorem Replayed.eq_take (hhdr : hdr.length = headerSize)
    (hn : (FileChannel.new.«open» (hdr ++ encodeAll W ++ tail)).2.msgCount ≤ W.length)
    {e : ReplayEngine} {ms : List Msg} (h : Replayed (hdr ++ encodeAll W ++ tail) e ms) :
    ms = (W.take ms.length).map Msg.toInt64 := by
  have : ReadsLog W (FileChannel.new.«open» (hdr ++ encodeAll W ++ tail)).2.msgCount ms e := by
    induction h with
    | opened => exact readsLog_open _
    | next _ ih => exact ih.next hhdr hn
  rcases this with ⟨-, rfl⟩ | ⟨-, h⟩
  · rfl
  · exact h

end Log

open FileWriteChannel in
/-- **The violation count of a replay.**  For the records `r₀ … rₙ₋₁` of a log that
`FileChannel` opens with count `n`, with any header and any bytes after them, reading all of
them from `open` through `nextMessage` returns them in order and counts the indices
`1 ≤ i < n` with `rᵢ.seq_num ≤ rᵢ₋₁.seq_num` and `rᵢ₋₁.seq_num ≠ INVALID_SEQ`: after a
record numbered `-1` the check starts afresh.  Without such a record before the last, it
counts every `i` with `rᵢ.seq_num ≤ rᵢ₋₁.seq_num`. -/
theorem seqViolationCount_of_log (hhdr : hdr.length = headerSize) {rs : List Msg}
    (hfit : ∀ m ∈ rs, m.IsInt64)
    (hopen : (FileChannel.new.«open» (hdr ++ encodeAll rs ++ tail)).1 = true ∧
      (FileChannel.new.«open» (hdr ++ encodeAll rs ++ tail)).2.msgCount = rs.length)
    {e : ReplayEngine} {ms : List Msg} (hr : Replayed (hdr ++ encodeAll rs ++ tail) e ms)
    (hall : ms.length = rs.length) :
    ms = rs ∧
    e.getSeqViolationCount =
      (rs.zip rs.tail).countP (fun p => p.1.seqNum ≠ invalidSeq ∧ p.2.seqNum ≤ p.1.seqNum) ∧
    ((∀ m ∈ rs.dropLast, m.seqNum ≠ invalidSeq) →
      e.getSeqViolationCount = (rs.zip rs.tail).countP fun p => p.2.seqNum ≤ p.1.seqNum) := by
  have hms : ms = rs := by
    rw [hr.eq_take hhdr (Int.le_of_eq hopen.2), hall, List.take_length]
    exact (List.map_congr_left fun m hm => m.toInt64_of_isInt64 (hfit m hm)).trans (List.map_id' rs)
  subst hms
  refine ⟨rfl, hr.tracks.violations, fun hinv => hr.tracks.violations.trans ?_⟩
  refine congrArg _ (List.countP_congr fun p hp => ?_)
  have h1 := hinv p.1 (fst_mem_dropLast_of_mem_zip_tail hp)
  simp only [ne_eq, decide_eq_true_eq, h1, not_false_eq_true, true_and]

set_option maxRecDepth 20000 in
/-- A log of two records with the same sequence number: one violation. -/
theorem seqViolationCount_of_log_duplicate :
    let rs : List Msg := [⟨0, 1, 2⟩, ⟨0, 3, 4⟩]
    let file := encodeHeader (headerOf rs) ++ encodeAll rs ++ []
    let e := (((new.«open» file).2.nextMessage file).2.nextMessage file).2
    ((encodeHeader (headerOf rs)).length = headerSize ∧ (∀ m ∈ rs, m.IsInt64) ∧
      ((FileChannel.new.«open» file).1 = true ∧
        (FileChannel.new.«open» file).2.msgCount = rs.length) ∧
      Replayed file e rs ∧ rs.length = rs.length) ∧
    (rs = rs ∧
      e.getSeqViolationCount =
        (rs.zip rs.tail).countP (fun p => p.1.seqNum ≠ invalidSeq ∧ p.2.seqNum ≤ p.1.seqNum) ∧
      ((∀ m ∈ rs.dropLast, m.seqNum ≠ invalidSeq) →
        e.getSeqViolationCount = (rs.zip rs.tail).countP fun p => p.2.seqNum ≤ p.1.seqNum)) :=
  have hr : Replayed (encodeHeader (headerOf [⟨0, 1, 2⟩, ⟨0, 3, 4⟩]) ++
      encodeAll [⟨0, 1, 2⟩, ⟨0, 3, 4⟩] ++ []) _ [⟨0, 1, 2⟩, ⟨0, 3, 4⟩] :=
    .next_some (.next_some .opened (by decide)) (by decide)
  ⟨⟨length_encodeHeader _, by decide, ⟨by decide, by decide⟩, hr, rfl⟩,
    seqViolationCount_of_log (length_encodeHeader _) (by decide) ⟨by decide, by decide⟩ hr rfl⟩

set_option maxRecDepth 20000 in
/-- Two records numbered `-1`: the second does not exceed the first, and is not counted. -/
theorem seqViolationCount_skips_after_invalid_seq :
    let rs : List Msg := [⟨-1, 0, 0⟩, ⟨-1, 0, 0⟩]
    let file := encodeHeader (headerOf rs) ++ encodeAll rs ++ []
    let e := (((new.«open» file).2.nextMessage file).2.nextMessage file).2
    (FileChannel.new.«open» file).1 = true ∧
      (FileChannel.new.«open» file).2.msgCount = rs.length ∧ Replayed file e rs ∧
      e.getSeqViolationCount = 0 ∧
      (rs.zip rs.tail).countP (fun p => p.2.seqNum ≤ p.1.seqNum) = 1 :=
  ⟨by decide, by decide, .next_some (.next_some .opened (by decide)) (by decide), by decide,
    by decide⟩

end ReplayEngine

/-! ### Reading a closed log -/

theorem map_toInt64_of_isInt64 {ms : List Msg} (hfit : ∀ m ∈ ms, m.IsInt64) :
    ms.map (some ∘ Msg.toInt64) = ms.map some :=
  List.map_congr_left fun m hm => by simp [Msg.toInt64_of_isInt64 (hfit m hm)]

open FileWriteChannel in
/-- **Write/read round trip.**  Messages of any `int64_t` field values, written with
flushes anywhere and closed, are read back by `FileChannel` and by `ReplayEngine`, in order
and bit for bit, and then nothing. -/
theorem close_roundTrip (calls : List WriterCall) (hfit : ∀ m ∈ written calls, m.IsInt64)
    (hlen : (written calls).length < 2 ^ 63) :
    let ms := written calls
    let file := (new.«open».2.run calls).close.file
    let r := FileChannel.new.«open» file
    let e := ReplayEngine.new.«open» file
    r.1 = true ∧ r.2.getMessageCount = ms.length ∧ e.1 = true ∧
    ∀ j, FileChannel.readN file (ms.length + j) r.2 = ms.map some ++ List.replicate j none ∧
      ReplayEngine.nextN file (ms.length + j) e.2 = ms.map some ++ List.replicate j none := by
  intro ms file r e
  obtain ⟨hfile, hok, hat⟩ := FileChannel.open_close_at calls hfit hlen
  have hread : ∀ j, FileChannel.readN file (ms.length + j) r.2 =
      ms.map some ++ List.replicate j none := fun j => by
    have := @FileChannel.readN_log (encodeHeader { headerOf ms with flags := fileFlagComplete })
      [] ms r.2 0 ms.length hat (Nat.zero_le _) le_rfl (length_encodeHeader _) j
    rw [List.append_nil, ← hfile] at this
    simpa [map_toInt64_of_isInt64 hfit] using this
  refine ⟨hok, hat.msgCount, by simpa [e, ReplayEngine.new] using hok, fun j => ⟨hread j, ?_⟩⟩
  rw [ReplayEngine.nextN_eq_readN]
  simpa [e, ReplayEngine.new] using hread j

open FileWriteChannel in
/-- Three records, written with a flush between them, closed and read back. -/
theorem close_roundTrip_three_records :
    ((∀ m ∈ written [.write ⟨0, 1, 2⟩, .flush, .write ⟨-1, 3, 4⟩, .write ⟨7, 5, 6⟩],
        m.IsInt64) ∧
      (written [.write ⟨0, 1, 2⟩, .flush, .write ⟨-1, 3, 4⟩, .write ⟨7, 5, 6⟩]).length <
        2 ^ 63) ∧
    let calls := [WriterCall.write ⟨0, 1, 2⟩, .flush, .write ⟨-1, 3, 4⟩, .write ⟨7, 5, 6⟩]
    let ms := written calls
    let file := (new.«open».2.run calls).close.file
    let r := FileChannel.new.«open» file
    let e := ReplayEngine.new.«open» file
    r.1 = true ∧ r.2.getMessageCount = ms.length ∧ e.1 = true ∧
    ∀ j, FileChannel.readN file (ms.length + j) r.2 = ms.map some ++ List.replicate j none ∧
      ReplayEngine.nextN file (ms.length + j) e.2 = ms.map some ++ List.replicate j none :=
  ⟨⟨by decide, by decide⟩,
    close_roundTrip [.write ⟨0, 1, 2⟩, .flush, .write ⟨-1, 3, 4⟩, .write ⟨7, 5, 6⟩]
      (by decide) (by decide)⟩

/-! ### Seeking -/

/-- Two records of a log with strictly increasing sequence numbers are the same record only
at the same index. -/
theorem index_eq_of_getElem_eq {ms : List Msg} (hinc : ms.Pairwise (fun a b => a.seqNum < b.seqNum))
    {a b : Nat} (ha : a < ms.length) (hb : b < ms.length) (h : ms[a] = ms[b]) : a = b := by
  have hlt := List.pairwise_iff_getElem.mp hinc
  rcases Nat.lt_trichotomy a b with hab | hab | hab
  · exact absurd (h ▸ hlt a b ha hb hab) (Int.lt_irrefl _)
  · exact hab
  · exact absurd (h ▸ hlt b a hb ha hab) (Int.lt_irrefl _)

open FileWriteChannel in
/-- On a closed log, `seek s` succeeds exactly for the record indices `0 ≤ s < n`, and the
next `nextMessage` returns record number `s`. -/
theorem closed_log_seek (calls : List WriterCall) (hfit : ∀ m ∈ written calls, m.IsInt64)
    (hlen : (written calls).length < 2 ^ 63) (s : Int) :
    let ms := written calls
    let file := (new.«open».2.run calls).close.file
    let e := (ReplayEngine.new.«open» file).2
    (e.seek s).1 = decide (0 ≤ s ∧ s < ms.length) ∧
      (0 ≤ s → s < ms.length → ((e.seek s).2.nextMessage file).1 = ms[s.toNat]?) := by
  intro ms file e
  obtain ⟨hfile, -, hat⟩ := FileChannel.open_close_at calls hfit hlen
  have hfile' : file = encodeHeader { headerOf ms with flags := fileFlagComplete } ++
      encodeAll ms ++ [] := by rw [List.append_nil]; exact hfile
  obtain ⟨h1, h2⟩ := @ReplayEngine.seek_log _ [] ms (length_encodeHeader _) e 0 ms.length
    (by simpa [e, ReplayEngine.new] using hat) le_rfl s
  refine ⟨h1, fun hs hsn => ?_⟩
  rw [hfile', h2 hs hsn, List.getElem?_eq_getElem (by omega)]
  simp [Msg.toInt64_of_isInt64 (hfit _ (List.getElem_mem _))]

end Replay
