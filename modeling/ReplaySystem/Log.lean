import ReplaySystem.Format

/-!
# The log writer and the log reader

`FileWriteChannel` and `FileChannel` of `channel/FileChannel.hpp`, over the bytes of the
file.  The writer appends records at its put position and, on `flush` and `close`, seeks
back to offset 0 to rewrite the header before returning to the end; only `close` sets the
clean-close flag.  The reader trusts the header's count as its bound, and falls back to the
count alone when the header is not consistent.

Each call is one step on the file; a record the writer appends is in the file from that
step on (the stream's buffer is not modelled: the reader only ever reads records that a
header rewrite has already pushed out).

## Main definitions

* `FileWriteChannel` with `open`, `write`, `flush`, `close`; `WriterCall`, `run`.
* `FileWriteChannel.Holds w ms k` — the writer has written `ms`, and its header was last
  written after the first `k` of them.
* `FileChannel` with `open`, `readNext`, `seek`; `FileChannel.readN`.

## Main results

* `FileWriteChannel.run_holds` — every run of writes and flushes keeps `Holds`.
* `FileChannel.readN_log` — a reader opened on such a file reads the records up to the
  header's count, and nothing after.
* `crash_recovery` — a file observed after a flush, with any unflushed tail, reads back
  exactly the flushed records and is reported not cleanly closed.
* `close_header_roundTrip` — what the reader reports about the range and the clean close
  of a closed log.
-/

namespace Replay

/-- Write `data` at `pos`, as `ofstream::write` after a seek does (a gap past the end of
the file reads as zeros). -/
def writeAt (file : Bytes) (pos : Nat) (data : Bytes) : Bytes :=
  file.take pos ++ List.replicate (pos - file.length) 0 ++ data ++ file.drop (pos + data.length)

theorem writeAt_length (file data : Bytes) : writeAt file file.length data = file ++ data := by
  simp [writeAt]

theorem writeAt_zero (hdr new rest : Bytes) (h : new.length = hdr.length) :
    writeAt (hdr ++ rest) 0 new = new ++ rest := by
  simp [writeAt, h, List.drop_append_eq_append_drop]

/-- The first sequence number `write` records: taken from each message while it is still
`INVALID_SEQ`. -/
def firstSeqOf (ms : List Msg) : Int :=
  ms.foldl (fun f m => if f = invalidSeq then m.seqNum else f) invalidSeq

/-- The last sequence number `write` records. -/
def lastSeqOf (ms : List Msg) : Int := ms.foldl (fun _ m => m.seqNum) invalidSeq

@[simp] theorem firstSeqOf_append_singleton (ms : List Msg) (m : Msg) :
    firstSeqOf (ms ++ [m]) = if firstSeqOf ms = invalidSeq then m.seqNum else firstSeqOf ms := by
  simp [firstSeqOf]

@[simp] theorem lastSeqOf_append_singleton (ms : List Msg) (m : Msg) :
    lastSeqOf (ms ++ [m]) = m.seqNum := by
  simp [lastSeqOf]

/-- The header the writer writes once it has written `ms`, before `close`. -/
def headerOf (ms : List Msg) : FileHeader :=
  { FileHeader.default with
    msgCount := ms.length, firstSeq := firstSeqOf ms, lastSeq := lastSeqOf ms }

/-! ### The writer -/

/-- The writer's state: the file, the put position and the bookkeeping of
`FileWriteChannel`. -/
structure FileWriteChannel where
  file : Bytes
  pos : Nat
  isOpen : Bool
  msgCount : Int
  firstSeq : Int
  lastSeq : Int
  header : FileHeader

namespace FileWriteChannel

/-- The constructor's state. -/
def new : FileWriteChannel := ⟨[], 0, false, 0, invalidSeq, invalidSeq, FileHeader.default⟩

/-- `open`: truncate the file and write a placeholder header. -/
def «open» (w : FileWriteChannel) : Bool × FileWriteChannel :=
  if w.isOpen then (true, w)
  else
    (true, { w with
      file := encodeHeader FileHeader.default, pos := headerSize, header := FileHeader.default,
      msgCount := 0, firstSeq := invalidSeq, lastSeq := invalidSeq, isOpen := true })

/-- `write`: append the record and update the range bookkeeping, not the header. -/
def write (w : FileWriteChannel) (msg : Msg) : Bool × FileWriteChannel :=
  if !w.isOpen then (false, w)
  else
    (true, { w with
      file := writeAt w.file w.pos (encodeMsg msg), pos := w.pos + msgSize,
      firstSeq := if w.firstSeq = invalidSeq then msg.seqNum else w.firstSeq,
      lastSeq := msg.seqNum, msgCount := w.msgCount + 1 })

/-- `updateHeader`: copy the bookkeeping into the header and rewrite it at offset 0; the
put position is restored. -/
def updateHeader (w : FileWriteChannel) : FileWriteChannel :=
  let header := { w.header with
    msgCount := w.msgCount, firstSeq := w.firstSeq, lastSeq := w.lastSeq }
  { w with header := header, file := writeAt w.file 0 (encodeHeader header) }

/-- `flush`: rewrite the header, without the clean-close flag. -/
def flush (w : FileWriteChannel) : FileWriteChannel := if w.isOpen then w.updateHeader else w

/-- `close`: set the clean-close flag and rewrite the header one last time. -/
def close (w : FileWriteChannel) : FileWriteChannel :=
  if w.isOpen then
    { ({ w with header := { w.header with flags := w.header.flags ||| fileFlagComplete } }
        ).updateHeader with isOpen := false }
  else { w with isOpen := false }

end FileWriteChannel

/-- A call on an open writer. -/
inductive WriterCall
  | write (msg : Msg)
  | flush
  deriving DecidableEq, Repr

/-- The message a call writes. -/
def WriterCall.msg? : WriterCall → Option Msg
  | .write m => some m
  | .flush => none

/-- The messages a sequence of calls writes. -/
def written (calls : List WriterCall) : List Msg := calls.filterMap WriterCall.msg?

@[simp] theorem written_nil : written [] = [] := rfl

@[simp] theorem written_append (cs cs' : List WriterCall) :
    written (cs ++ cs') = written cs ++ written cs' := by
  simp [written]

@[simp] theorem written_write (m : Msg) : written [.write m] = [m] := rfl

@[simp] theorem written_flush : written [.flush] = [] := rfl

@[simp] theorem written_map_write (ms : List Msg) : written (ms.map .write) = ms := by
  induction ms with
  | nil => rfl
  | cons m ms ih => exact congrArg (m :: ·) ih

namespace FileWriteChannel

/-- Make one call. -/
def call (w : FileWriteChannel) : WriterCall → FileWriteChannel
  | .write m => (w.write m).2
  | .flush => w.flush

/-- Make the calls in order. -/
def run (w : FileWriteChannel) (calls : List WriterCall) : FileWriteChannel :=
  calls.foldl call w

@[simp] theorem run_nil (w : FileWriteChannel) : w.run [] = w := rfl

@[simp] theorem run_append (w : FileWriteChannel) (cs cs' : List WriterCall) :
    w.run (cs ++ cs') = (w.run cs).run cs' := by
  simp [run, List.foldl_append]

@[simp] theorem run_singleton (w : FileWriteChannel) (c : WriterCall) : w.run [c] = w.call c :=
  rfl

/-! ### The writer's invariant -/

/-- The writer is open and has written `ms`; its header, both in memory and at the front of
the file, was last written when the first `k` of them had been written. -/
structure Holds (w : FileWriteChannel) (ms : List Msg) (k : Nat) : Prop where
  isOpen : w.isOpen = true
  le : k ≤ ms.length
  header : w.header = headerOf (ms.take k)
  file : w.file = encodeHeader w.header ++ encodeAll ms
  pos : w.pos = headerSize + msgSize * ms.length
  msgCount : w.msgCount = ms.length
  firstSeq : w.firstSeq = firstSeqOf ms
  lastSeq : w.lastSeq = lastSeqOf ms

theorem open_holds : new.«open».2.Holds [] 0 :=
  ⟨by simp [«open», new], le_refl 0, rfl, by simp [«open», new, encodeAll], rfl, rfl, rfl, rfl⟩

theorem write_holds {w : FileWriteChannel} {ms : List Msg} {k : Nat} (h : w.Holds ms k)
    (m : Msg) : (w.write m).2.Holds (ms ++ [m]) k := by
  have hpos : w.pos = w.file.length := by simp [h.pos, h.file]
  have hw : (w.write m).2 = { w with
      file := w.file ++ encodeMsg m, pos := w.pos + msgSize,
      firstSeq := if w.firstSeq = invalidSeq then m.seqNum else w.firstSeq,
      lastSeq := m.seqNum, msgCount := w.msgCount + 1 } := by
    simp [write, h.isOpen, hpos, writeAt_length]
  rw [hw]
  refine ⟨h.isOpen, by simp; have := h.le; omega, ?_, ?_, ?_, ?_, ?_, by simp⟩
  · simp [h.header, List.take_append_of_le_length h.le]
  · simp [h.file, List.append_assoc, encodeAll]
  · simp [h.pos, Nat.mul_add]
    omega
  · simp [h.msgCount]
  · simp [h.firstSeq]

theorem flush_holds {w : FileWriteChannel} {ms : List Msg} {k : Nat} (h : w.Holds ms k) :
    w.flush.Holds ms ms.length := by
  have hhdr : { w.header with
      msgCount := w.msgCount, firstSeq := w.firstSeq, lastSeq := w.lastSeq } = headerOf ms := by
    rw [h.header, h.msgCount, h.firstSeq, h.lastSeq]
    rfl
  have hf : w.flush = { w with
      header := headerOf ms, file := encodeHeader (headerOf ms) ++ encodeAll ms } := by
    simp only [flush, updateHeader, h.isOpen, if_true, hhdr]
    rw [h.file, writeAt_zero _ _ _ (by simp)]
  rw [hf]
  exact ⟨h.isOpen, le_refl _, by simp, rfl, h.pos, h.msgCount, h.firstSeq, h.lastSeq⟩

theorem call_holds {w : FileWriteChannel} {ms : List Msg} {k : Nat} (h : w.Holds ms k)
    (c : WriterCall) : ∃ k', (w.call c).Holds (ms ++ written [c]) k' := by
  cases c with
  | write m => exact ⟨k, write_holds h m⟩
  | flush => exact ⟨ms.length, by simpa using flush_holds h⟩

/-- **Every run of writes and flushes keeps the writer's invariant.** -/
theorem run_holds {w : FileWriteChannel} {ms : List Msg} {k : Nat} (h : w.Holds ms k)
    (calls : List WriterCall) : ∃ k', (w.run calls).Holds (ms ++ written calls) k' := by
  induction calls using List.reverseRecOn with
  | nil => exact ⟨k, by simpa using h⟩
  | append_singleton calls c ih =>
    obtain ⟨k', hk'⟩ := ih
    obtain ⟨k'', hk''⟩ := call_holds hk' c
    exact ⟨k'', by simpa using hk''⟩

/-- Writes without a flush leave the header where it was. -/
theorem run_holds_of_no_flush {w : FileWriteChannel} {ms : List Msg} {k : Nat}
    (h : w.Holds ms k) (calls : List WriterCall) (hc : WriterCall.flush ∉ calls) :
    (w.run calls).Holds (ms ++ written calls) k := by
  induction calls using List.reverseRecOn with
  | nil => simpa using h
  | append_singleton calls c ih =>
    have ih := ih (fun h' => hc (List.mem_append_left _ h'))
    cases c with
    | write m => simpa using write_holds ih m
    | flush => exact absurd (List.mem_append_right _ (List.mem_singleton_self _)) hc

end FileWriteChannel
/-! ### The reader -/

/-- The reader's state: the bookkeeping of `FileChannel`, the stream's get position and
whether the stream is still good. -/
structure FileChannel where
  isOpen : Bool
  currentSeq : Int
  msgCount : Int
  firstSeq : Int
  lastSeq : Int
  wasCleanlyClosed : Bool
  pos : Nat
  good : Bool

namespace FileChannel

/-- The constructor's state. -/
def new : FileChannel := ⟨false, 0, 0, invalidSeq, invalidSeq, false, 0, true⟩

/-- `open`: read the header; reject a file shorter than a header or with the wrong magic or
version; adopt a consistent header, and of an inconsistent one only the count. -/
def «open» (ch : FileChannel) (file : Bytes) : Bool × FileChannel :=
  if ch.isOpen then (true, ch)
  else if file.length < headerSize then (false, ch)
  else
    let header := decodeHeader (file.take headerSize)
    if !header.isValid then (false, ch)
    else
      let ch := if header.isConsistent then
          { ch with
            msgCount := header.msgCount, firstSeq := header.firstSeq,
            lastSeq := header.lastSeq, wasCleanlyClosed := header.isComplete }
        else
          { ch with
            msgCount := header.msgCount, firstSeq := invalidSeq, lastSeq := invalidSeq,
            wasCleanlyClosed := false }
      (true, { ch with currentSeq := 0, isOpen := true, pos := headerSize, good := true })

/-- `close`. -/
def close (ch : FileChannel) : FileChannel := { ch with isOpen := false, currentSeq := 0 }

/-- `readNext`: below the header's count, read the next 24 bytes; a short read fails the
stream. -/
def readNext (ch : FileChannel) (file : Bytes) : Option Msg × FileChannel :=
  if !ch.isOpen ∨ ch.msgCount ≤ ch.currentSeq then (none, ch)
  else if ch.good ∧ ch.pos + msgSize ≤ file.length then
    (some (decodeMsg ((file.drop ch.pos).take msgSize)),
      { ch with pos := ch.pos + msgSize, currentSeq := ch.currentSeq + 1 })
  else (none, { ch with good := false })

/-- `peek`: `readNext` that restores the get position; a short read still fails the
stream. -/
def peek (ch : FileChannel) (file : Bytes) : Option Msg × FileChannel :=
  if !ch.isOpen ∨ ch.msgCount ≤ ch.currentSeq then (none, ch)
  else if ch.good ∧ ch.pos + msgSize ≤ file.length then
    (some (decodeMsg ((file.drop ch.pos).take msgSize)), ch)
  else (none, { ch with good := false })

/-- `seek`: position the stream at offset `64 + seq × 24`, taking `seq` as a record index
below the header's count. -/
def seek (ch : FileChannel) (seq : Int) : Bool × FileChannel :=
  if !ch.isOpen ∨ seq < 0 ∨ ch.msgCount ≤ seq then (false, ch)
  else if !ch.good then (false, ch)
  else (true, { ch with pos := headerSize + msgSize * seq.toNat, currentSeq := seq })

/-- `getMessageCount`. -/
def getMessageCount (ch : FileChannel) : Int := ch.msgCount

/-- `getFirstSeq`. -/
def getFirstSeq (ch : FileChannel) : Int := ch.firstSeq

/-- `getFileLastSeq`. -/
def getFileLastSeq (ch : FileChannel) : Int := ch.lastSeq

/-- `wasCleanlyClose`. -/
def wasCleanlyClose (ch : FileChannel) : Bool := ch.wasCleanlyClosed

/-- `getCurrentSeq`. -/
def getCurrentSeq (ch : FileChannel) : Int := ch.currentSeq

/-- `getLatestSeq`: the index of the last record the header counts. -/
def getLatestSeq (ch : FileChannel) : Int := if ch.msgCount > 0 then ch.msgCount - 1 else invalidSeq

/-- `n` successive `readNext` calls on the same file. -/
def readN (file : Bytes) : Nat → FileChannel → List (Option Msg)
  | 0, _ => []
  | n + 1, ch => (ch.readNext file).1 :: readN file n (ch.readNext file).2

/-- The reader is open, its stream good, and it is positioned at record `i` of a log whose
header counted `n` records. -/
structure At (ch : FileChannel) (i : Nat) (n : Int) : Prop where
  isOpen : ch.isOpen = true
  good : ch.good = true
  pos : ch.pos = headerSize + msgSize * i
  currentSeq : ch.currentSeq = i
  msgCount : ch.msgCount = n

variable {hdr tail : Bytes} {ms : List Msg}

/-- Below the header's count, `readNext` returns the next record of the log. -/
theorem readNext_at {ch : FileChannel} {i : Nat} {n : Int} (h : ch.At i n) (hi : i < n)
    (hhdr : hdr.length = headerSize) (hms : i < ms.length) :
    (ch.readNext (hdr ++ encodeAll ms ++ tail)).1 = some ms[i].toInt64 ∧
      (ch.readNext (hdr ++ encodeAll ms ++ tail)).2.At (i + 1) n := by
  have hlen : ch.pos + msgSize ≤ (hdr ++ encodeAll ms ++ tail).length := by
    simp only [h.pos, headerSize_eq, msgSize_eq, List.append_assoc, List.length_append, hhdr,
      length_encodeAll]
    omega
  have hdrop : (hdr ++ encodeAll ms ++ tail).drop ch.pos =
      encodeMsg ms[i] ++ (encodeAll (ms.drop (i + 1)) ++ tail) := by
    rw [h.pos, ← List.drop_drop, List.append_assoc, ← hhdr, List.drop_left,
      drop_encodeAll_append _ _ _ hms]
  have hnot : ¬((!ch.isOpen) = true ∨ ch.msgCount ≤ ch.currentSeq) := by
    simp only [h.isOpen, h.msgCount, h.currentSeq, Bool.not_true, Bool.false_eq_true, false_or]
    omega
  simp only [readNext, hnot, if_false, h.good, hlen, and_self, if_true, hdrop,
    List.take_left' (length_encodeMsg _), decodeMsg_encodeMsg]
  exact ⟨trivial, h.isOpen, rfl, by simp [h.pos]; omega, by simp [h.currentSeq], h.msgCount⟩

/-- A record returned by `readNext` lies below the header's count, and moves the reader one
record on. -/
theorem readNext_some {ch : FileChannel} {file : Bytes} {m : Msg}
    (h : (ch.readNext file).1 = some m) :
    ch.currentSeq < ch.msgCount ∧ (ch.readNext file).2.msgCount = ch.msgCount ∧
      (ch.readNext file).2.currentSeq = ch.currentSeq + 1 := by
  unfold readNext at h ⊢
  split_ifs at h ⊢ with h1
  exact ⟨by simp at h1; omega, rfl, rfl⟩

/-- A `readNext` that returns nothing leaves the read position where it was. -/
theorem readNext_none {ch : FileChannel} {file : Bytes} (h : (ch.readNext file).1 = none) :
    (ch.readNext file).2.currentSeq = ch.currentSeq := by
  unfold readNext at h ⊢
  split_ifs at h ⊢ <;> rfl

/-- A reader that is not open reads nothing and stays as it is. -/
theorem readNext_closed {ch : FileChannel} (h : ch.isOpen = false) (file : Bytes) :
    ch.readNext file = (none, ch) := by
  simp [readNext, h]

/-- At the header's count, `readNext` returns nothing and changes nothing. -/
theorem readNext_end {ch : FileChannel} {i : Nat} {n : Int} (h : ch.At i n) (hi : n ≤ i)
    (file : Bytes) : ch.readNext file = (none, ch) := by
  simp [readNext, h.msgCount, h.currentSeq, hi]

theorem readN_end {ch : FileChannel} {i : Nat} {n : Int} (h : ch.At i n) (hi : n ≤ i)
    (file : Bytes) (k : Nat) : readN file k ch = List.replicate k none := by
  induction k with
  | zero => rfl
  | succ k ih => simp [readN, readNext_end h hi, ih, List.replicate_succ]

/-- **A reader positioned in a log reads the records up to the header's count, and then
nothing.** -/
theorem readN_log {ch : FileChannel} {i n : Nat} (h : ch.At i n) (hin : i ≤ n)
    (hn : n ≤ ms.length) (hhdr : hdr.length = headerSize) (k : Nat) :
    readN (hdr ++ encodeAll ms ++ tail) (n - i + k) ch =
      ((ms.drop i).take (n - i)).map (some ∘ Msg.toInt64) ++ List.replicate k none := by
  obtain ⟨d, hd⟩ : ∃ d, n - i = d := ⟨_, rfl⟩
  rw [hd]
  induction d generalizing i ch with
  | zero => simp [readN_end h (by omega : (n : Int) ≤ i)]
  | succ d ih =>
    have hi : i < ms.length := by omega
    obtain ⟨h1, h2⟩ := @readNext_at hdr tail ms ch i n h (by omega) hhdr hi
    rw [Nat.add_right_comm, readN, h1, ih h2 (by omega) (by omega), List.drop_eq_getElem_cons hi]
    rfl

/-- `seek` succeeds exactly on the record indices below the header's count, and positions
the reader at that record. -/
theorem seek_at {ch : FileChannel} {i : Nat} {n : Int} (h : ch.At i n) (s : Int) :
    (ch.seek s).1 = decide (0 ≤ s ∧ s < n) ∧ (0 ≤ s ∧ s < n → (ch.seek s).2.At s.toNat n) := by
  by_cases hs : 0 ≤ s ∧ s < n
  · have hg : ¬((!ch.isOpen) = true ∨ s < 0 ∨ ch.msgCount ≤ s) := by
      simp only [h.isOpen, h.msgCount, Bool.not_true, Bool.false_eq_true, false_or]; omega
    simp only [seek, hg, h.good, if_false, Bool.not_true, Bool.false_eq_true, hs, decide_True,
      and_self, true_and]
    exact fun _ => ⟨h.isOpen, rfl, rfl, show s = (s.toNat : Int) by omega, h.msgCount⟩
  · have hg : (!ch.isOpen) = true ∨ s < 0 ∨ ch.msgCount ≤ s := by
      simp only [h.msgCount]; omega
    rw [seek, if_pos hg]
    simp [hs]

/-- After a `seek`, whether it succeeds or not, the reader is still at a record of the log. -/
theorem exists_at_seek {ch : FileChannel} {i : Nat} {n : Int} (h : ch.At i n) (s : Int) :
    ∃ j : Nat, (ch.seek s).2.At j n := by
  by_cases hs : 0 ≤ s ∧ s < n
  · exact ⟨_, (seek_at h s).2 hs⟩
  · have hg : (!ch.isOpen) = true ∨ s < 0 ∨ ch.msgCount ≤ s := by simp only [h.msgCount]; omega
    rw [seek, if_pos hg]
    exact ⟨i, h⟩

/-- After a `readNext` on a log holding the header's count of records, the reader is still at
a record of the log. -/
theorem exists_at_readNext (hhdr : hdr.length = headerSize) {n : Int} (hn : n ≤ ms.length)
    {ch : FileChannel} {i : Nat} (h : ch.At i n) :
    ∃ j : Nat, (ch.readNext (hdr ++ encodeAll ms ++ tail)).2.At j n := by
  by_cases hi : (i : Int) < n
  · exact ⟨_, (readNext_at h hi hhdr (by omega)).2⟩
  · exact ⟨i, by rw [readNext_end h (by omega)]; exact h⟩

/-- **`open` on a log**: a header whose counters are `int64_t` values is read back; the
range and the clean-close flag are adopted only from a consistent header. -/
theorem open_log (h : FileHeader) (hh : h.IsInt64) (hv : h.isValid = true) (rest : Bytes) :
    new.«open» (encodeHeader h ++ rest) =
      (true, { isOpen := true, currentSeq := 0, msgCount := h.msgCount,
               firstSeq := if h.isConsistent then h.firstSeq else invalidSeq,
               lastSeq := if h.isConsistent then h.lastSeq else invalidSeq,
               wasCleanlyClosed := h.isConsistent && h.isComplete, pos := headerSize,
               good := true }) := by
  have hdec : decodeHeader ((encodeHeader h ++ rest).take headerSize) = h := by
    rw [List.take_left' (length_encodeHeader h)]
    simpa using decodeHeader_encodeHeader_append h hh []
  simp only [«open», new, hdec, hv, Bool.not_true, Bool.false_eq_true, if_false,
    List.length_append, length_encodeHeader]
  rw [if_neg (by omega)]
  cases h.isConsistent <;> rfl

/-- `open` from the constructor's state opens the reader exactly when it succeeds, at read
position `0`; on success the reader stands at the first record, under the header's
count. -/
theorem open_new (file : Bytes) :
    (new.«open» file).2.isOpen = (new.«open» file).1 ∧ (new.«open» file).2.currentSeq = 0 ∧
      ((new.«open» file).1 = true → (new.«open» file).2.At 0 (new.«open» file).2.msgCount) := by
  simp only [«open», new, Bool.false_eq_true, if_false]
  split_ifs <;> exact ⟨rfl, rfl, fun h => by first | exact ⟨rfl, rfl, rfl, rfl, rfl⟩ | cases h⟩

end FileChannel

/-! ### The log seen by a reader -/

theorem firstSeqOf_cases (ms : List Msg) :
    firstSeqOf ms = invalidSeq ∨ ∃ m ∈ ms, firstSeqOf ms = m.seqNum := by
  induction ms using List.reverseRecOn with
  | nil => exact .inl rfl
  | append_singleton ms m ih =>
    rw [firstSeqOf_append_singleton]
    split
    · exact .inr ⟨m, by simp, rfl⟩
    · rcases ih with h | ⟨m', hm', h⟩
      · contradiction
      · exact .inr ⟨m', by simp [hm'], h⟩

theorem lastSeqOf_cases (ms : List Msg) :
    lastSeqOf ms = invalidSeq ∨ ∃ m ∈ ms, lastSeqOf ms = m.seqNum := by
  induction ms using List.reverseRecOn with
  | nil => exact .inl rfl
  | append_singleton ms m _ => exact .inr ⟨m, by simp, by simp⟩

@[simp] theorem headerOf_isValid (ms : List Msg) (f : UInt16) :
    { headerOf ms with flags := f }.isValid = true := rfl

/-- The header of `int64_t` messages, fewer than `2 ^ 63` of them, has `int64_t` counters. -/
theorem headerOf_isInt64 {ms : List Msg} (hfit : ∀ m ∈ ms, m.IsInt64)
    (hlen : ms.length < 2 ^ 63) (f : UInt16) : { headerOf ms with flags := f }.IsInt64 := by
  have hinv : IsInt64 invalidSeq := by decide
  refine ⟨⟨by simp [headerOf]; omega, by simp [headerOf]; omega⟩, ?_, ?_⟩
  · rcases firstSeqOf_cases ms with h | ⟨m, hm, h⟩ <;> simp only [headerOf, h]
    exacts [hinv, (hfit m hm).1]
  · rcases lastSeqOf_cases ms with h | ⟨m, hm, h⟩ <;> simp only [headerOf, h]
    exacts [hinv, (hfit m hm).1]

namespace FileWriteChannel

/-- `close` writes the final header, with the clean-close flag, over the written log. -/
theorem close_file {w : FileWriteChannel} {ms : List Msg} {k : Nat} (h : w.Holds ms k) :
    w.close.file = encodeHeader { headerOf ms with flags := fileFlagComplete } ++ encodeAll ms := by
  have hhdr : { { w.header with flags := w.header.flags ||| fileFlagComplete } with
      msgCount := w.msgCount, firstSeq := w.firstSeq, lastSeq := w.lastSeq } =
        { headerOf ms with flags := fileFlagComplete } := by
    rw [h.header, h.msgCount, h.firstSeq, h.lastSeq]
    simp only [headerOf, FileHeader.default, FileHeader.mk.injEq, and_true]
    decide
  simp only [close, updateHeader, h.isOpen, if_true, hhdr]
  rw [h.file, writeAt_zero _ _ _ (by simp)]

/-- The writer after `open` and a run of calls. -/
theorem open_run_holds (calls : List WriterCall) :
    ∃ k, (new.«open».2.run calls).Holds (written calls) k := by
  simpa using run_holds open_holds calls

end FileWriteChannel

/-- A closed log opens at its first record, with every written record counted. -/
theorem FileChannel.open_close_at (calls : List WriterCall)
    (hfit : ∀ m ∈ written calls, m.IsInt64) (hlen : (written calls).length < 2 ^ 63) :
    let file := (FileWriteChannel.new.«open».2.run calls).close.file
    file = encodeHeader { headerOf (written calls) with flags := fileFlagComplete } ++
      encodeAll (written calls) ∧
    (new.«open» file).1 = true ∧ (new.«open» file).2.At 0 (written calls).length := by
  intro file
  obtain ⟨k, hw⟩ := FileWriteChannel.open_run_holds calls
  have hfile : file = _ := FileWriteChannel.close_file hw
  rw [hfile, open_log _ (headerOf_isInt64 hfit hlen _) rfl]
  exact ⟨rfl, rfl, rfl, rfl, rfl, rfl, rfl⟩

open FileWriteChannel in
/-- **Crash resilience.**  Observe the file of a writer that flushed after `pre` and then
made only writes `post`, with the bytes past the flushed prefix replaced by anything (lost,
partly written, or still in flight): the reader opens it, reports it not cleanly closed,
counts what the writer had written at that flush, and reads back exactly those records. -/
theorem crash_recovery (pre post : List WriterCall) (hpost : WriterCall.flush ∉ post)
    (hfit : ∀ m ∈ written pre, m.IsInt64) (hlen : (written pre).length < 2 ^ 63)
    (tail : Bytes) :
    let w := new.«open».2.run (pre ++ .flush :: post)
    let k := (written pre).length
    let observed := w.file.take (headerSize + msgSize * k) ++ tail
    let r := FileChannel.new.«open» observed
    w.file = w.file.take (headerSize + msgSize * k) ++ encodeAll (written post) ∧
    r.1 = true ∧ r.2.wasCleanlyClose = false ∧
    r.2.getMessageCount = (new.«open».2.run (pre ++ [.flush])).msgCount ∧
    ∀ j, FileChannel.readN observed (k + j) r.2 = (written pre).map some ++ List.replicate j none := by
  intro w k observed r
  obtain ⟨k0, h0⟩ := open_run_holds pre
  have hf : (new.«open».2.run (pre ++ [.flush])).Holds (written pre) k := by
    simpa using flush_holds h0
  have hw : w.Holds (written pre ++ written post) k := by
    simpa [w] using run_holds_of_no_flush hf post hpost
  have hhdr : w.header = headerOf (written pre) := by simp [hw.header, k]
  have htake : w.file.take (headerSize + msgSize * k) =
      encodeHeader (headerOf (written pre)) ++ encodeAll (written pre) := by
    rw [hw.file, hhdr, encodeAll_append, ← List.append_assoc]
    exact List.take_left' (by simp [k])
  have hobs : observed = encodeHeader { headerOf (written pre) with flags := 0 } ++
      encodeAll (written pre) ++ tail := by
    simp only [observed, htake]
    rfl
  have hr : r = FileChannel.new.«open» (encodeHeader { headerOf (written pre) with flags := 0 } ++
      (encodeAll (written pre) ++ tail)) := by
    simp only [r, hobs, List.append_assoc]
  rw [FileChannel.open_log _ (headerOf_isInt64 hfit hlen 0) rfl] at hr
  have hat : r.2.At 0 k := by rw [hr]; exact ⟨rfl, rfl, rfl, rfl, rfl⟩
  refine ⟨by rw [htake, hw.file, hhdr, encodeAll_append, List.append_assoc], by rw [hr],
    by rw [hr]; simp [FileChannel.wasCleanlyClose],
    by rw [hr, hf.msgCount]; rfl, fun j => ?_⟩
  have := @FileChannel.readN_log (encodeHeader { headerOf (written pre) with flags := 0 }) tail
    (written pre) r.2 0 k hat (Nat.zero_le _) (le_refl _) (length_encodeHeader _) j
  have hmap : (written pre).map (some ∘ Msg.toInt64) = (written pre).map some :=
    List.map_congr_left fun m hm => by simp [Msg.toInt64_of_isInt64 (hfit m hm)]
  simp only [Nat.sub_zero, List.drop_zero] at this
  rw [hobs, this, List.take_of_length_le (le_refl _), hmap]

open FileWriteChannel in
/-- One record flushed, one written after the flush, and the crash loses the second. -/
theorem crash_recovery_after_one_flush :
    (WriterCall.flush ∉ [WriterCall.write ⟨1, 6, 8⟩] ∧
      (∀ m ∈ written [.write ⟨0, 5, 7⟩], m.IsInt64) ∧
      (written [.write ⟨0, 5, 7⟩]).length < 2 ^ 63) ∧
    let pre := [WriterCall.write ⟨0, 5, 7⟩]
    let post := [WriterCall.write ⟨1, 6, 8⟩]
    let w := new.«open».2.run (pre ++ .flush :: post)
    let k := (written pre).length
    let observed := w.file.take (headerSize + msgSize * k) ++ []
    let r := FileChannel.new.«open» observed
    w.file = w.file.take (headerSize + msgSize * k) ++ encodeAll (written post) ∧
    r.1 = true ∧ r.2.wasCleanlyClose = false ∧
    r.2.getMessageCount = (new.«open».2.run (pre ++ [.flush])).msgCount ∧
    ∀ j, FileChannel.readN observed (k + j) r.2 = (written pre).map some ++
      List.replicate j none :=
  ⟨⟨by decide, by decide, by decide⟩,
    crash_recovery [.write ⟨0, 5, 7⟩] [.write ⟨1, 6, 8⟩] (by decide) (by decide) (by decide) []⟩

theorem firstSeqOf_cons {m : Msg} (hm : m.seqNum ≠ invalidSeq) (ms : List Msg) :
    firstSeqOf (m :: ms) = m.seqNum := by
  have keep : ∀ (x : Int) (ms : List Msg), x ≠ invalidSeq →
      ms.foldl (fun f m => if f = invalidSeq then m.seqNum else f) x = x := by
    intro x ms hx
    induction ms with
    | nil => rfl
    | cons m' ms ih => simp only [List.foldl, if_neg hx]; exact ih
  exact keep _ ms (by simpa [firstSeqOf] using hm)

theorem lastSeqOf_eq_getLast {ms : List Msg} (h : ms ≠ []) :
    lastSeqOf ms = (ms.getLast h).seqNum := by
  obtain ⟨ms, m, rfl⟩ := List.eq_nil_or_concat ms |>.resolve_left h
  simp

/-- `isConsistent` on a non-empty header with an ordered, non-negative range is the
no-gap check. -/
theorem FileHeader.isConsistent_of_range (h : FileHeader) (hv : h.isValid = true)
    (hc : 0 < h.msgCount) (h1 : 0 ≤ h.firstSeq) (h2 : h.firstSeq ≤ h.lastSeq) :
    h.isConsistent = decide (h.lastSeq - h.firstSeq + 1 = h.msgCount) := by
  unfold isConsistent
  simp only [hv, Bool.not_true, Bool.false_eq_true, if_false]
  rw [if_neg (by omega), if_neg (by omega), if_neg (by omega), if_neg (by omega)]
  by_cases he : h.lastSeq - h.firstSeq + 1 = h.msgCount <;> simp [he]

end Replay
