import ReplaySystem.Basic

/-!
# The log format

The byte layout of the log file of `channel/FileChannel.hpp`: a 64-byte `FileHeader`
followed by 24-byte message records, little-endian, integers in two's complement.  Records
start at offset 64; the writer rewrites the header in place.

Encoding an `int64_t` keeps its value modulo `2 ^ 64`, so decoding gives back every
integer in the `int64_t` range (`IsInt64`) and wraps the others (`toInt64`); every integer
of the source is in that range.

## Main definitions

* `encodeLE`, `decodeLE`, `encodeI64`, `decodeI64` — fixed-width fields.
* `FileHeader` with `isValid`, `isConsistent`, `isComplete`; `encodeHeader`, `decodeHeader`.
* `encodeMsg`, `decodeMsg`, `encodeAll` — records.

## Main results

* `decodeHeader_encodeHeader` — a header whose counters are `int64_t` values round-trips.
* `decodeMsg_encodeMsg` — a record decodes to the message with its integers wrapped to 64
  bits, which is the message itself when they are `int64_t` values.
-/

namespace Replay

/-- File contents. -/
abbrev Bytes := List UInt8

/-- The size of the file header (`sizeof(FileHeader)`). -/
def headerSize : Nat := 64

/-- The size of a record (`sizeof(Msg)`). -/
def msgSize : Nat := 24

@[simp] theorem headerSize_eq : headerSize = 64 := rfl

@[simp] theorem msgSize_eq : msgSize = 24 := rfl

/-! ### Fixed-width fields -/

/-- The `w` little-endian bytes of `v` modulo `256 ^ w`. -/
def encodeLE : Nat → Nat → Bytes
  | 0, _ => []
  | w + 1, v => UInt8.ofNat v :: encodeLE w (v / 256)

/-- The value of little-endian bytes. -/
def decodeLE : Bytes → Nat
  | [] => 0
  | b :: bs => b.toNat + 256 * decodeLE bs

@[simp] theorem length_encodeLE (w v : Nat) : (encodeLE w v).length = w := by
  induction w generalizing v with
  | zero => rfl
  | succ w ih => simp [encodeLE, ih]

theorem decodeLE_encodeLE (w v : Nat) : decodeLE (encodeLE w v) = v % 256 ^ w := by
  induction w generalizing v with
  | zero => simp [encodeLE, decodeLE, Nat.mod_one]
  | succ w ih =>
    simp only [encodeLE, decodeLE, ih, Nat.pow_succ', Nat.mod_mul]
    simp [UInt8.toNat, UInt8.ofNat]

/-- Read a `w`-byte little-endian field off the front of the bytes. -/
def readLE (w : Nat) (bs : Bytes) : Nat × Bytes := (decodeLE (bs.take w), bs.drop w)

@[simp] theorem readLE_encodeLE_append (w v : Nat) (rest : Bytes) :
    readLE w (encodeLE w v ++ rest) = (v % 256 ^ w, rest) := by
  simp [readLE, List.take_append_eq_append_take, List.drop_append_eq_append_drop,
    decodeLE_encodeLE]

/-- An integer in the range of `int64_t`. -/
def IsInt64 (x : Int) : Prop := -2 ^ 63 ≤ x ∧ x < 2 ^ 63

instance (x : Int) : Decidable (IsInt64 x) := inferInstanceAs (Decidable (_ ∧ _))

/-- An `int64_t` in two's complement. -/
def encodeI64 (x : Int) : Bytes := encodeLE 8 (x % 2 ^ 64).toNat

/-- The `int64_t` of eight bytes. -/
def decodeI64 (bs : Bytes) : Int :=
  if decodeLE bs < 2 ^ 63 then decodeLE bs else (decodeLE bs : Int) - 2 ^ 64

/-- An integer wrapped to `int64_t`, as storing it in eight bytes does. -/
def toInt64 (x : Int) : Int := decodeI64 (encodeI64 x)

@[simp] theorem length_encodeI64 (x : Int) : (encodeI64 x).length = 8 := by simp [encodeI64]

theorem toInt64_of_isInt64 {x : Int} (h : IsInt64 x) : toInt64 x = x := by
  unfold toInt64 decodeI64 encodeI64 IsInt64 at *
  rw [decodeLE_encodeLE]
  split <;> omega

theorem isInt64_toInt64 (x : Int) : IsInt64 (toInt64 x) := by
  unfold toInt64 decodeI64 encodeI64 IsInt64
  rw [decodeLE_encodeLE]
  have := Nat.mod_lt (x % 2 ^ 64).toNat (Nat.pos_pow_of_pos 8 (by decide : 0 < 256))
  split <;> omega

/-- Read an `int64_t` field off the front of the bytes. -/
def readI64 (bs : Bytes) : Int × Bytes := (decodeI64 (bs.take 8), bs.drop 8)

@[simp] theorem readI64_encodeI64_append (x : Int) (rest : Bytes) :
    readI64 (encodeI64 x ++ rest) = (toInt64 x, rest) := by
  simp [readI64, toInt64, List.take_append_eq_append_take, List.drop_append_eq_append_drop]

/-! ### The header -/

/-- The file magic number `"MKTD"` (`FILE_MAGIC`). -/
def fileMagic : UInt32 := 0x4D4B5444

/-- The format version (`FILE_VERSION`). -/
def fileVersion : UInt16 := 2

/-- The clean-close bit of the header flags (`FILE_FLAG_COMPLETE`). -/
def fileFlagComplete : UInt16 := 0x0001

/-- The file header.  The date and the reserved words are written as zero and never read. -/
structure FileHeader where
  magic : UInt32
  version : UInt16
  flags : UInt16
  date : UInt32
  msgCount : Int
  firstSeq : Int
  lastSeq : Int
  deriving DecidableEq, Repr

/-- The header `FileHeader()` builds: current magic and version, no flags, empty. -/
def FileHeader.default : FileHeader :=
  ⟨fileMagic, fileVersion, 0, 0, 0, invalidSeq, invalidSeq⟩

namespace FileHeader

/-- `isValid`: magic and version match. -/
def isValid (h : FileHeader) : Bool := h.magic == fileMagic && h.version == fileVersion

/-- `isConsistent`: the count and the first/last sequence numbers agree, as for a log
recorded without gaps. -/
def isConsistent (h : FileHeader) : Bool :=
  if !h.isValid then false
  else if h.msgCount < 0 then false
  else if h.msgCount = 0 then h.firstSeq = invalidSeq && h.lastSeq = invalidSeq
  else if h.firstSeq < 0 ∨ h.lastSeq < 0 then false
  else if h.firstSeq > h.lastSeq then false
  else if h.lastSeq - h.firstSeq + 1 ≠ h.msgCount then false
  else true

/-- `isComplete`: the clean-close flag is set. -/
def isComplete (h : FileHeader) : Bool := (h.flags &&& fileFlagComplete) != 0

@[simp] theorem isComplete_flags_zero (h : FileHeader) : { h with flags := 0 }.isComplete = false :=
  show ((0 : UInt16) &&& fileFlagComplete != 0) = false by decide

@[simp] theorem isComplete_flags_complete (h : FileHeader) :
    { h with flags := fileFlagComplete }.isComplete = true :=
  show (fileFlagComplete &&& fileFlagComplete != 0) = true by decide

/-- The header's integers are `int64_t` values. -/
def IsInt64 (h : FileHeader) : Prop :=
  Replay.IsInt64 h.msgCount ∧ Replay.IsInt64 h.firstSeq ∧ Replay.IsInt64 h.lastSeq

end FileHeader

/-- The 64 header bytes: magic, version, flags, date, a reserved word, the count, the
first and last sequence numbers, and 24 reserved bytes. -/
def encodeHeader (h : FileHeader) : Bytes :=
  encodeLE 4 h.magic.toNat ++ encodeLE 2 h.version.toNat ++ encodeLE 2 h.flags.toNat ++
    encodeLE 4 h.date.toNat ++ encodeLE 4 0 ++ encodeI64 h.msgCount ++ encodeI64 h.firstSeq ++
    encodeI64 h.lastSeq ++ encodeLE 24 0

/-- The header of 64 bytes. -/
def decodeHeader (bs : Bytes) : FileHeader :=
  let (magic, bs) := readLE 4 bs
  let (version, bs) := readLE 2 bs
  let (flags, bs) := readLE 2 bs
  let (date, bs) := readLE 4 bs
  let bs := bs.drop 4
  let (msgCount, bs) := readI64 bs
  let (firstSeq, bs) := readI64 bs
  let (lastSeq, _) := readI64 bs
  ⟨UInt32.ofNat magic, UInt16.ofNat version, UInt16.ofNat flags, UInt32.ofNat date,
    msgCount, firstSeq, lastSeq⟩

@[simp] theorem length_encodeHeader (h : FileHeader) : (encodeHeader h).length = headerSize := by
  simp [encodeHeader]

theorem ofNat_toNat_u16 (u : UInt16) : UInt16.ofNat (u.toNat % 65536) = u :=
  UInt16.toNat.inj (by simp [UInt16.toNat, UInt16.ofNat, u.toBitVec.isLt])

theorem ofNat_toNat_u32 (u : UInt32) : UInt32.ofNat (u.toNat % 4294967296) = u :=
  UInt32.toNat.inj (by simp [UInt32.toNat, UInt32.ofNat, u.toBitVec.isLt])

theorem decodeHeader_encodeHeader_append (h : FileHeader) (hh : h.IsInt64) (rest : Bytes) :
    decodeHeader (encodeHeader h ++ rest) = h := by
  obtain ⟨h1, h2, h3⟩ := hh
  simp [decodeHeader, encodeHeader, List.append_assoc, toInt64_of_isInt64, h1, h2, h3,
    List.drop_append_eq_append_drop, ofNat_toNat_u16, ofNat_toNat_u32]

/-! ### Records -/

/-- The 24 record bytes of a message: sequence number, timestamp, payload bits. -/
def encodeMsg (m : Msg) : Bytes :=
  encodeI64 m.seqNum ++ encodeI64 m.timestampNs ++ encodeLE 8 m.payload.toNat

/-- The message of a record. -/
def decodeMsg (bs : Bytes) : Msg :=
  let (seqNum, bs) := readI64 bs
  let (timestampNs, bs) := readI64 bs
  let (payload, _) := readLE 8 bs
  ⟨seqNum, timestampNs, UInt64.ofNat payload⟩

/-- The records of messages, back to back. -/
def encodeAll (ms : List Msg) : Bytes := ms.flatMap encodeMsg

/-- A message with its integers wrapped to `int64_t`, as a record stores them. -/
def Msg.toInt64 (m : Msg) : Msg :=
  { m with seqNum := Replay.toInt64 m.seqNum, timestampNs := Replay.toInt64 m.timestampNs }

/-- The message's integers are `int64_t` values, as those of every message of the source. -/
def Msg.IsInt64 (m : Msg) : Prop := Replay.IsInt64 m.seqNum ∧ Replay.IsInt64 m.timestampNs

instance (m : Msg) : Decidable m.IsInt64 := inferInstanceAs (Decidable (_ ∧ _))

theorem Msg.toInt64_of_isInt64 {m : Msg} (h : m.IsInt64) : m.toInt64 = m := by
  simp [Msg.toInt64, Replay.toInt64_of_isInt64 h.1, Replay.toInt64_of_isInt64 h.2]

@[simp] theorem Msg.toInt64_payload (m : Msg) : m.toInt64.payload = m.payload := by
  simp [Msg.toInt64]

@[simp] theorem Msg.toInt64_seqNum (m : Msg) : m.toInt64.seqNum = Replay.toInt64 m.seqNum := by
  simp [Msg.toInt64]

@[simp] theorem length_encodeMsg (m : Msg) : (encodeMsg m).length = msgSize := by
  simp [encodeMsg]

theorem ofNat_toNat_u64 (u : UInt64) : UInt64.ofNat (u.toNat % 18446744073709551616) = u :=
  UInt64.toNat.inj (by simp [UInt64.toNat, UInt64.ofNat, u.toBitVec.isLt])

/-- **A record decodes to its message**, integers wrapped to 64 bits; whatever follows it
is not read. -/
theorem decodeMsg_encodeMsg_append (m : Msg) (rest : Bytes) :
    decodeMsg (encodeMsg m ++ rest) = m.toInt64 := by
  simp [decodeMsg, encodeMsg, List.append_assoc, ofNat_toNat_u64, Msg.toInt64]

@[simp] theorem decodeMsg_encodeMsg (m : Msg) : decodeMsg (encodeMsg m) = m.toInt64 := by
  simpa using decodeMsg_encodeMsg_append m []

@[simp] theorem length_encodeAll (ms : List Msg) : (encodeAll ms).length = msgSize * ms.length := by
  induction ms with
  | nil => rfl
  | cons m ms ih =>
    simp only [encodeAll, List.flatMap_cons, List.length_append, length_encodeMsg] at ih ⊢
    rw [ih, List.length_cons, Nat.mul_succ]; omega

@[simp] theorem encodeAll_append (ms ms' : List Msg) :
    encodeAll (ms ++ ms') = encodeAll ms ++ encodeAll ms' := by
  simp [encodeAll]

/-- The bytes from record `i` on. -/
theorem drop_encodeAll_append (ms : List Msg) (tail : Bytes) (i : Nat) (h : i < ms.length) :
    (encodeAll ms ++ tail).drop (msgSize * i) =
      encodeMsg ms[i] ++ (encodeAll (ms.drop (i + 1)) ++ tail) := by
  induction ms generalizing i with
  | nil => simp at h
  | cons m ms ih =>
    cases i with
    | zero => simp [encodeAll]
    | succ i =>
      have := ih i (by simpa using h)
      simp only [encodeAll, List.flatMap_cons, List.append_assoc] at this ⊢
      rw [show msgSize * (i + 1) = (encodeMsg m).length + msgSize * i by simp; omega,
        ← List.drop_drop, List.drop_left]
      simpa using this

end Replay
