import Mathlib.Data.List.Basic
import Mathlib.Algebra.Group.Int
import Mathlib.Algebra.Group.Nat.Basic

/-!
# Messages, sequence numbers and Kahan summation

The vocabulary shared by every component of the replay system: sequence numbers, the
24-byte market-data message, the status tags of the ring and of the client, and the
Kahan-compensated summation that both the recorder and the client apply to payloads.

Sequence numbers (`SeqNum`) are the source's `int64_t` read as integers: the source leaves the
overflow of the 64-bit write cursor unaddressed, and the model does the same. Payloads
are `double`s; the model keeps their 64-bit patterns, which is what the log stores, and
leaves the IEEE-754 operations abstract (`DoubleArith`), so every statement about sums
holds for whatever `+` and `-` the platform computes.

## Main definitions

* `Msg` — the message, with `Msg.empty` for the source's `Msg()`.
* `ReadStatus`, `FaultType`, `ClientState` — the source's status enums.
* `DoubleArith`, `kahanStep`, `kahanFold` — Kahan summation over payload bit patterns.
-/

namespace Replay

/-- The reserved "invalid / absent" sequence number (`INVALID_SEQ`). -/
def invalidSeq : Int := -1

/-- The catch-up threshold of the replay-to-live switch (`CATCHUP_THRESHOLD`). -/
def catchupThreshold : Int := 100

/-- The recorder's default batch size (`DISK_BATCH_SIZE`). -/
def diskBatchSize : Nat := 1024

@[simp] theorem invalidSeq_eq : invalidSeq = -1 := rfl

@[simp] theorem catchupThreshold_eq : catchupThreshold = 100 := rfl

/-- A market-data message: sequence number, timestamp and the bits of a `double`
payload (`Msg`). -/
structure Msg where
  seqNum : Int
  timestampNs : Int
  payload : UInt64
  deriving DecidableEq, Repr

/-- The default message `Msg()`: invalid sequence number, zero timestamp, payload `0.0`
(whose bit pattern is zero). -/
def Msg.empty : Msg := ⟨invalidSeq, 0, 0⟩

instance : Inhabited Msg := ⟨Msg.empty⟩

/-- The three outcomes of a ring read (`ReadStatus`). -/
inductive ReadStatus
  /-- The expected message was read. -/
  | ok
  /-- The producer has not published the expected sequence yet. -/
  | notReady
  /-- The slot already holds a later generation: the reader was lapped. -/
  | overwritten
  deriving DecidableEq, Repr

/-- The faults a client can be given (`FaultType`). -/
inductive FaultType
  /-- Reset the accumulator and recover from the log. -/
  | clientCrash
  /-- Skip ten messages. -/
  | messageLoss
  /-- Block for a while. -/
  | temporaryHang
  deriving DecidableEq, Repr

/-- The client's state tag (`ClientState`). -/
inductive ClientState
  | normal
  | faulted
  | replaying
  | catchingUp
  deriving DecidableEq, Repr

/-! ### Kahan summation -/

/-- The two IEEE-754 double operations Kahan summation is built from, on bit patterns. -/
structure DoubleArith where
  add : UInt64 → UInt64 → UInt64
  sub : UInt64 → UInt64 → UInt64

/-- One step of Kahan summation, as both `processMessage` and the recorder loop write it:
`y = payload - c; t = sum + y; c = (t - sum) - y; sum = t`. -/
def kahanStep (dbl : DoubleArith) (acc : UInt64 × UInt64) (payload : UInt64) :
    UInt64 × UInt64 :=
  let y := dbl.sub payload acc.2
  let t := dbl.add acc.1 y
  (t, dbl.sub (dbl.sub t acc.1) y)

/-- The compensated sum `(sum, c)` of a list of payloads, from `(0.0, 0.0)`. -/
def kahanFold (dbl : DoubleArith) (ps : List UInt64) : UInt64 × UInt64 :=
  ps.foldl (kahanStep dbl) (0, 0)

@[simp] theorem kahanFold_nil (dbl : DoubleArith) : kahanFold dbl [] = (0, 0) := rfl

@[simp] theorem kahanFold_append_singleton (dbl : DoubleArith) (ps : List UInt64)
    (p : UInt64) : kahanFold dbl (ps ++ [p]) = kahanStep dbl (kahanFold dbl ps) p := by
  simp [kahanFold]

end Replay
