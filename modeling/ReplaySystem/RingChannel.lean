import ReplaySystem.Ring
import Mathlib.Order.Interval.Finset.Nat

/-!
# The ring's reader interface and the shared-memory channel

The calls of `RingBuffer` that the recorder and the client never make: the legacy `read`
and `tryRead`, `isAvailable`, `size` and `getNextWriteSeq`.  Over them sits
`SharedMemChannel` (`channel/SharedMemChannel.hpp`), the live `IChannel`, which reads the
ring through a `ConsumerCursor`.  Each call is one atomic step, as in `ReplaySystem.Ring`.

`read` answers `NOT_READY` and `OVERWRITTEN` alike with nothing.  A reader that uses it
cannot tell that it has been lapped.  The channel advances its cursor only on a message,
so once lapped it never advances again.

## Main definitions

* `RingBuffer.read`, `RingBuffer.tryRead`, `RingBuffer.isAvailable`, `RingBuffer.size`,
  `RingBuffer.getNextWriteSeq`.
* `ConsumerCursor` — the reader's atomic position.
* `SharedMemChannel` with `open`, `close`, `readNext`, `peek`, `seek`.

## Main results

* `RingBuffer.read_ringOf` — `read` answers exactly on the last lap below the push count.
* `RingBuffer.size_ringOf` — `size` counts exactly the sequence numbers still readable.
* `SharedMemChannel.seek_ringOf` — `seek`'s range check accepts exactly the readable
  sequence numbers.
* `SharedMemChannel.readNext_lapped` — a lapped channel reads nothing, whatever is pushed
  later.
-/

namespace Replay

namespace RingBuffer

variable (C : Capacity)

/-- `read`, the legacy interface: the message of an `OK` read, and nothing on `NOT_READY`
and `OVERWRITTEN` alike. -/
def read (rb : RingBuffer) (expectedSeq : Int) : Option Msg :=
  let result := rb.readEx C expectedSeq
  if result.status = .ok then some result.msg else none

/-- `tryRead`, another name for `read`. -/
def tryRead (rb : RingBuffer) (expectedSeq : Int) : Option Msg := rb.read C expectedSeq

/-- `getNextWriteSeq`: the sequence number the next push takes. -/
def getNextWriteSeq (rb : RingBuffer) : Int := rb.writeSeq

/-- `isAvailable`: one load of the slot's published sequence, with no copy of the message. -/
def isAvailable (rb : RingBuffer) (seq : Int) : Bool :=
  if seq < 0 then false else (rb.buffer (slotIndex C seq)).seq = seq

/-- `size`: `min(latest + 1, Capacity)`, and zero before the first push. -/
def size (rb : RingBuffer) : Nat :=
  let latest := rb.getLatestSeq
  if latest < 0 then 0 else min (latest + 1).toNat C.val

/-- Taken as one step, `read` answers exactly when the slot's published sequence is the
expected one: the seqlock's second load sees what the first saw. -/
theorem read_eq (rb : RingBuffer) (e : Int) :
    rb.read C e =
      if e < 0 then none
      else if (rb.buffer (slotIndex C e)).seq = e then some (rb.buffer (slotIndex C e)).msg
      else none := by
  unfold read readEx
  split_ifs <;> simp_all
  split <;> simp

/-- `isAvailable` answers whether `read` would return a message. -/
theorem isAvailable_eq_isSome_read (rb : RingBuffer) (e : Int) :
    rb.isAvailable C e = (rb.read C e).isSome := by
  rw [read_eq, isAvailable]
  split_ifs <;> simp_all

/-- **What `read` returns after any pushes**: the message pushed under `e` when `e` is on
the last lap below the push count, and nothing otherwise. -/
theorem read_ringOf (ms : List Msg) (e : Int) :
    (ringOf C ms).read C e =
      if 0 ≤ e ∧ e < ms.length ∧ ms.length ≤ e + C.val then some (pushedMsg ms e.toNat)
      else none := by
  have := C.pos
  simp only [read, readEx_ringOf]
  split_ifs <;> simp_all <;> omega

theorem isAvailable_ringOf (ms : List Msg) (e : Int) :
    (ringOf C ms).isAvailable C e = decide (0 ≤ e ∧ e < ms.length ∧ ms.length ≤ e + C.val) := by
  rw [isAvailable_eq_isSome_read, read_ringOf]
  split_ifs <;> simp_all

/-- A sequence number more than a lap behind stays unreadable whatever is pushed later:
its slot only ever holds later generations. -/
theorem read_ringOf_lapped {ms : List Msg} {e : Int} (h : e + C.val < ms.length)
    (ms' : List Msg) : (ringOf C (ms ++ ms')).read C e = none := by
  rw [read_ringOf, if_neg]
  simp only [List.length_append]
  omega

/-- The readable sequence numbers after pushing `W` messages: the last `min W C` of them. -/
theorem filter_isAvailable_ringOf (ms : List Msg) :
    (Finset.range ms.length).filter (fun n : Nat => (ringOf C ms).isAvailable C n) =
      Finset.Ico (ms.length - C.val) ms.length := by
  ext n
  simp only [Finset.mem_filter, Finset.mem_range, Finset.mem_Ico, isAvailable_ringOf,
    decide_eq_true_eq]
  omega

/-- **`size` is exact between calls**: after any pushes it is the number of sequence
numbers a reader can still read. -/
theorem size_ringOf (ms : List Msg) :
    (ringOf C ms).size C =
      ((Finset.range ms.length).filter fun n : Nat => (ringOf C ms).isAvailable C n).card := by
  rw [filter_isAvailable_ringOf, Nat.card_Ico, size]
  simp only [getLatestSeq, ringOf]
  split_ifs <;> omega

end RingBuffer

/-! ### The consumer cursor -/

/-- `ConsumerCursor`: a reader's position in the ring, `read_seq_`. -/
structure ConsumerCursor where
  readSeq : Int
  deriving DecidableEq, Repr

namespace ConsumerCursor

/-- The constructor's cursor, at sequence 0. -/
def new : ConsumerCursor := ⟨0⟩

/-- `getReadSeq`. -/
def getReadSeq (c : ConsumerCursor) : Int := c.readSeq

/-- `setReadSeq`. -/
def setReadSeq (_ : ConsumerCursor) (seq : Int) : ConsumerCursor := ⟨seq⟩

/-- `advance`: one `fetch_add`, returning the position before it. -/
def advance (c : ConsumerCursor) : Int × ConsumerCursor := (c.readSeq, ⟨c.readSeq + 1⟩)

/-- `reset`. -/
def reset (_ : ConsumerCursor) (seq : Int) : ConsumerCursor := ⟨seq⟩

end ConsumerCursor

/-! ### The shared-memory channel -/

/-- `SharedMemChannel`'s state: `is_open_` and the cursor; the ring is passed to each
call. -/
structure SharedMemChannel where
  isOpen : Bool
  cursor : ConsumerCursor
  deriving DecidableEq, Repr

namespace SharedMemChannel

variable (C : Capacity)

/-- The constructor's state: closed, at sequence 0. -/
def new : SharedMemChannel := ⟨false, ConsumerCursor.new⟩

/-- `open`: always succeeds, and rewinds the cursor to sequence 0. -/
def «open» (ch : SharedMemChannel) : Bool × SharedMemChannel := (true, ⟨true, ch.cursor.reset 0⟩)

/-- `close`. -/
def close (ch : SharedMemChannel) : SharedMemChannel := { ch with isOpen := false }

/-- `readNext`: read at the cursor and advance past a message. -/
def readNext (rb : RingBuffer) (ch : SharedMemChannel) : Option Msg × SharedMemChannel :=
  if !ch.isOpen then (none, ch)
  else
    let seq := ch.cursor.getReadSeq
    match rb.read C seq with
    | some m => (some m, { ch with cursor := ch.cursor.advance.2 })
    | none => (none, ch)

/-- `peek`: read at the cursor without moving it. -/
def peek (rb : RingBuffer) (ch : SharedMemChannel) : Option Msg :=
  if !ch.isOpen then none else rb.read C ch.cursor.getReadSeq

/-- `getLatestSeq`, the ring's. -/
def getLatestSeq (rb : RingBuffer) : Int := rb.getLatestSeq

/-- `seek`: accept a sequence number between the oldest one a ring of this capacity can
still hold, `max(0, latest - Capacity + 1)`, and the latest; the channel need not be open. -/
def seek (rb : RingBuffer) (ch : SharedMemChannel) (seq : Int) : Bool × SharedMemChannel :=
  if seq < 0 then (false, ch)
  else
    let latest := rb.getLatestSeq
    let oldest := max 0 (latest - (C.val : Int) + 1)
    if seq > latest ∨ seq < oldest then (false, ch)
    else (true, { ch with cursor := ch.cursor.setReadSeq seq })

/-- `getCurrentSeq`. -/
def getCurrentSeq (ch : SharedMemChannel) : Int := ch.cursor.getReadSeq

/-- `setCurrentSeq`. -/
def setCurrentSeq (ch : SharedMemChannel) (seq : Int) : SharedMemChannel :=
  { ch with cursor := ch.cursor.setReadSeq seq }

/-- **`seek`'s arithmetic agrees with the slots**: after any pushes, `seek` accepts exactly
the sequence numbers whose slot still holds them, and then moves the cursor there. -/
theorem seek_ringOf (ms : List Msg) (ch : SharedMemChannel) (e : Int) :
    (seek C (ringOf C ms) ch e).1 = (ringOf C ms).isAvailable C e ∧
      ((seek C (ringOf C ms) ch e).1 = true → (seek C (ringOf C ms) ch e).2.getCurrentSeq = e) := by
  rw [RingBuffer.isAvailable_ringOf]
  simp only [seek, RingBuffer.getLatestSeq, ringOf]
  split_ifs <;> simp_all [getCurrentSeq, ConsumerCursor.getReadSeq, ConsumerCursor.setReadSeq] <;>
    omega

/-- A message `readNext` returns is the one pushed under the cursor, and the cursor moves
past it. -/
theorem readNext_ringOf_some {ms : List Msg} {ch : SharedMemChannel} {m : Msg}
    (h : (readNext C (ringOf C ms) ch).1 = some m) :
    m = pushedMsg ms ch.getCurrentSeq.toNat ∧ 0 ≤ ch.getCurrentSeq ∧
      ch.getCurrentSeq < ms.length ∧
      (readNext C (ringOf C ms) ch).2.getCurrentSeq = ch.getCurrentSeq + 1 := by
  unfold readNext at h ⊢
  split_ifs at h ⊢
  dsimp only at h ⊢
  split at h
  · next m' hr =>
    cases h
    simp only [hr, getCurrentSeq, ConsumerCursor.advance, ConsumerCursor.getReadSeq] at hr ⊢
    rw [RingBuffer.read_ringOf] at hr
    split_ifs at hr with hw
    cases hr
    exact ⟨rfl, hw.1, hw.2.1, trivial⟩
  · cases h

/-- **A lapped channel is stuck**: once the cursor is more than a lap behind the pushes,
`readNext` returns nothing and leaves the cursor where it is, whatever is pushed later. -/
theorem readNext_lapped {ms : List Msg} {ch : SharedMemChannel}
    (h : ch.getCurrentSeq + C.val < ms.length) (ms' : List Msg) :
    readNext C (ringOf C (ms ++ ms')) ch = (none, ch) := by
  have hr := RingBuffer.read_ringOf_lapped C h ms'
  unfold readNext
  split_ifs
  · rfl
  · simp only [getCurrentSeq] at hr
    simp [hr]

/-- A one-slot channel still at sequence 0 after two pushes reads nothing after a third. -/
theorem readNext_lapped_after_two_pushes :
    (⟨true, ⟨0⟩⟩ : SharedMemChannel).getCurrentSeq + (⟨1, ⟨0, rfl⟩⟩ : Capacity).val <
      ([⟨0, 0, 1⟩, ⟨1, 0, 2⟩] : List Msg).length ∧
    readNext ⟨1, ⟨0, rfl⟩⟩ (ringOf ⟨1, ⟨0, rfl⟩⟩ ([⟨0, 0, 1⟩, ⟨1, 0, 2⟩] ++ [⟨2, 0, 3⟩]))
      ⟨true, ⟨0⟩⟩ = (none, ⟨true, ⟨0⟩⟩) :=
  ⟨by decide, readNext_lapped _ (by decide) _⟩

end SharedMemChannel

end Replay
