import ReplaySystem.Basic
import Mathlib.Logic.Function.Basic

/-!
# The ring buffer

`RingBuffer<Capacity>` of `common/RingBuffer.hpp`, with each call taken as one atomic step:
the semantics a single producer and its readers see when no call is interleaved with
another.  (`ReplaySystem.RingInterleaving` splits `push` and `readEx` into their loads and
stores.)

A slot is addressed by `seq & (Capacity - 1)`; every publish of sequence `seq` stores the
message, patched with `seq`, into that slot and then stores `seq` as the slot's published
sequence.  After `W` pushes the whole state is determined by the pushed messages: slot `i`
holds the last message whose sequence number is `i` modulo the capacity (`ringOf`).

## Main definitions

* `Capacity` — the template argument, which the source requires to be a power of two.
* `RingBuffer.push`, `RingBuffer.pushBatch`, `RingBuffer.readEx`, `RingBuffer.getLatestSeq`.
* `lastInClass C i W` — the last sequence below `W` that lands in slot `i`.
* `ringOf C ms` — the ring after pushing `ms` one by one.

## Main results

* `pushBatch_snd` — a batch publishes exactly like that many single pushes.
* `pushAll_init` — the ring after any pushes is `ringOf`.
* `readEx_ringOf` — the three-way outcome of a read, as a function of the push count.
* `runCalls_spec` — the state and every answer after any sequence of `push`/`pushBatch`.
-/

namespace Replay

/-- A ring capacity: the template argument `Capacity`, which the source's `static_assert`s
require to be a power of two. -/
structure Capacity where
  val : Nat
  isPowerOfTwo : val.isPowerOfTwo

theorem Capacity.pos (C : Capacity) : 0 < C.val := Nat.pos_of_isPowerOfTwo C.isPowerOfTwo

/-- The slot of a sequence number, `seq & (Capacity - 1)`; the source only computes it for
non-negative `seq`. -/
def slotIndex (C : Capacity) (seq : Int) : Nat := seq.toNat &&& (C.val - 1)

theorem slotIndex_eq_mod (C : Capacity) (seq : Int) : slotIndex C seq = seq.toNat % C.val := by
  obtain ⟨k, hk⟩ := C.isPowerOfTwo
  rw [slotIndex, hk, Nat.and_pow_two_sub_one_eq_mod]

/-- One slot: the message and its published sequence number. -/
structure Slot where
  msg : Msg
  seq : Int
  deriving DecidableEq, Repr

/-- A slot as the constructor leaves it: nothing published. -/
def Slot.empty : Slot := ⟨Msg.empty, invalidSeq⟩

/-- The result of `readEx`; `msg` is meaningful only when `status` is `ok`. -/
structure ReadResult where
  status : ReadStatus
  msg : Msg
  deriving DecidableEq, Repr

/-- The ring's state: the slots, the write cursor `write_seq_` and `overwrite_count_`. -/
structure RingBuffer where
  buffer : Nat → Slot
  writeSeq : Int
  overwriteCount : Int

namespace RingBuffer

variable (C : Capacity)

/-- The freshly constructed ring. -/
def init : RingBuffer := ⟨fun _ => Slot.empty, 0, 0⟩

/-- The per-slot body shared by `push` and `pushBatch`: count an overwrite if the slot was
already published, store the message patched with `seq`, publish `seq`. -/
def publish (rb : RingBuffer) (seq : Int) (msg : Msg) : RingBuffer :=
  let i := slotIndex C seq
  { rb with
    overwriteCount :=
      if (rb.buffer i).seq ≠ invalidSeq then rb.overwriteCount + 1 else rb.overwriteCount
    buffer := Function.update rb.buffer i ⟨{ msg with seqNum := seq }, seq⟩ }

/-- `push`: take the next sequence number and publish the message under it. -/
def push (rb : RingBuffer) (msg : Msg) : Int × RingBuffer :=
  (rb.writeSeq, publish C { rb with writeSeq := rb.writeSeq + 1 } rb.writeSeq msg)

/-- The loop of `pushBatch`: publish the messages under consecutive sequence numbers. -/
def publishFrom (rb : RingBuffer) (seq : Int) : List Msg → RingBuffer
  | [] => rb
  | m :: ms => publishFrom (publish C rb seq m) (seq + 1) ms

/-- `pushBatch`: reserve as many sequence numbers as messages with one `fetch_add`, then
publish each; an empty batch returns `INVALID_SEQ`. -/
def pushBatch (rb : RingBuffer) (msgs : List Msg) : Int × RingBuffer :=
  if msgs.isEmpty then (invalidSeq, rb)
  else (rb.writeSeq, publishFrom C { rb with writeSeq := rb.writeSeq + msgs.length } rb.writeSeq msgs)

/-- `readEx`: load the published sequence of the expected slot; on a match copy the
message and re-load (the seqlock check); a later sequence means the reader was lapped. -/
def readEx (rb : RingBuffer) (expectedSeq : Int) : ReadResult :=
  if expectedSeq < 0 then ⟨.notReady, Msg.empty⟩
  else
    let slot := rb.buffer (slotIndex C expectedSeq)
    if slot.seq = expectedSeq then
      let localMsg := slot.msg
      if slot.seq = expectedSeq then ⟨.ok, localMsg⟩ else ⟨.overwritten, Msg.empty⟩
    else if slot.seq > expectedSeq then ⟨.overwritten, Msg.empty⟩
    else ⟨.notReady, Msg.empty⟩

/-- `getLatestSeq`: the last sequence number handed out. -/
def getLatestSeq (rb : RingBuffer) : Int := rb.writeSeq - 1

/-- `getOverwriteCount`. -/
def getOverwriteCount (rb : RingBuffer) : Int := rb.overwriteCount

/-- Pushing messages one at a time. -/
def pushAll (rb : RingBuffer) (ms : List Msg) : RingBuffer :=
  ms.foldl (fun rb m => (push C rb m).2) rb

@[simp] theorem pushAll_nil (rb : RingBuffer) : pushAll C rb [] = rb := rfl

@[simp] theorem pushAll_append (rb : RingBuffer) (ms ms' : List Msg) :
    pushAll C rb (ms ++ ms') = pushAll C (pushAll C rb ms) ms' := by
  simp [pushAll, List.foldl_append]

theorem pushAll_cons (rb : RingBuffer) (m : Msg) (ms : List Msg) :
    pushAll C rb (m :: ms) = pushAll C (push C rb m).2 ms := rfl

/-- Publishing never reads or writes the write cursor. -/
theorem publish_writeSeq (rb : RingBuffer) (w seq : Int) (m : Msg) :
    publish C { rb with writeSeq := w } seq m = { publish C rb seq m with writeSeq := w } := rfl

theorem publishFrom_writeSeq (rb : RingBuffer) (w seq : Int) (ms : List Msg) :
    publishFrom C { rb with writeSeq := w } seq ms =
      { publishFrom C rb seq ms with writeSeq := w } := by
  induction ms generalizing rb seq with
  | nil => rfl
  | cons m ms ih => exact ih (publish C rb seq m) (seq + 1)

theorem pushAll_eq_publishFrom (rb : RingBuffer) (ms : List Msg) :
    pushAll C rb ms =
      { publishFrom C rb rb.writeSeq ms with writeSeq := rb.writeSeq + ms.length } := by
  induction ms generalizing rb with
  | nil => simp [publishFrom]
  | cons m ms ih =>
    rw [pushAll_cons, ih, push, publish_writeSeq, publishFrom_writeSeq]
    simp only [publishFrom, List.length_cons]
    congr 1
    omega

/-- **A batch publishes exactly like that many single pushes.** -/
theorem pushBatch_snd (rb : RingBuffer) (ms : List Msg) :
    (pushBatch C rb ms).2 = pushAll C rb ms := by
  unfold pushBatch
  split
  · next h => simp [List.isEmpty_iff.mp h]
  · rw [publishFrom_writeSeq, pushAll_eq_publishFrom]

end RingBuffer

/-! ### The state after `W` pushes -/

/-- The last sequence number below `W` that lands in slot `i` of a ring of capacity `C`. -/
def lastInClass (C i : Nat) : Nat → Option Nat
  | 0 => none
  | W + 1 => if W % C = i then some W else lastInClass C i W

theorem lastInClass_eq_some {C i W s : Nat} :
    lastInClass C i W = some s ↔ s < W ∧ s % C = i ∧ ∀ t < W, t % C = i → t ≤ s := by
  induction W with
  | zero => simp [lastInClass]
  | succ W ih =>
    simp only [lastInClass]
    split
    · next h =>
      refine ⟨fun e => ?_, fun ⟨h1, h2, h3⟩ => ?_⟩
      · cases e
        exact ⟨by omega, h, fun t ht _ => by omega⟩
      · have := h3 W (by omega) h
        rw [Option.some.injEq]
        omega
    · next h =>
      rw [ih]
      refine ⟨fun ⟨h1, h2, h3⟩ => ⟨by omega, h2, fun t ht htc => ?_⟩,
        fun ⟨h1, h2, h3⟩ => ⟨?_, h2, fun t ht htc => h3 t (by omega) htc⟩⟩
      · rcases Nat.lt_succ_iff_lt_or_eq.mp ht with ht | rfl
        · exact h3 t ht htc
        · exact absurd htc h
      · rcases Nat.lt_succ_iff_lt_or_eq.mp h1 with h1 | rfl
        · exact h1
        · exact absurd h2 h

theorem lastInClass_eq_none {C i W : Nat} :
    lastInClass C i W = none ↔ ∀ t < W, t % C ≠ i := by
  induction W with
  | zero => simp [lastInClass]
  | succ W ih =>
    simp only [lastInClass]
    split
    · next h => exact ⟨nofun, fun h' => absurd h (h' W (by omega))⟩
    · next h =>
      rw [ih]
      refine ⟨fun h' t ht => ?_, fun h' t ht => h' t (by omega)⟩
      rcases Nat.lt_succ_iff_lt_or_eq.mp ht with ht | rfl
      · exact h' t ht
      · exact h

/-- Two sequence numbers of one slot are a whole number of laps apart. -/
theorem add_le_of_mod_eq {C s n : Nat} (h : s % C = n % C) (hlt : n < s) : n + C ≤ s := by
  have h0 := Nat.sub_mod_eq_zero_of_mod_eq h
  by_contra hc
  rw [Nat.mod_eq_of_lt (by omega)] at h0
  omega

/-- A sequence number within one lap of the push count is the last of its slot. -/
theorem lastInClass_self {C n W : Nat} (h1 : n < W) (h2 : W ≤ n + C) :
    lastInClass C (n % C) W = some n :=
  lastInClass_eq_some.mpr ⟨h1, rfl, fun t ht htc => by
    by_contra hc
    have := add_le_of_mod_eq htc (by omega)
    omega⟩

/-- The slot of a sequence number more than one lap behind holds a later one. -/
theorem lastInClass_lapped {C n W : Nat} (h : n + C < W) :
    ∃ s, lastInClass C (n % C) W = some s ∧ n + C ≤ s := by
  cases hl : lastInClass C (n % C) W with
  | none =>
    exact absurd (Nat.add_mod_right n C) (lastInClass_eq_none.mp hl (n + C) h)
  | some s => exact ⟨s, rfl, (lastInClass_eq_some.mp hl).2.2 _ h (Nat.add_mod_right n C)⟩

/-- Slot `i` is written once the push count passes `i` and a capacity is reached. -/
theorem lastInClass_mod_eq_none_iff {C W : Nat} (hC : 0 < C) :
    lastInClass C (W % C) W = none ↔ W < C := by
  rw [lastInClass_eq_none]
  refine ⟨fun h => ?_, fun h t ht => ?_⟩
  · by_contra hc
    exact h (W - C) (by omega) (Nat.mod_eq_sub_mod (by omega)).symm
  · rw [Nat.mod_eq_of_lt (by omega : t < C), Nat.mod_eq_of_lt h]
    omega

/-- The message published under sequence number `s` when `ms` are pushed in order: the
`s`-th of them with its sequence number patched to `s`. -/
def pushedMsg (ms : List Msg) (s : Nat) : Msg := { ms.getD s Msg.empty with seqNum := s }

theorem pushedMsg_append_of_lt {ms : List Msg} {s : Nat} (ms' : List Msg)
    (h : s < ms.length) : pushedMsg (ms ++ ms') s = pushedMsg ms s := by
  simp [pushedMsg, List.getElem?_append_left h]

@[simp] theorem pushedMsg_append_length (ms : List Msg) (m : Msg) :
    pushedMsg (ms ++ [m]) ms.length = { m with seqNum := ms.length } := by
  simp [pushedMsg, List.getElem?_append_right (Nat.le_refl _)]

@[simp] theorem pushedMsg_seqNum (ms : List Msg) (s : Nat) : (pushedMsg ms s).seqNum = s := rfl

/-- Slot `i` after pushing `ms`. -/
def slotOf (C : Capacity) (ms : List Msg) (i : Nat) : Slot :=
  match lastInClass C.val i ms.length with
  | none => Slot.empty
  | some s => ⟨pushedMsg ms s, s⟩

/-- The ring after pushing `ms` one at a time into a fresh ring. -/
def ringOf (C : Capacity) (ms : List Msg) : RingBuffer :=
  ⟨slotOf C ms, ms.length, ↑(ms.length - C.val)⟩

theorem slotOf_append (C : Capacity) (ms : List Msg) (m : Msg) (j : Nat) :
    slotOf C (ms ++ [m]) j =
      if ms.length % C.val = j then ⟨{ m with seqNum := ms.length }, ms.length⟩
      else slotOf C ms j := by
  simp only [slotOf, List.length_append, List.length_singleton, lastInClass]
  by_cases h : ms.length % C.val = j
  · simp [h]
  · simp only [h, if_false]
    cases hl : lastInClass C.val j ms.length with
    | none => rfl
    | some s => simp [pushedMsg_append_of_lt _ (lastInClass_eq_some.mp hl).1]

theorem slotOf_seq_eq_invalid (C : Capacity) (ms : List Msg) :
    (slotOf C ms (ms.length % C.val)).seq = invalidSeq ↔ ms.length < C.val := by
  rw [← lastInClass_mod_eq_none_iff C.pos]
  unfold slotOf
  split <;> simp_all [Slot.empty]

namespace RingBuffer

variable (C : Capacity)

/-- **One push** moves `ringOf C ms` to `ringOf C (ms ++ [m])`. -/
theorem push_ringOf (ms : List Msg) (m : Msg) :
    (push C (ringOf C ms) m).2 = ringOf C (ms ++ [m]) := by
  have hi : slotIndex C ms.length = ms.length % C.val := by simp [slotIndex_eq_mod]
  have hseq := slotOf_seq_eq_invalid C ms
  simp only [push, publish, ringOf, hi, RingBuffer.mk.injEq, List.length_append,
    List.length_singleton]
  refine ⟨funext fun j => ?_, by omega, ?_⟩
  · rw [slotOf_append, Function.update_apply]
    by_cases h : j = ms.length % C.val <;> simp [h, eq_comm]
  · split <;> simp_all <;> omega

@[simp] theorem ringOf_nil : ringOf C [] = init := by
  simp only [ringOf, init, mk.injEq, List.length_nil, Nat.zero_le, Nat.sub_eq_zero_of_le,
    Int.Nat.cast_ofNat_Int, and_true]
  rfl

theorem pushAll_ringOf (ms ms' : List Msg) : pushAll C (ringOf C ms) ms' = ringOf C (ms ++ ms') := by
  induction ms' generalizing ms with
  | nil => simp
  | cons m ms' ih => rw [pushAll_cons, push_ringOf, ih, List.append_assoc, List.singleton_append]

/-- **The ring after any pushes into a fresh ring.** -/
theorem pushAll_init (ms : List Msg) : pushAll C init ms = ringOf C ms := by
  rw [← ringOf_nil, pushAll_ringOf, List.nil_append]

/-- A read of a non-negative sequence number compares it with its slot's published one. -/
theorem readEx_ofNat (rb : RingBuffer) (n : Nat) :
    rb.readEx C n =
      if (rb.buffer (n % C.val)).seq = n then ⟨.ok, (rb.buffer (n % C.val)).msg⟩
      else if (rb.buffer (n % C.val)).seq > n then ⟨.overwritten, Msg.empty⟩
      else ⟨.notReady, Msg.empty⟩ := by
  simp only [readEx, slotIndex_eq_mod, Int.toNat_ofNat, Int.not_lt.mpr (Int.ofNat_zero_le n),
    if_false]
  split <;> simp_all

/-- **The outcome of a read**: not ready before the push count or for a negative sequence,
overwritten more than one lap behind it, and otherwise the message pushed under that
sequence number. -/
theorem readEx_ringOf (ms : List Msg) (e : Int) :
    (ringOf C ms).readEx C e =
      if e < 0 ∨ ms.length ≤ e then ⟨.notReady, Msg.empty⟩
      else if e + C.val < ms.length then ⟨.overwritten, Msg.empty⟩
      else ⟨.ok, pushedMsg ms e.toNat⟩ := by
  by_cases hneg : e < 0
  · simp [readEx, hneg]
  obtain ⟨n, rfl⟩ := Int.eq_ofNat_of_zero_le (by omega : 0 ≤ e)
  rw [readEx_ofNat]
  simp only [ringOf, Int.toNat_ofNat, hneg, false_or, Int.ofNat_le, ← Int.ofNat_add,
    Int.ofNat_lt]
  by_cases hW : ms.length ≤ n
  · have : (slotOf C ms (n % C.val)).seq < n := by
      unfold slotOf
      split
      · simp only [Slot.empty, invalidSeq_eq]; omega
      · next s hs => exact Int.ofNat_lt.mpr (by have := (lastInClass_eq_some.mp hs).1; omega)
    simp only [hW, if_true]
    rw [if_neg (by omega), if_neg (by omega)]
  by_cases hlap : n + C.val < ms.length
  · obtain ⟨s, hs, hle⟩ := lastInClass_lapped hlap
    have := C.pos
    simp only [slotOf, hs, hW, hlap, if_true, if_false]
    rw [if_neg (by omega), if_pos (by omega)]
  · have hl : lastInClass C.val (n % C.val) ms.length = some n :=
      lastInClass_self (by omega) (by omega)
    simp [slotOf, hl, hW, hlap]

/-! ### Sequences of producer calls -/

end RingBuffer

/-- One producer call. -/
inductive RingCall
  | push (msg : Msg)
  | pushBatch (msgs : List Msg)

/-- The messages a call pushes. -/
def RingCall.msgs : RingCall → List Msg
  | .push m => [m]
  | .pushBatch ms => ms

namespace RingBuffer

variable (C : Capacity)

/-- Make one call. -/
def call (rb : RingBuffer) : RingCall → Int × RingBuffer
  | .push m => push C rb m
  | .pushBatch ms => pushBatch C rb ms

/-- Make the calls one at a time, collecting what each returns. -/
def runCalls (rb : RingBuffer) : List RingCall → List Int × RingBuffer
  | [] => ([], rb)
  | c :: cs =>
    let r := call C rb c
    let rest := runCalls r.2 cs
    (r.1 :: rest.1, rest.2)

theorem call_snd (rb : RingBuffer) (c : RingCall) : (call C rb c).2 = pushAll C rb c.msgs := by
  cases c with
  | push m => rfl
  | pushBatch ms => exact pushBatch_snd C rb ms

theorem call_fst_ringOf (ms : List Msg) (c : RingCall) :
    (call C (ringOf C ms) c).1 = if c.msgs = [] then invalidSeq else ms.length := by
  cases c with
  | push m => simp [call, push, ringOf, RingCall.msgs]
  | pushBatch ms' =>
    simp only [call, pushBatch, RingCall.msgs, List.isEmpty_iff]
    split <;> simp_all [ringOf]

theorem runCalls_snd (rb : RingBuffer) (cs : List RingCall) :
    (runCalls C rb cs).2 = pushAll C rb (cs.flatMap RingCall.msgs) := by
  induction cs generalizing rb with
  | nil => rfl
  | cons c cs ih => simp [runCalls, ih, call_snd]

theorem runCalls_fst_ringOf (ms : List Msg) (pre post : List RingCall) (c : RingCall) :
    (runCalls C (ringOf C ms) (pre ++ c :: post)).1[pre.length]? =
      some (if c.msgs = [] then invalidSeq else (ms ++ pre.flatMap RingCall.msgs).length) := by
  induction pre generalizing ms with
  | nil => simp [runCalls, call_fst_ringOf]
  | cons c' pre ih =>
    simp only [List.cons_append, runCalls, List.length_cons, List.getElem?_cons_succ]
    rw [call_snd, pushAll_ringOf, List.append_eq, ih]
    simp

/-- **The ring after any sequence of producer calls** (`W` messages in all): the latest
sequence is `W - 1`; every call returns the sequence number of its first message (an empty
batch `INVALID_SEQ`); slot `i` is unpublished while no sequence below `W` lands in it, and
otherwise holds the last one that does, with its message; the overwrite count is
`max 0 (W - C)`; and a read of `e` is OK with the message pushed under `e` exactly on the
last lap, OVERWRITTEN below it, and NOT_READY outside `[0, W)`. -/
theorem runCalls_spec (cs : List RingCall) :
    let ms := cs.flatMap RingCall.msgs
    let W : Int := ms.length
    let rb := (runCalls C init cs).2
    rb.getLatestSeq = W - 1 ∧
    (∀ pre c post, cs = pre ++ c :: post →
      (runCalls C init cs).1[pre.length]? =
        some (if c.msgs = [] then invalidSeq else (pre.flatMap RingCall.msgs).length)) ∧
    (∀ i < C.val,
      ((rb.buffer i).seq = invalidSeq ∧ ∀ s < ms.length, s % C.val ≠ i) ∨
      ∃ s < ms.length, s % C.val = i ∧ (∀ t < ms.length, t % C.val = i → t ≤ s) ∧
        rb.buffer i = ⟨pushedMsg ms s, s⟩) ∧
    rb.getOverwriteCount = max 0 (W - C.val) ∧
    ∀ e : Int,
      (rb.readEx C e = ⟨.ok, pushedMsg ms e.toNat⟩ ↔ max 0 (W - C.val) ≤ e ∧ e < W) ∧
      ((rb.readEx C e).status = .overwritten ↔ 0 ≤ e ∧ e < W - C.val) ∧
      ((rb.readEx C e).status = .notReady ↔ e < 0 ∨ W ≤ e) := by
  intro ms W rb
  have hrb : rb = ringOf C ms := by simp only [rb, runCalls_snd, pushAll_init]
  refine ⟨by simp [hrb, getLatestSeq, ringOf, W], ?_, fun i _ => ?_, ?_, fun e => ?_⟩
  · rintro pre c post rfl
    simpa using runCalls_fst_ringOf C [] pre post c
  · rw [hrb]
    simp only [ringOf, slotOf]
    cases hl : lastInClass C.val i ms.length with
    | none => exact .inl ⟨rfl, lastInClass_eq_none.mp hl⟩
    | some s =>
      obtain ⟨h1, h2, h3⟩ := lastInClass_eq_some.mp hl
      exact .inr ⟨s, h1, h2, h3, rfl⟩
  · simp only [hrb, getOverwriteCount, ringOf, W]
    omega
  · have := C.pos
    rw [hrb, readEx_ringOf]
    split_ifs <;> simp <;> omega

end RingBuffer
end Replay
