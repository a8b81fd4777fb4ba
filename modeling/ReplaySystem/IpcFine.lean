import ReplaySystem.Ipc

/-!
# The multiprocess solution at the granularity of loads and stores

`ReplaySystem.Ipc` takes each `SharedRingBuffer::push` and each `read` as one atomic step.
Here the server and the two reader processes are interleaved at the granularity of their
accesses to the shared segment, as the source writes them:

* `push`: the `fetch_add` on `write_seq`; the stores `slot.msg = msg; slot.msg.seq_num = seq`;
  the release store of `slot.seq`, with the `fetch_add` on `total_messages`, which no reader
  loads;
* a reader's loop: the load of `slot.seq` in `read`; when it equals `read_seq`, the copy of
  `slot.msg`; otherwise the load of `server_running` and, when it is clear, the load of
  `write_seq` in `getLatestSeq`.

A reader's own variables, its `g_stop_requested` and its log file are its process's alone,
so its work between two loads is part of the step that follows the first.

`read` compares `slot.seq` with `read_seq` once, before its copy, and not after.  A copy that
overlaps the server's stores into the same slot is a data race: the model lets it return any
message.  A reader whose copy the server overtakes, by starting the push one lap later into
the slot the reader has checked, takes a message of that later lap.  `NoLap` says that no
copy is overtaken: every reader about to copy is less than a ring behind the `fetch_add`s.

The processes start once the server's `init` has run, before any reader polls.  Memory
orders are not modelled: each load and store is one step of one interleaving.

## Main definitions

* `FinePc`, `FineServer` — the server process, `push` split at its three accesses.
* `FineReaderPc`, `FineReader` — a reader process, its loop split at each shared access.
* `FineSys`, `FineSys.step`, `FineSys.NoLap` — the three processes and their signals; no
  copy overtaken.

## Main results

* `FineSys.created_step_started` — the start of every run is the state `init` leads to.
* `FineSys.reachable_inv` — the invariant of the three processes, in every interleaving.
* `FineSys.reader_reads_published_prefix` — while no copy is overtaken, each reader reads a
  prefix of what the server published; with `--messages` at most a ring, always.
* `FineSys.overtaken_copy_reads_later_lap` — a copy the server overtakes takes the message
  of a later lap in the reader's place.
* `FineSys.lapped_reader_stuck` — a reader whose slot was republished a lap later never
  reads again.
* `FineSys.pipeline_complete` — a run to the end delivers every message to both readers and
  to a complete log.
-/

namespace Replay

namespace Ipc

/-! ### The accesses to one slot -/

/-- Slot `n mod C` holds sequence `n` exactly while `n` is among the last lap of the pushes. -/
theorem slotOf_seq_eq_iff (C : Capacity) (ms : List Msg) (n : Nat) :
    (slotOf C ms (n % C.val)).seq = n ↔ n < ms.length ∧ ms.length ≤ n + C.val := by
  by_cases h : n < ms.length ∧ ms.length ≤ n + C.val
  · simp [slotOf, lastInClass_self h.1 h.2, h]
  · simp only [h, iff_false]
    unfold slotOf
    split
    · simp only [Slot.empty, invalidSeq_eq]; omega
    · next s hs =>
      obtain ⟨hs1, hs2, hs3⟩ := lastInClass_eq_some.mp hs
      intro hsn
      have hsn' : s = n := Int.ofNat_inj.mp hsn
      subst hsn'
      have := C.pos
      have := hs3 (s + C.val) (by omega) (by simp [hs2])
      omega

/-- Within the last lap, slot `n mod C` holds the message pushed under `n`. -/
theorem slotOf_of_lastLap {C : Capacity} {ms : List Msg} {n : Nat} (h1 : n < ms.length)
    (h2 : ms.length ≤ n + C.val) : slotOf C ms (n % C.val) = ⟨pushedMsg ms n, n⟩ := by
  simp [slotOf, lastInClass_self h1 h2]

namespace SharedRingBuffer

/-- `read`'s test and its load of `slot.seq`: `expected_seq` is not negative and its slot
publishes it. -/
def seqMatches (b : SharedRingBuffer) (expectedSeq : Int) : Bool :=
  decide (0 ≤ expectedSeq) &&
    decide ((b.slots (expectedSeq.toNat % shmRingBufferSize)).seq = expectedSeq)

/-- `read` is its load of `slot.seq` followed, on a match, by its copy of `slot.msg`. -/
theorem read_eq_seqMatches (b : SharedRingBuffer) (e : Int) :
    b.read e = if b.seqMatches e then some (b.slots (e.toNat % shmRingBufferSize)).msg
      else none := by
  unfold read seqMatches
  by_cases h : e < 0
  · simp [h, Int.not_le.mpr h]
  · simp only [h, if_false, Int.not_lt.mp h, decide_True, Bool.true_and, decide_eq_true_eq]

/-- `slot.msg = msg; slot.msg.seq_num = seq`: the slot of `seq` gets the message. -/
def storeMsg (b : SharedRingBuffer) (seq : Int) (msg : Msg) : SharedRingBuffer :=
  let i := seq.toNat % shmRingBufferSize
  { b with slots := Function.update b.slots i { b.slots i with msg := msg } }

/-- `slot.seq.store(seq, std::memory_order_release)`. -/
def publish (b : SharedRingBuffer) (seq : Int) : SharedRingBuffer :=
  let i := seq.toNat % shmRingBufferSize
  { b with slots := Function.update b.slots i { b.slots i with seq := seq } }

/-- The `fetch_add`, the stores and the release store, with nothing between them, are the
atomic model's `push`. -/
theorem push_eq_split (b : SharedRingBuffer) (msg : Msg) :
    (b.push msg).2 = ({ b with writeSeq := b.writeSeq + 1 }.storeMsg b.writeSeq
      { msg with seqNum := b.writeSeq }).publish b.writeSeq := by
  simp only [push, storeMsg, publish, SharedRingBuffer.mk.injEq, true_and]
  funext j
  by_cases hj : j = b.writeSeq.toNat % shmRingBufferSize <;> simp [Function.update_apply, hj]

end SharedRingBuffer

/-! ### The server process -/

/-- Where the server process is, with `push` split at its accesses to the segment. -/
inductive FinePc
  /-- The segment is created and zero-filled; `init` is next. -/
  | creating
  /-- The loop head `i < message_count && !g_stop_requested`, for message `i`. -/
  | loop (i : Int)
  /-- The loop condition held: message `i` is generated, and `push`'s `fetch_add` is next. -/
  | pushing (i : Int)
  /-- The `fetch_add` returned `seq`: the stores of `msg` into the slot of `seq` are next. -/
  | storing (i seq : Int) (msg : Msg)
  /-- The slot of `seq` holds `msg`: the release store of `slot.seq` is next. -/
  | publishing (i seq : Int) (msg : Msg)
  /-- The loop is over: `cleanupSharedMemory` is next. -/
  | done
  /-- `cleanupSharedMemory` has cleared `server_running`, and `main` has returned. -/
  | exited
  /-- An integer division by zero has killed the process. -/
  | divByZero
  deriving DecidableEq, Repr

namespace FinePc

/-- The loop's `i`, where the server is in the loop. -/
def index : FinePc → Option Int
  | .loop i | .pushing i | .storing i _ _ | .publishing i _ _ => some i
  | _ => none

/-- The sequence number of the push under way between its `fetch_add` and its release
store. -/
def inFlight : FinePc → Option Int
  | .storing _ seq _ | .publishing _ seq _ => some seq
  | _ => none

end FinePc

/-- The server process and its segment: the segment, where the server is, its
`g_stop_requested`, and the messages whose push has published them, as it generated them (a
history kept for the proofs). -/
structure FineServer where
  ring : SharedRingBuffer
  pc : FinePc
  stopRequested : Bool
  produced : List Msg

namespace FineServer

/-- The segment just created and zero-filled, before `init`. -/
def created : FineServer := ⟨SharedRingBuffer.zeroed, .creating, false, []⟩

/-- The messages as the server published them, under sequence numbers `0, 1, …`. -/
def published (v : FineServer) : List Msg :=
  (List.range v.produced.length).map (pushedMsg v.produced)

/-- What a reader's copy of the slot of `e` returns: the slot's message, or any message
`torn` while the server stores into that slot. -/
def copy (v : FineServer) (e : Int) (torn : Msg) : Msg :=
  match v.pc with
  | .storing _ seq _ =>
    if seq.toNat % shmRingBufferSize = e.toNat % shmRingBufferSize then torn
    else (v.ring.slots (e.toNat % shmRingBufferSize)).msg
  | _ => (v.ring.slots (e.toNat % shmRingBufferSize)).msg

section Model

variable (messageCount messageRate : Int)

/-- The server's step: `init` and the rate's division; the loop check; `push`'s
`fetch_add`, its stores, and its release store with the progress check; the clean-up. -/
def step (v : FineServer) (timestampNs : Int) (payload : UInt64) : Option FineServer :=
  match v.pc with
  | .creating =>
    some { v with ring := v.ring.init, pc := if messageRate = 0 then .divByZero else .loop 0 }
  | .loop i =>
    some { v with pc := if i < messageCount ∧ v.stopRequested = false then .pushing i else .done }
  | .pushing i =>
    some { v with
      ring := { v.ring with writeSeq := v.ring.writeSeq + 1 },
      pc := .storing i v.ring.writeSeq ⟨invalidSeq, timestampNs, payload⟩ }
  | .storing i seq msg =>
    some { v with ring := v.ring.storeMsg seq { msg with seqNum := seq }, pc := .publishing i seq msg }
  | .publishing i seq msg =>
    some { v with
      ring := { v.ring.publish seq with totalMessages := v.ring.totalMessages + 1 },
      produced := v.produced ++ [msg],
      pc := if messageCount / 10 = 0 then .divByZero else .loop (i + 1) }
  | .done => some { v with ring := { v.ring with serverRunning := false }, pc := .exited }
  | .exited | .divByZero => none

end Model

/-- The signal handler: set `g_stop_requested`, and clear `server_running`. -/
def signal (v : FineServer) : Option FineServer :=
  match v.pc with
  | .exited | .divByZero => none
  | _ => some { v with stopRequested := true, ring := { v.ring with serverRunning := false } }

/-- The invariant of the server and the segment once `init` has run: `write_seq` counts the
published pushes and the one under way; every slot publishes the sequence number it would
after the published pushes, and holds that push's message unless the push under way has
stored a new one into it. -/
structure Inv (messageCount : Int) (v : FineServer) : Prop where
  initialised : v.pc ≠ .creating
  idle : v.pc.inFlight = none → v.ring.writeSeq = v.produced.length
  flight : ∀ seq, v.pc.inFlight = some seq → seq = v.produced.length ∧ v.ring.writeSeq = seq + 1
  seqs : ∀ j, (v.ring.slots j).seq = (slotOf shmCapacity v.produced j).seq
  msgs : ∀ j, (slotOf shmCapacity v.produced j).seq ≠ invalidSeq →
    (∀ i seq m, v.pc = .publishing i seq m → seq.toNat % shmRingBufferSize ≠ j) →
    (v.ring.slots j).msg = (slotOf shmCapacity v.produced j).msg
  publishing : ∀ i seq m, v.pc = .publishing i seq m →
    (v.ring.slots (seq.toNat % shmRingBufferSize)).msg = { m with seqNum := seq }
  stopped : v.ring.serverRunning = false → v.pc = .exited ∨ v.stopRequested = true
  exited : v.pc = .exited → v.ring.serverRunning = false
  counter : ∀ i, v.pc.index = some i → i = v.produced.length
  pushing : ∀ i, v.pc.index = some i → v.pc ≠ .loop i → i < messageCount
  le : (v.produced.length : Int) ≤ max messageCount 0
  finished : v.pc = .done ∨ v.pc = .exited → v.stopRequested = false →
    (v.produced.length : Int) = max messageCount 0

section Steps

variable {messageCount messageRate : Int} {v v' : FineServer}

/-- **Everything one step of the server can do.** -/
theorem step_cases {t : Int} {p : UInt64} (h : v.step messageCount messageRate t p = some v') :
    (v.pc = .creating ∧
      v' = { v with ring := v.ring.init, pc := if messageRate = 0 then .divByZero else .loop 0 }) ∨
    (∃ i, v.pc = .loop i ∧ v' = { v with
      pc := if i < messageCount ∧ v.stopRequested = false then .pushing i else .done }) ∨
    (∃ i, v.pc = .pushing i ∧ v' = { v with
      ring := { v.ring with writeSeq := v.ring.writeSeq + 1 },
      pc := .storing i v.ring.writeSeq ⟨invalidSeq, t, p⟩ }) ∨
    (∃ i seq m, v.pc = .storing i seq m ∧ v' = { v with
      ring := v.ring.storeMsg seq { m with seqNum := seq }, pc := .publishing i seq m }) ∨
    (∃ i seq m, v.pc = .publishing i seq m ∧ v' = { v with
      ring := { v.ring.publish seq with totalMessages := v.ring.totalMessages + 1 },
      produced := v.produced ++ [m],
      pc := if messageCount / 10 = 0 then .divByZero else .loop (i + 1) }) ∨
    (v.pc = .done ∧
      v' = { v with ring := { v.ring with serverRunning := false }, pc := .exited }) := by
  unfold step at h
  split at h
  · exact .inl ⟨‹_›, (Option.some.inj h).symm⟩
  · exact .inr (.inl ⟨_, ‹_›, (Option.some.inj h).symm⟩)
  · exact .inr (.inr (.inl ⟨_, ‹_›, (Option.some.inj h).symm⟩))
  · exact .inr (.inr (.inr (.inl ⟨_, _, _, ‹_›, (Option.some.inj h).symm⟩)))
  · exact .inr (.inr (.inr (.inr (.inl ⟨_, _, _, ‹_›, (Option.some.inj h).symm⟩))))
  · exact .inr (.inr (.inr (.inr (.inr ⟨‹_›, (Option.some.inj h).symm⟩))))
  · cases h
  · cases h

theorem signal_eq (h : v.signal = some v') :
    v.pc ≠ .exited ∧ v.pc ≠ .divByZero ∧
      v' = { v with stopRequested := true, ring := { v.ring with serverRunning := false } } := by
  unfold signal at h
  split at h
  · cases h
  · cases h
  · next h1 h2 => exact ⟨h1, h2, (Option.some.inj h).symm⟩

/-- A step of the server only appends to its published pushes, keeps its stop request, and
after `init` never sets `server_running` again. -/
theorem step_frame (hi : v.pc ≠ .creating) {t : Int} {p : UInt64}
    (h : v.step messageCount messageRate t p = some v') :
    (∃ ext, v'.produced = v.produced ++ ext) ∧ v'.stopRequested = v.stopRequested ∧
      (v.ring.serverRunning = false → v'.ring.serverRunning = false) := by
  rcases step_cases h with ⟨hc, -⟩ | ⟨-, -, rfl⟩ | ⟨-, -, rfl⟩ | ⟨-, -, -, -, rfl⟩ |
    ⟨-, -, -, -, rfl⟩ | ⟨-, rfl⟩
  · exact absurd hc hi
  · exact ⟨⟨[], by simp⟩, rfl, id⟩
  · exact ⟨⟨[], by simp⟩, rfl, id⟩
  · exact ⟨⟨[], by simp⟩, rfl, id⟩
  · exact ⟨⟨_, rfl⟩, rfl, id⟩
  · exact ⟨⟨[], by simp⟩, rfl, fun _ => rfl⟩

/-- The `fetch_add` keeps the invariant: the push is under way. -/
theorem Inv.fetchAdd (h : v.Inv messageCount) {i : Int} (hc : v.pc = .pushing i) (t : Int)
    (p : UInt64) :
    Inv messageCount { v with
      ring := { v.ring with writeSeq := v.ring.writeSeq + 1 },
      pc := .storing i v.ring.writeSeq ⟨invalidSeq, t, p⟩ } := by
  have hw := h.idle (by simp [hc, FinePc.inFlight])
  refine ⟨by simp, by simp [FinePc.inFlight], fun seq hs => ?_, h.seqs,
    fun j hj _ => h.msgs j hj (by simp [hc]), by simp, fun hr => ?_, by simp, fun j hj => ?_,
    fun j hj _ => ?_, h.le, by simp⟩
  · simp only [FinePc.inFlight, Option.some.injEq] at hs
    subst hs
    exact ⟨hw, rfl⟩
  · exact (h.stopped hr).imp (fun hx => absurd (hc.symm.trans hx) (by simp)) id
  · simp only [FinePc.index, Option.some.injEq] at hj
    subst hj
    exact h.counter i (by simp [hc, FinePc.index])
  · simp only [FinePc.index, Option.some.injEq] at hj
    subst hj
    exact h.pushing i (by simp [hc, FinePc.index]) (by simp [hc])

/-- The stores keep the invariant: the slot of the push holds its message, still unpublished. -/
theorem Inv.store (h : v.Inv messageCount) {i seq : Int} {m : Msg}
    (hc : v.pc = .storing i seq m) :
    Inv messageCount { v with
      ring := v.ring.storeMsg seq { m with seqNum := seq }, pc := .publishing i seq m } := by
  obtain ⟨hseq, hw⟩ := h.flight seq (by simp [hc, FinePc.inFlight])
  refine ⟨by simp, by simp [FinePc.inFlight], fun s hs => ?_, fun j => ?_, fun j hj hp => ?_,
    fun i' s m' hp => ?_, fun hr => ?_, by simp, fun j hj => ?_, fun j hj hne => ?_, h.le,
    by simp⟩
  · simp only [FinePc.inFlight, Option.some.injEq] at hs
    subst hs
    exact ⟨hseq, hw⟩
  · simp only [SharedRingBuffer.storeMsg, Function.update_apply]
    split_ifs with hj
    · subst hj; exact h.seqs _
    · exact h.seqs j
  · have hj' := hp i seq m rfl
    simp only [SharedRingBuffer.storeMsg, Function.update_apply, if_neg (Ne.symm hj')]
    exact h.msgs j hj (by simp [hc])
  · cases hp
    simp [SharedRingBuffer.storeMsg]
  · exact (h.stopped hr).imp (fun hx => absurd (hc.symm.trans hx) (by simp)) id
  · simp only [FinePc.index, Option.some.injEq] at hj
    subst hj
    exact h.counter _ (by simp [hc, FinePc.index])
  · simp only [FinePc.index, Option.some.injEq] at hj
    subst hj
    exact h.pushing _ (by simp [hc, FinePc.index]) (by simp [hc])

/-- The release store keeps the invariant: the push is published. -/
theorem Inv.publish (h : v.Inv messageCount) {i seq : Int} {m : Msg}
    (hc : v.pc = .publishing i seq m) :
    Inv messageCount { v with
      ring := { v.ring.publish seq with totalMessages := v.ring.totalMessages + 1 },
      produced := v.produced ++ [m],
      pc := if messageCount / 10 = 0 then .divByZero else .loop (i + 1) } := by
  obtain ⟨hseq, hw⟩ := h.flight seq (by simp [hc, FinePc.inFlight])
  have hi := h.counter i (by simp [hc, FinePc.index])
  have hlt := h.pushing i (by simp [hc, FinePc.index]) (by simp [hc])
  have hidx : seq.toNat % shmRingBufferSize = v.produced.length % shmCapacity.val := by
    simp [hseq]
  have hslot : ∀ j, slotOf shmCapacity (v.produced ++ [m]) j =
      if seq.toNat % shmRingBufferSize = j then ⟨{ m with seqNum := v.produced.length },
        v.produced.length⟩ else slotOf shmCapacity v.produced j := fun j => by
    rw [slotOf_append, hidx]
  have hpc : (if messageCount / 10 = 0 then FinePc.divByZero else .loop (i + 1)).inFlight = none := by
    split <;> rfl
  refine ⟨by split <;> simp, fun _ => ?_, fun s hs => (by rw [hpc] at hs; cases hs), fun j => ?_,
    fun j hj _ => ?_, fun i' s m' hp => (by split at hp <;> cases hp), fun hr => ?_, fun hx => ?_,
    fun j hj => ?_, fun j hj hne => ?_, ?_, fun hx => ?_⟩
  · simp [SharedRingBuffer.publish, hw, hseq]
  · simp only [SharedRingBuffer.publish, Function.update_apply, hslot]
    split_ifs with h1 h2 h2
    · simp [hseq]
    · exact absurd h1.symm h2
    · exact absurd h2.symm h1
    · exact h.seqs j
  · by_cases h1 : j = seq.toNat % shmRingBufferSize
    · subst h1
      simp only [SharedRingBuffer.publish, Function.update_apply, if_true, hslot]
      rw [h.publishing i seq m hc, hseq]
    · have h1' : ¬seq.toNat % shmRingBufferSize = j := Ne.symm h1
      simp only [SharedRingBuffer.publish, Function.update_apply, h1, if_false, hslot, h1'] at hj ⊢
      exact h.msgs j hj fun i' s m' hp => by cases hc.symm.trans hp; exact h1'
  · exact (h.stopped hr).imp (fun hx => absurd (hc.symm.trans hx) (by simp)) id
  · split at hx <;> cases hx
  · split at hj
    · cases hj
    · simp only [FinePc.index, Option.some.injEq] at hj
      simp [← hj, hi]
  · split at hj
    · cases hj
    · rename_i hz
      simp only [FinePc.index, Option.some.injEq] at hj
      simp [hz, hj] at hne
  · simp only [List.length_append, List.length_singleton, Nat.cast_add, Nat.cast_one]
    omega
  · rcases hx with hx | hx <;> split at hx <;> cases hx

/-- **Every step of the server keeps its invariant.** -/
theorem Inv.step (h : v.Inv messageCount) {t : Int} {p : UInt64}
    (hs : v.step messageCount messageRate t p = some v') : Inv messageCount v' := by
  rcases step_cases hs with ⟨hc, -⟩ | ⟨i, hc, rfl⟩ | ⟨i, hc, rfl⟩ | ⟨i, seq, m, hc, rfl⟩ |
    ⟨i, seq, m, hc, rfl⟩ | ⟨hc, rfl⟩
  · exact absurd hc h.initialised
  · have hi := h.counter i (by simp [hc, FinePc.index])
    have hst : v.ring.serverRunning = false → v.stopRequested = true := fun h' =>
      (h.stopped h').resolve_left (by simp [hc])
    by_cases hcond : i < messageCount ∧ v.stopRequested = false
    · rw [if_pos hcond]
      refine ⟨by simp, fun _ => h.idle (by simp [hc, FinePc.inFlight]), by simp [FinePc.inFlight],
        h.seqs, fun j hj _ => h.msgs j hj (by simp [hc]), by simp, fun h' => .inr (hst h'),
        by simp, fun j hj => ?_, fun j hj _ => ?_, h.le, by simp⟩
      · simp only [FinePc.index, Option.some.injEq] at hj; rw [← hj]; exact hi
      · simp only [FinePc.index, Option.some.injEq] at hj; rw [← hj]; exact hcond.1
    · rw [if_neg hcond]
      refine ⟨by simp, fun _ => h.idle (by simp [hc, FinePc.inFlight]), by simp [FinePc.inFlight],
        h.seqs, fun j hj _ => h.msgs j hj (by simp [hc]), by simp, fun h' => .inr (hst h'),
        by simp, by simp [FinePc.index], by simp [FinePc.index], h.le, fun _ hf => ?_⟩
      have := h.le
      have hf' : v.stopRequested = false := hf
      simp only [hf', and_true, not_lt] at hcond
      dsimp only
      omega
  · exact h.fetchAdd hc t p
  · exact h.store hc
  · exact h.publish hc
  · refine ⟨by simp, fun _ => h.idle (by simp [hc, FinePc.inFlight]), by simp [FinePc.inFlight],
      h.seqs, fun j hj _ => h.msgs j hj (by simp [hc]), by simp, fun _ => .inl rfl, fun _ => rfl,
      by simp [FinePc.index], by simp [FinePc.index], h.le, fun _ hf => h.finished (.inl hc) hf⟩

theorem Inv.signal (h : v.Inv messageCount) (hs : v.signal = some v') : Inv messageCount v' := by
  obtain ⟨h1, -, rfl⟩ := signal_eq hs
  exact ⟨h.initialised, h.idle, h.flight, h.seqs, h.msgs, h.publishing, fun _ => .inr rfl,
    fun hc => absurd hc h1, h.counter, h.pushing, h.le, fun _ hf => absurd hf (by simp)⟩

end Steps

/-! ### What a reader's accesses find -/

section Reads

variable {messageCount : Int} {v : FineServer}

/-- `write_seq` is at least the number of published pushes, and at most one more. -/
theorem Inv.writeSeq_ge (h : v.Inv messageCount) : (v.produced.length : Int) ≤ v.ring.writeSeq := by
  cases hf : v.pc.inFlight with
  | none => rw [h.idle hf]
  | some seq => obtain ⟨h1, h2⟩ := h.flight seq hf; omega

/-- **`read`'s load of `slot.seq` matches exactly the sequence numbers of the last lap of the
published pushes**, whatever push is under way. -/
theorem Inv.seqMatches_iff (h : v.Inv messageCount) (e : Int) :
    v.ring.seqMatches e = true ↔
      0 ≤ e ∧ e < v.produced.length ∧ v.produced.length ≤ e + shmRingBufferSize := by
  by_cases he : 0 ≤ e
  · obtain ⟨n, rfl⟩ := Int.eq_ofNat_of_zero_le he
    have key := slotOf_seq_eq_iff shmCapacity v.produced n
    rw [shmCapacity_val] at key
    simp only [SharedRingBuffer.seqMatches, Int.toNat_ofNat, h.seqs, key, decide_eq_true_eq,
      Bool.and_eq_true]
    omega
  · simp [SharedRingBuffer.seqMatches, he]

/-- **A copy that the server has not overtaken returns the message pushed under `e`**: when
`e` is published and `write_seq` is at most a ring ahead of it, the slot of `e` is neither
being stored into nor holds a later push. -/
theorem Inv.copy_eq (h : v.Inv messageCount) {e : Nat} (he : e < v.produced.length)
    (hw : v.ring.writeSeq ≤ e + shmRingBufferSize) (torn : Msg) :
    v.copy e torn = pushedMsg v.produced e := by
  have hge := h.writeSeq_ge
  have hslot := slotOf_of_lastLap (C := shmCapacity) he (by simp; omega)
  simp only [shmCapacity_val] at hslot
  have hother : ∀ seq, v.pc.inFlight = some seq →
      seq.toNat % shmRingBufferSize ≠ e % shmRingBufferSize :=
    fun seq hs hmod => by
      obtain ⟨h1, h2⟩ := h.flight seq hs
      have := add_le_of_mod_eq (C := shmRingBufferSize) (by rw [hmod]) (show e < seq.toNat by omega)
      omega
  have hmsg : (v.ring.slots (e % shmRingBufferSize)).msg = pushedMsg v.produced e := by
    rw [h.msgs _ (by rw [hslot]; simp) fun i seq m hp => hother seq (by simp [hp, FinePc.inFlight]),
      hslot]
  unfold copy
  split
  · next i seq m hp =>
    rw [if_neg (by simpa using hother seq (by simp [hp, FinePc.inFlight]))]
    simpa using hmsg
  · simpa using hmsg

end Reads

end FineServer

/-! ### The reader processes -/

/-- Where a reader process is in its loop. -/
inductive FineReaderPc
  /-- The loop head: `g_stop_requested`, then `read`'s load of `slot.seq`. -/
  | polling
  /-- `slot.seq` equals `read_seq`: `read`'s copy of `slot.msg` is next. -/
  | copying
  /-- `read` found nothing: the load of `server_running` is next. -/
  | checking
  /-- `server_running` was clear: the load of `write_seq` in `getLatestSeq` is next. -/
  | latest
  /-- Past the loop, and what follows it has run. -/
  | exited
  deriving DecidableEq, Repr

/-- Where a reader is with respect to its loop: inside it, or past it. -/
def FineReaderPc.toReaderPc : FineReaderPc → ReaderPc
  | .exited => .exited
  | _ => .polling

/-- A reader process: its variables, where it is, its `g_stop_requested`, and the messages
its copies have returned, in order (a history kept for the proofs). -/
structure FineReader (σ : Type) where
  st : σ
  pc : FineReaderPc
  stopRequested : Bool
  seen : List Msg

namespace FineReader

variable {σ : Type} (P : ReaderProg σ)

/-- A reader process that has just attached to the segment. -/
def attached (st : σ) : FineReader σ := ⟨st, .polling, false, []⟩

/-- One step of a reader on the segment `b`, a copy returning `copied`: at the loop head,
leave on a stop request or load `slot.seq`; copy the message and take it; load
`server_running`; load `write_seq`, and leave once `read_seq` is past the last push. -/
def step (b : SharedRingBuffer) (copied : Msg) (r : FineReader σ) : Option (FineReader σ) :=
  match r.pc with
  | .polling =>
    if r.stopRequested then some { r with st := P.finish r.st, pc := .exited }
    else if b.seqMatches (P.readSeq r.st) then some { r with pc := .copying }
    else some { r with st := P.idle r.st, pc := .checking }
  | .copying =>
    some { r with st := P.take r.st copied, pc := .polling, seen := r.seen ++ [copied] }
  | .checking => some { r with pc := if b.isServerRunning then .polling else .latest }
  | .latest =>
    if P.readSeq r.st > b.getLatestSeq then some { r with st := P.finish r.st, pc := .exited }
    else some { r with pc := .polling }
  | .exited => none

/-- The signal handler: set `g_stop_requested`. -/
def signal (r : FineReader σ) : Option (FineReader σ) :=
  match r.pc with
  | .exited => none
  | _ => some { r with stopRequested := true }

variable {P}

/-- **Everything one step of a reader can do.** -/
theorem step_cases {b : SharedRingBuffer} {copied : Msg} {r r' : FineReader σ}
    (h : r.step P b copied = some r') :
    (r.pc = .polling ∧ r.stopRequested = true ∧
      r' = { r with st := P.finish r.st, pc := .exited }) ∨
    (r.pc = .polling ∧ r.stopRequested = false ∧ b.seqMatches (P.readSeq r.st) = true ∧
      r' = { r with pc := .copying }) ∨
    (r.pc = .polling ∧ r.stopRequested = false ∧ b.seqMatches (P.readSeq r.st) = false ∧
      r' = { r with st := P.idle r.st, pc := .checking }) ∨
    (r.pc = .copying ∧
      r' = { r with st := P.take r.st copied, pc := .polling, seen := r.seen ++ [copied] }) ∨
    (r.pc = .checking ∧ b.serverRunning = true ∧ r' = { r with pc := .polling }) ∨
    (r.pc = .checking ∧ b.serverRunning = false ∧ r' = { r with pc := .latest }) ∨
    (r.pc = .latest ∧ b.writeSeq ≤ P.readSeq r.st ∧
      r' = { r with st := P.finish r.st, pc := .exited }) ∨
    (r.pc = .latest ∧ P.readSeq r.st < b.writeSeq ∧ r' = { r with pc := .polling }) := by
  unfold step at h
  split at h
  · next hpc =>
    split at h
    · exact .inl ⟨hpc, ‹_›, (Option.some.inj h).symm⟩
    · next hs =>
      simp only [Bool.not_eq_true] at hs
      split at h
      · exact .inr (.inl ⟨hpc, hs, ‹_›, (Option.some.inj h).symm⟩)
      · next hm =>
        exact .inr (.inr (.inl ⟨hpc, hs, by simpa using hm, (Option.some.inj h).symm⟩))
  · exact .inr (.inr (.inr (.inl ⟨‹_›, (Option.some.inj h).symm⟩)))
  · next hpc =>
    cases hr : b.serverRunning <;>
      simp only [SharedRingBuffer.isServerRunning, hr, Bool.false_eq_true, if_false,
        if_true] at h
    · exact .inr (.inr (.inr (.inr (.inr (.inl ⟨hpc, rfl, (Option.some.inj h).symm⟩)))))
    · exact .inr (.inr (.inr (.inr (.inl ⟨hpc, rfl, (Option.some.inj h).symm⟩))))
  · next hpc =>
    simp only [SharedRingBuffer.getLatestSeq] at h
    split at h
    · exact .inr (.inr (.inr (.inr (.inr (.inr (.inl ⟨hpc, by omega,
        (Option.some.inj h).symm⟩))))))
    · exact .inr (.inr (.inr (.inr (.inr (.inr (.inr ⟨hpc, by omega,
        (Option.some.inj h).symm⟩))))))
  · cases h

theorem signal_eq {r r' : FineReader σ} (h : r.signal = some r') :
    r.pc ≠ .exited ∧ r' = { r with stopRequested := true } := by
  unfold signal at h
  split at h
  · cases h
  · next hpc => exact ⟨hpc, (Option.some.inj h).symm⟩

/-- A property of a reader program that its loop keeps holds along the fine steps: the
loads only move the reader within its loop. -/
theorem keeps_step {A : σ → ReaderPc → List Msg → Prop} (hk : Reader.Keeps P A)
    {b : SharedRingBuffer} {copied : Msg} {r r' : FineReader σ} (h : r.step P b copied = some r')
    (ha : A r.st r.pc.toReaderPc r.seen) : A r'.st r'.pc.toReaderPc r'.seen := by
  rcases step_cases h with ⟨hpc, -, rfl⟩ | ⟨hpc, -, -, rfl⟩ | ⟨hpc, -, -, rfl⟩ | ⟨hpc, rfl⟩ |
    ⟨hpc, -, rfl⟩ | ⟨hpc, -, rfl⟩ | ⟨hpc, -, rfl⟩ | ⟨hpc, -, rfl⟩ <;>
    simp only [hpc, FineReaderPc.toReaderPc] at ha ⊢
  · exact hk.finish _ _ ha
  · exact ha
  · exact hk.idle _ _ ha
  · exact hk.take _ _ _ ha
  · exact ha
  · exact ha
  · exact hk.finish _ _ ha
  · exact ha

/-- What a reader's loads tell of the server: `read_seq` counts what it read; a reader about
to copy found its `read_seq` published; a reader about to load `write_seq` found
`server_running` clear; and a reader that left its loop by itself did so once the server no
longer ran and, if the server has no stop request, with every published push read. -/
structure Inv (P : ReaderProg σ) (v : FineServer) (R : FineReader σ) : Prop where
  readSeq : P.readSeq R.st = R.seen.length
  copying : R.pc = .copying → R.seen.length < v.produced.length
  latest : R.pc = .latest → v.ring.serverRunning = false
  exited : R.pc = .exited → R.stopRequested = true ∨
    (v.ring.serverRunning = false ∧ (v.stopRequested = false → v.produced.length ≤ R.seen.length))

section Steps

variable {messageCount messageRate : Int} {v : FineServer} {R R' : FineReader σ}

/-- **A reader's own step keeps what it knows of the server.** -/
theorem Inv.step (hv : v.Inv messageCount) (hr : Inv P v R) {torn : Msg}
    (hs : R.step P v.ring (v.copy (P.readSeq R.st) torn) = some R') : Inv P v R' := by
  rcases step_cases hs with ⟨-, hst, rfl⟩ | ⟨-, -, hm, rfl⟩ | ⟨-, -, -, rfl⟩ | ⟨-, rfl⟩ |
    ⟨-, -, rfl⟩ | ⟨-, hrun, rfl⟩ | ⟨hpc, hw, rfl⟩ | ⟨-, -, rfl⟩
  · exact ⟨by simp [P.readSeq_finish, hr.readSeq], nofun, nofun, fun _ => .inl hst⟩
  · refine ⟨hr.readSeq, fun _ => ?_, nofun, nofun⟩
    have := (hv.seqMatches_iff _).mp hm
    rw [hr.readSeq] at this
    exact_mod_cast this.2.1
  · exact ⟨by simp [P.readSeq_idle, hr.readSeq], nofun, nofun, nofun⟩
  · exact ⟨by simp [P.readSeq_take, hr.readSeq], nofun, nofun, nofun⟩
  · exact ⟨hr.readSeq, nofun, nofun, nofun⟩
  · exact ⟨hr.readSeq, nofun, fun _ => hrun, nofun⟩
  · refine ⟨by simp [P.readSeq_finish, hr.readSeq], nofun, nofun, fun _ => .inr ⟨hr.latest hpc, ?_⟩⟩
    have := hv.writeSeq_ge
    rw [hr.readSeq] at hw
    intro _
    exact_mod_cast this.trans hw
  · exact ⟨hr.readSeq, nofun, nofun, nofun⟩

theorem Inv.signal (hr : Inv P v R) (hs : R.signal = some R') : Inv P v R' := by
  obtain ⟨hpc, rfl⟩ := signal_eq hs
  exact ⟨hr.readSeq, hr.copying, hr.latest, fun hx => absurd hx hpc⟩

/-- The server's steps keep what a reader knows of it: it only publishes more, and once
`server_running` is clear without a stop request the server has returned. -/
theorem Inv.serverStep (hv : v.Inv messageCount) (hr : Inv P v R) {v' : FineServer} {t : Int}
    {p : UInt64} (hs : v.step messageCount messageRate t p = some v') : Inv P v' R := by
  obtain ⟨⟨ext, he⟩, hstop, hrun⟩ := FineServer.step_frame hv.initialised hs
  refine ⟨hr.readSeq, fun hc => ?_, fun hl => hrun (hr.latest hl), fun hx => ?_⟩
  · have := hr.copying hc
    rw [he, List.length_append]
    omega
  · rcases hr.exited hx with h1 | ⟨h1, h2⟩
    · exact .inl h1
    · refine .inr ⟨hrun h1, fun hs' => ?_⟩
      rw [hstop] at hs'
      have hx' := (hv.stopped h1).resolve_right (by simp [hs'])
      simp [FineServer.step, hx'] at hs

theorem Inv.serverSignal (hr : Inv P v R) {v' : FineServer} (hs : v.signal = some v') :
    Inv P v' R := by
  obtain ⟨-, -, rfl⟩ := FineServer.signal_eq hs
  exact ⟨hr.readSeq, hr.copying, fun _ => rfl, fun hx => (hr.exited hx).imp_right
    fun _ => ⟨rfl, fun h => absurd h (by simp)⟩⟩

/-- A reader that left its loop by itself, with a prefix of the published messages read,
read all of them if the server has no stop request. -/
theorem Inv.seen_eq_published (hr : Inv P v R) (hp : R.seen <+: v.published)
    (hx : R.pc = .exited) (hstop : R.stopRequested = false) (hvs : v.stopRequested = false) :
    R.seen = v.published := by
  rcases hr.exited hx with h1 | ⟨-, h2⟩
  · simp [hstop] at h1
  · exact hp.eq_of_length (le_antisymm hp.length_le (by simpa [FineServer.published] using h2 hvs))

end Steps

end FineReader

/-! ### Reading the published messages -/

/-- The messages published before more are published are a prefix of those published after. -/
theorem published_prefix (ms ext : List Msg) :
    (List.range ms.length).map (pushedMsg ms) <+:
      (List.range (ms ++ ext).length).map (pushedMsg (ms ++ ext)) := by
  rw [List.length_append, List.range_add, List.map_append]
  exact ⟨_, congrArg (· ++ _) (List.map_congr_left fun k hk =>
    (pushedMsg_append_of_lt ext (List.mem_range.mp hk)).symm)⟩

/-- A prefix of the published messages, extended by the next one published, is still one. -/
theorem prefix_published_snoc {ms seen : List Msg}
    (hp : seen <+: (List.range ms.length).map (pushedMsg ms)) (hlt : seen.length < ms.length) :
    seen ++ [pushedMsg ms seen.length] <+: (List.range ms.length).map (pushedMsg ms) := by
  rw [List.prefix_iff_eq_take] at hp ⊢
  rw [List.length_append, List.length_singleton, List.take_succ, ← hp]
  simp [hlt]

namespace FineServer

variable {messageCount : Int} {v : FineServer}

/-- Between pushes, a copy returns what the slot holds: the last push published into it. -/
theorem Inv.copy_of_idle (h : v.Inv messageCount) (hidle : v.pc.inFlight = none) (e : Nat)
    (hs : (slotOf shmCapacity v.produced (e % shmRingBufferSize)).seq ≠ invalidSeq)
    (torn : Msg) : v.copy e torn = (slotOf shmCapacity v.produced (e % shmRingBufferSize)).msg := by
  have hmsg := h.msgs _ hs fun i seq m hp => by simp [hp, FinePc.inFlight] at hidle
  unfold copy
  split
  · next i seq m hp => simp [hp, FinePc.inFlight] at hidle
  · simpa using hmsg

/-- `write_seq` never passes `max(--messages, 0)`: a push is under way only below the count. -/
theorem Inv.writeSeq_le (h : v.Inv messageCount) : v.ring.writeSeq ≤ max messageCount 0 := by
  have hle := h.le
  cases hf : v.pc.inFlight with
  | none => rw [h.idle hf]; exact hle
  | some seq =>
    obtain ⟨h1, h2⟩ := h.flight seq hf
    obtain ⟨i, hi, hne⟩ : ∃ i, v.pc.index = some i ∧ v.pc ≠ .loop i := by
      cases hpc : v.pc <;> simp_all [FinePc.inFlight, FinePc.index]
    have := h.pushing i hi hne
    have := h.counter i hi
    omega

end FineServer

namespace FineReader

variable {σ : Type} {P : ReaderProg σ} {messageCount : Int} {v : FineServer} {R R' : FineReader σ}

/-- **A copy that is not overtaken extends what a reader read by the next published
message.** -/
theorem seen_step (hv : v.Inv messageCount) (hr : Inv P v R)
    (hn : R.pc = .copying → v.ring.writeSeq ≤ P.readSeq R.st + shmRingBufferSize)
    (hp : R.seen <+: v.published) {torn : Msg}
    (hs : R.step P v.ring (v.copy (P.readSeq R.st) torn) = some R') : R'.seen <+: v.published := by
  rcases step_cases hs with ⟨-, -, rfl⟩ | ⟨-, -, -, rfl⟩ | ⟨-, -, -, rfl⟩ | ⟨hpc, rfl⟩ |
    ⟨-, -, rfl⟩ | ⟨-, -, rfl⟩ | ⟨-, -, rfl⟩ | ⟨-, -, rfl⟩
  all_goals try exact hp
  have hlt := hr.copying hpc
  have hw := hn hpc
  rw [hr.readSeq] at hw ⊢
  rw [hv.copy_eq hlt hw torn]
  exact prefix_published_snoc hp hlt

/-- **A reader whose slot was republished a lap later is stuck**: its load of `slot.seq` never
matches again and its load of `write_seq` never lets it leave, so a step moves it only around
its loop, or out of it on a stop request. -/
theorem step_lapped (hv : v.Inv messageCount)
    (hl : P.readSeq R.st + shmRingBufferSize < v.produced.length) (hpc : R.pc ≠ .copying)
    {copied : Msg} (hs : R.step P v.ring copied = some R') :
    R'.seen = R.seen ∧ P.readSeq R'.st = P.readSeq R.st ∧ R'.pc ≠ .copying ∧
      (R'.pc = .exited → R'.stopRequested = true) := by
  rcases step_cases hs with ⟨-, hst, rfl⟩ | ⟨-, -, hm, rfl⟩ | ⟨-, -, -, rfl⟩ | ⟨hc, rfl⟩ |
    ⟨-, -, rfl⟩ | ⟨-, -, rfl⟩ | ⟨-, hw, rfl⟩ | ⟨-, -, rfl⟩
  · exact ⟨rfl, P.readSeq_finish _, nofun, fun _ => hst⟩
  · have := (hv.seqMatches_iff _).mp hm
    omega
  · exact ⟨rfl, P.readSeq_idle _, nofun, nofun⟩
  · exact absurd hc hpc
  · exact ⟨rfl, rfl, nofun, nofun⟩
  · exact ⟨rfl, rfl, nofun, nofun⟩
  · have := hv.writeSeq_ge
    omega
  · exact ⟨rfl, rfl, nofun, nofun⟩

/-- A lapped reader stays where it is under anything that can happen to it: a step of its
own, its signal, or a step of another process. -/
theorem lapped_moves (hv : v.Inv messageCount)
    (hl : P.readSeq R.st + shmRingBufferSize < v.produced.length) (hpc : R.pc ≠ .copying)
    (hx : R.pc = .exited → R.stopRequested = true)
    (hm : R' = R ∨ (∃ copied, R.step P v.ring copied = some R') ∨ R.signal = some R') :
    R'.seen = R.seen ∧ P.readSeq R'.st = P.readSeq R.st ∧ R'.pc ≠ .copying ∧
      (R'.pc = .exited → R'.stopRequested = true) := by
  rcases hm with rfl | ⟨_, hm⟩ | hm
  · exact ⟨rfl, rfl, hpc, hx⟩
  · exact step_lapped hv hl hpc hm
  · obtain ⟨-, rfl⟩ := signal_eq hm
    exact ⟨rfl, rfl, hpc, fun _ => rfl⟩

theorem step_copying {b : SharedRingBuffer} {copied : Msg} (hpc : R.pc = .copying) :
    R.step P b copied =
      some { R with st := P.take R.st copied, pc := .polling, seen := R.seen ++ [copied] } := by
  simp [step, hpc]

theorem step_match {b : SharedRingBuffer} {copied : Msg} (hpc : R.pc = .polling)
    (hst : R.stopRequested = false) (hm : b.seqMatches (P.readSeq R.st) = true) :
    R.step P b copied = some { R with pc := .copying } := by
  simp [step, hpc, hst, hm]

end FineReader

/-! ### The three processes -/

/-- The server with its segment, the recorder and the client. -/
structure FineSys where
  server : FineServer
  recorder : FineReader IpcRecorder
  client : FineReader IpcClient

/-- What can happen next. -/
inductive FineEvent
  /-- The server takes a step; a push sends a message with this timestamp and payload. -/
  | server (timestampNs : Int) (payload : UInt64)
  /-- `SIGINT` or `SIGTERM` reaches the server. -/
  | serverSignal
  /-- The recorder takes a step; a copy of a slot being stored into returns `torn`. -/
  | recorder (torn : Msg)
  /-- A signal reaches the recorder. -/
  | recorderSignal
  /-- The client takes a step; a copy of a slot being stored into returns `torn`. -/
  | client (torn : Msg)
  /-- A signal reaches the client. -/
  | clientSignal
  deriving DecidableEq, Repr

/-- A step of the reader. -/
def Role.fineEvent (torn : Msg) : Role → FineEvent
  | .recorder => .recorder torn
  | .client => .client torn

namespace FineSys

/-- What the reader has read. -/
def seen (s : FineSys) : Role → List Msg
  | .recorder => s.recorder.seen
  | .client => s.client.seen

/-- The reader's `read_seq`. -/
def readSeq (s : FineSys) : Role → Int
  | .recorder => s.recorder.st.readSeq
  | .client => s.client.st.readSeq

/-- Where the reader is. -/
def readerPc (s : FineSys) : Role → FineReaderPc
  | .recorder => s.recorder.pc
  | .client => s.client.pc

/-- The reader's `g_stop_requested`. -/
def readerStop (s : FineSys) : Role → Bool
  | .recorder => s.recorder.stopRequested
  | .client => s.client.stopRequested

/-- The segment just created and zero-filled, before `init`, with both readers attached
at sequence 0. -/
def created : FineSys :=
  ⟨FineServer.created, FineReader.attached IpcRecorder.start, FineReader.attached IpcClient.start⟩

/-- The state after `init`, where every run starts: the readers have not polled yet. -/
def started : FineSys :=
  { created with server := ⟨SharedRingBuffer.zeroed.init, .loop 0, false, []⟩ }

section Model

variable (dbl : DoubleArith) (messageCount messageRate : Int)

/-- One event; `none` when it cannot happen. -/
def step (s : FineSys) : FineEvent → Option FineSys
  | .server t p => (s.server.step messageCount messageRate t p).map fun v => { s with server := v }
  | .serverSignal => s.server.signal.map fun v => { s with server := v }
  | .recorder torn =>
    (s.recorder.step (recorderProg dbl) s.server.ring
      (s.server.copy s.recorder.st.readSeq torn)).map fun r => { s with recorder := r }
  | .recorderSignal => s.recorder.signal.map fun r => { s with recorder := r }
  | .client torn =>
    (s.client.step (clientProg dbl) s.server.ring
      (s.server.copy s.client.st.readSeq torn)).map fun c => { s with client := c }
  | .clientSignal => s.client.signal.map fun c => { s with client := c }

/-- Take the events in turn; `none` as soon as one cannot happen. -/
def run (s : FineSys) : List FineEvent → Option FineSys
  | [] => some s
  | e :: es => (step dbl messageCount messageRate s e).bind fun s' => run s' es

/-- One step of some process. -/
def Next (s s' : FineSys) : Prop := ∃ e, step dbl messageCount messageRate s e = some s'

/-- No copy is overtaken: a reader about to copy the slot of its `read_seq` is less than a
ring behind the server's `fetch_add`s, so no push into that slot has begun since. -/
def NoLap (s : FineSys) : Prop :=
  ∀ r, s.readerPc r = .copying → s.server.ring.writeSeq ≤ s.readSeq r + shmRingBufferSize

/-- A step taken while no copy is overtaken. -/
def NextNoLap (s s' : FineSys) : Prop := s.NoLap ∧ Next dbl messageCount messageRate s s'

/-- The invariant of the three processes. -/
structure Inv (s : FineSys) : Prop where
  server : s.server.Inv messageCount
  recorder : FineReader.Inv (recorderProg dbl) s.server s.recorder
  client : FineReader.Inv (clientProg dbl) s.server s.client
  logs : s.recorder.st.Logs dbl s.recorder.pc.toReaderPc s.recorder.seen
  sums : s.client.st.Sums dbl s.client.seen

end Model

/-- What each reader has read is a prefix of what the server published. -/
def Reads (s : FineSys) : Prop :=
  s.recorder.seen <+: s.server.published ∧ s.client.seen <+: s.server.published

section Runs

variable {dbl : DoubleArith} {messageCount messageRate : Int} {s s' : FineSys}

/-- **The server's `init` leads from the created segment to `started`**, when the rate is
not zero. -/
theorem created_step_started (hr : messageRate ≠ 0) (t : Int) (p : UInt64) :
    step dbl messageCount messageRate created (.server t p) = some started := by
  simp [step, FineServer.step, created, started, FineServer.created, hr]

theorem started_inv : Inv dbl messageCount started :=
  ⟨⟨by simp [started], fun _ => rfl, by simp [started, FinePc.inFlight],
      fun _ => rfl, fun j hj => absurd rfl hj, by simp [started], by simp [started],
      by simp [started], fun i hi => by simpa [started, FinePc.index, eq_comm] using hi,
      by simp [started, FinePc.index], by simp [started], by simp [started]⟩,
    ⟨rfl, nofun, nofun, nofun⟩, ⟨rfl, nofun, nofun, nofun⟩,
    ⟨rfl, rfl, rfl, [], .inl ⟨rfl, rfl, rfl⟩⟩, ⟨rfl, rfl, rfl⟩⟩

/-- **Every step keeps the invariant.** -/
theorem Inv.step {e : FineEvent} (h : Inv dbl messageCount s)
    (hs : step dbl messageCount messageRate s e = some s') : Inv dbl messageCount s' := by
  cases e with
  | server t p =>
    obtain ⟨v, hv, rfl⟩ := Option.map_eq_some'.mp hs
    exact ⟨h.server.step hv, h.recorder.serverStep h.server hv, h.client.serverStep h.server hv,
      h.logs, h.sums⟩
  | serverSignal =>
    obtain ⟨v, hv, rfl⟩ := Option.map_eq_some'.mp hs
    exact ⟨h.server.signal hv, h.recorder.serverSignal hv, h.client.serverSignal hv, h.logs,
      h.sums⟩
  | recorder torn =>
    obtain ⟨R, hR, rfl⟩ := Option.map_eq_some'.mp hs
    exact ⟨h.server, h.recorder.step h.server hR, h.client,
      FineReader.keeps_step (recorderProg_keeps dbl) hR h.logs, h.sums⟩
  | recorderSignal =>
    obtain ⟨R, hR, rfl⟩ := Option.map_eq_some'.mp hs
    obtain ⟨-, rfl⟩ := FineReader.signal_eq hR
    exact ⟨h.server, h.recorder.signal hR, h.client, h.logs, h.sums⟩
  | client torn =>
    obtain ⟨C, hC, rfl⟩ := Option.map_eq_some'.mp hs
    exact ⟨h.server, h.recorder, h.client.step h.server hC, h.logs,
      FineReader.keeps_step (clientProg_keeps dbl) hC h.sums⟩
  | clientSignal =>
    obtain ⟨C, hC, rfl⟩ := Option.map_eq_some'.mp hs
    obtain ⟨-, rfl⟩ := FineReader.signal_eq hC
    exact ⟨h.server, h.recorder, h.client.signal hC, h.logs, h.sums⟩

/-- **A step in which no copy is overtaken keeps each reader's reads a prefix of what was
published.** -/
theorem Reads.step {e : FineEvent} (h : Inv dbl messageCount s) (hn : s.NoLap) (hr : s.Reads)
    (hs : step dbl messageCount messageRate s e = some s') : s'.Reads := by
  cases e with
  | server t p =>
    obtain ⟨v, hv, rfl⟩ := Option.map_eq_some'.mp hs
    obtain ⟨⟨ext, he⟩, -⟩ := FineServer.step_frame h.server.initialised hv
    have hpre : s.server.published <+: v.published := by
      rw [FineServer.published, FineServer.published, he]
      exact published_prefix _ _
    exact ⟨hr.1.trans hpre, hr.2.trans hpre⟩
  | serverSignal =>
    obtain ⟨v, hv, rfl⟩ := Option.map_eq_some'.mp hs
    obtain ⟨-, -, rfl⟩ := FineServer.signal_eq hv
    exact hr
  | recorder torn =>
    obtain ⟨R, hR, rfl⟩ := Option.map_eq_some'.mp hs
    exact ⟨FineReader.seen_step h.server h.recorder (hn .recorder) hr.1 hR, hr.2⟩
  | recorderSignal =>
    obtain ⟨R, hR, rfl⟩ := Option.map_eq_some'.mp hs
    obtain ⟨-, rfl⟩ := FineReader.signal_eq hR
    exact hr
  | client torn =>
    obtain ⟨C, hC, rfl⟩ := Option.map_eq_some'.mp hs
    exact ⟨hr.1, FineReader.seen_step h.server h.client (hn .client) hr.2 hC⟩
  | clientSignal =>
    obtain ⟨C, hC, rfl⟩ := Option.map_eq_some'.mp hs
    obtain ⟨-, rfl⟩ := FineReader.signal_eq hC
    exact hr

/-- **The invariant holds in every state of every run.** -/
theorem reachable_inv (hs : Relation.ReflTransGen (Next dbl messageCount messageRate) started s) :
    Inv dbl messageCount s := by
  induction hs with
  | refl => exact started_inv
  | tail _ hn ih => obtain ⟨e, he⟩ := hn; exact ih.step he

/-- Along a run in which no copy is overtaken, the readers read prefixes of what was
published. -/
theorem reads_of_noLap
    (hs : Relation.ReflTransGen (NextNoLap dbl messageCount messageRate) started s) :
    Inv dbl messageCount s ∧ s.Reads := by
  induction hs with
  | refl => exact ⟨started_inv, List.nil_prefix, List.nil_prefix⟩
  | tail _ hn ih =>
    obtain ⟨hl, e, he⟩ := hn
    exact ⟨ih.1.step he, ih.2.step ih.1 hl he⟩

/-- With `--messages` at most the ring's size no copy is ever overtaken: `write_seq` stays
within a ring of every `read_seq`. -/
theorem Inv.noLap (h : Inv dbl messageCount s) (hmc : messageCount ≤ shmRingBufferSize) :
    s.NoLap := by
  have := h.server.writeSeq_le
  intro r _
  cases r
  · have := h.recorder.readSeq; simp only [readSeq]; simp only [recorderProg] at this; omega
  · have := h.client.readSeq; simp only [readSeq]; simp only [clientProg] at this; omega

/-- So with `--messages` at most the ring's size every run is one in which no copy is
overtaken. -/
theorem noLap_runs_of_le (hmc : messageCount ≤ shmRingBufferSize)
    (hs : Relation.ReflTransGen (Next dbl messageCount messageRate) started s) :
    Relation.ReflTransGen (NextNoLap dbl messageCount messageRate) started s := by
  induction hs with
  | refl => exact .refl
  | tail h₀ hn ih => exact .tail ih ⟨(reachable_inv h₀).noLap hmc, hn⟩

theorem run_steps {es : List FineEvent} (h : run dbl messageCount messageRate s es = some s') :
    Relation.ReflTransGen (Next dbl messageCount messageRate) s s' := by
  induction es generalizing s with
  | nil => cases h; exact .refl
  | cons e es ih =>
    obtain ⟨s₁, h₁, h₂⟩ := Option.bind_eq_some.mp h
    exact .head ⟨e, h₁⟩ (ih h₂)

/-- One push by the server alone, from its loop head: the loop check, the `fetch_add`, the
stores and the release store. -/
theorem push_steps (h10 : messageCount / 10 ≠ 0) {i : Int} (hpc : s.server.pc = .loop i)
    (hi : i < messageCount) (hst : s.server.stopRequested = false) (t : Int) (p : UInt64) :
    ∃ s', Relation.ReflTransGen (Next dbl messageCount messageRate) s s' ∧
      s'.server.pc = .loop (i + 1) ∧ s'.server.produced = s.server.produced ++ [⟨invalidSeq, t, p⟩] ∧
      s'.server.stopRequested = false ∧ s'.recorder = s.recorder ∧ s'.client = s.client := by
  obtain ⟨⟨ring, pc, stop, prod⟩, rec, cli⟩ := s
  simp only at hpc hst
  subst hpc hst
  have h1 : Next dbl messageCount messageRate ⟨⟨ring, .loop i, false, prod⟩, rec, cli⟩
      ⟨⟨ring, .pushing i, false, prod⟩, rec, cli⟩ :=
    ⟨.server t p, by simp [step, FineServer.step, hi]⟩
  exact ⟨_, .tail (.tail (.tail (.single h1) ⟨.server t p, rfl⟩) ⟨.server t p, rfl⟩)
    ⟨.server t p, rfl⟩, by simp [h10], rfl, rfl, rfl, rfl⟩

/-- The server alone pushes `n` messages from its loop head, while the readers do not move. -/
theorem pushes_steps (h10 : messageCount / 10 ≠ 0) (t : Int) (p : UInt64) :
    ∀ (n : Nat) (s : FineSys), s.server.pc = .loop s.server.produced.length →
      s.server.stopRequested = false → (s.server.produced.length + n : Int) ≤ messageCount →
      ∃ s', Relation.ReflTransGen (Next dbl messageCount messageRate) s s' ∧
        s'.server.pc = .loop s'.server.produced.length ∧
        s'.server.produced.length = s.server.produced.length + n ∧
        s'.server.stopRequested = false ∧ s'.recorder = s.recorder ∧ s'.client = s.client
  | 0, s, hpc, hst, _ => ⟨s, .refl, hpc, rfl, hst, rfl, rfl⟩
  | n + 1, s, hpc, hst, hn => by
    obtain ⟨s₁, h₁, hpc₁, hp₁, hst₁, hr₁, hc₁⟩ :=
      @push_steps dbl messageCount messageRate s h10 _ hpc (by omega) hst t p
    obtain ⟨s₂, h₂, hpc₂, hp₂, hst₂, hr₂, hc₂⟩ := pushes_steps h10 t p n s₁
      (by rw [hpc₁, hp₁]; simp) hst₁ (by rw [hp₁]; simp; omega)
    refine ⟨s₂, h₁.trans h₂, hpc₂, by rw [hp₂, hp₁]; simp; omega, hst₂, hr₂.trans hr₁,
      hc₂.trans hc₁⟩

end Runs

/-! ### What the three processes guarantee -/

section Guarantees

variable {dbl : DoubleArith} {messageCount messageRate : Int} {s s' : FineSys}

theorem Inv.readSeq_role (h : Inv dbl messageCount s) (r : Role) :
    s.readSeq r = (s.seen r).length := by
  cases r
  exacts [h.recorder.readSeq, h.client.readSeq]

/-- One step of the system moves each reader by its own step, by its signal, or not at all,
and the server by its step, by its signal, or not at all. -/
theorem step_moves {e : FineEvent} (hs : step dbl messageCount messageRate s e = some s') :
    (s'.recorder = s.recorder ∨
      (∃ c, s.recorder.step (recorderProg dbl) s.server.ring c = some s'.recorder) ∨
      s.recorder.signal = some s'.recorder) ∧
    (s'.client = s.client ∨ (∃ c, s.client.step (clientProg dbl) s.server.ring c = some s'.client) ∨
      s.client.signal = some s'.client) ∧
    (s'.server = s.server ∨ (∃ t p, s.server.step messageCount messageRate t p = some s'.server) ∨
      s.server.signal = some s'.server) := by
  cases e with
  | server t p =>
    obtain ⟨v, hv, rfl⟩ := Option.map_eq_some'.mp hs
    exact ⟨.inl rfl, .inl rfl, .inr (.inl ⟨t, p, hv⟩)⟩
  | serverSignal =>
    obtain ⟨v, hv, rfl⟩ := Option.map_eq_some'.mp hs
    exact ⟨.inl rfl, .inl rfl, .inr (.inr hv)⟩
  | recorder torn =>
    obtain ⟨R, hR, rfl⟩ := Option.map_eq_some'.mp hs
    exact ⟨.inr (.inl ⟨_, hR⟩), .inl rfl, .inl rfl⟩
  | recorderSignal =>
    obtain ⟨R, hR, rfl⟩ := Option.map_eq_some'.mp hs
    exact ⟨.inr (.inr hR), .inl rfl, .inl rfl⟩
  | client torn =>
    obtain ⟨C, hC, rfl⟩ := Option.map_eq_some'.mp hs
    exact ⟨.inl rfl, .inr (.inl ⟨_, hC⟩), .inl rfl⟩
  | clientSignal =>
    obtain ⟨C, hC, rfl⟩ := Option.map_eq_some'.mp hs
    exact ⟨.inl rfl, .inr (.inr hC), .inl rfl⟩

/-- **Each reader reads a prefix of what the server published**, in every interleaving of
the three processes' loads and stores and of the signals in which no copy is overtaken: the
`k`-th message a reader has read is the one the server published under sequence number `k`,
carrying that number, and `read_seq` counts the messages read. -/
theorem reader_reads_published_prefix
    (hs : Relation.ReflTransGen (NextNoLap dbl messageCount messageRate) started s) (r : Role) :
    s.seen r <+: s.server.published ∧ s.readSeq r = (s.seen r).length := by
  obtain ⟨h, hr⟩ := reads_of_noLap hs
  cases r
  exacts [⟨hr.1, h.readSeq_role .recorder⟩, ⟨hr.2, h.readSeq_role .client⟩]

/-- Ten messages published, five of them read: with ten messages no copy is overtaken. -/
theorem reader_reads_published_prefix_five_of_ten :
    ∃ s, run ⟨(· + ·), (· - ·)⟩ 10 1 started
        (List.replicate 40 (FineEvent.server 0 0) ++ List.replicate 10 (FineEvent.recorder zeroMsg)) =
          some s ∧
      (s.seen .recorder).length = 5 ∧
      s.seen .recorder <+: s.server.published ∧ s.readSeq .recorder = (s.seen .recorder).length :=
  ⟨_, rfl, rfl, reader_reads_published_prefix (noLap_runs_of_le (by decide)
    (@run_steps ⟨(· + ·), (· - ·)⟩ 10 1 _ _
      (List.replicate 40 (FineEvent.server 0 0) ++ List.replicate 10 (FineEvent.recorder zeroMsg))
      rfl)) .recorder⟩

/-- A reader about to copy takes, in its next step, what its copy of the slot of its
`read_seq` returns. -/
theorem step_copying_role (r : Role) (hpc : s.readerPc r = .copying) (torn : Msg) :
    ∃ s', step dbl messageCount messageRate s (r.fineEvent torn) = some s' ∧
      s'.seen r = s.seen r ++ [s.server.copy (s.readSeq r) torn] := by
  cases r <;>
    simp only [step, Role.fineEvent, FineReader.step_copying hpc, Option.map_some'] <;>
    exact ⟨_, rfl, rfl⟩

/-- **A copy the server overtakes takes a later lap's message**: `read` loads `slot.seq`
once, before its copy, and not after.  In every state of every run, a reader that found its
`read_seq = e` published and has not copied it yet, once the server has published
`e + SHM_RING_BUFFER_SIZE` and is between two pushes, takes as its `e`-th message the one the
server published into that slot on a later lap, whose sequence number is not `e`. -/
theorem overtaken_copy_reads_later_lap
    (hs : Relation.ReflTransGen (Next dbl messageCount messageRate) started s) (r : Role)
    (hpc : s.readerPc r = .copying)
    (hlap : s.readSeq r + shmRingBufferSize < s.server.produced.length)
    (hidle : s.server.pc.inFlight = none) (torn : Msg) :
    ∃ s' j, step dbl messageCount messageRate s (r.fineEvent torn) = some s' ∧
      (s.seen r).length + shmRingBufferSize ≤ j ∧
      j % shmRingBufferSize = (s.seen r).length % shmRingBufferSize ∧
      s'.seen r = s.seen r ++ [pushedMsg s.server.produced j] := by
  have h := reachable_inv hs
  rw [h.readSeq_role r] at hlap
  obtain ⟨j, hj, hle⟩ := @lastInClass_lapped shmRingBufferSize (s.seen r).length
    s.server.produced.length (by omega)
  have hslot : slotOf shmCapacity s.server.produced ((s.seen r).length % shmRingBufferSize) =
      ⟨pushedMsg s.server.produced j, j⟩ := by
    simp [slotOf, hj]
  have hcopy := h.server.copy_of_idle hidle (s.seen r).length (by rw [hslot]; simp) torn
  rw [hslot] at hcopy
  obtain ⟨s', hs', hseen⟩ := step_copying_role r hpc torn
  rw [h.readSeq_role r, hcopy] at hseen
  exact ⟨s', j, hs', hle, (lastInClass_eq_some.mp hj).2.1, hseen⟩

/-- The server pushes one message; the recorder finds it published; the server pushes a lap
more before the recorder copies, and the copy takes message `65536`. -/
theorem overtaken_copy_reads_later_lap_after_one_lap :
    ∃ s, Relation.ReflTransGen (Next ⟨(· + ·), (· - ·)⟩ 65537 1) started s ∧
      s.readerPc .recorder = .copying ∧
      s.readSeq .recorder + shmRingBufferSize < s.server.produced.length ∧
      s.server.pc.inFlight = none ∧
      ∃ s' j, step ⟨(· + ·), (· - ·)⟩ 65537 1 s (Role.recorder.fineEvent zeroMsg) = some s' ∧
        (s.seen .recorder).length + shmRingBufferSize ≤ j ∧
        j % shmRingBufferSize = (s.seen .recorder).length % shmRingBufferSize ∧
        s'.seen .recorder = s.seen .recorder ++ [pushedMsg s.server.produced j] := by
  obtain ⟨s₁, h₁, hpc₁, hlen₁, hst₁, hrec₁, -⟩ :=
    @pushes_steps ⟨(· + ·), (· - ·)⟩ 65537 1 (by decide) 0 0 1 started rfl rfl (by decide)
  have hm : s₁.server.ring.seqMatches ((recorderProg ⟨(· + ·), (· - ·)⟩).readSeq s₁.recorder.st) =
      true := by
    rw [hrec₁, (reachable_inv h₁).server.seqMatches_iff, hlen₁]
    decide
  have h₂ : Next ⟨(· + ·), (· - ·)⟩ 65537 1 s₁
      { s₁ with recorder := { s₁.recorder with pc := .copying } } :=
    ⟨.recorder zeroMsg, by
      simp only [step, FineReader.step_match (by rw [hrec₁]; rfl) (by rw [hrec₁]; rfl) hm,
        Option.map_some']⟩
  obtain ⟨s₃, h₃, hpc₃, hlen₃, -, hrec₃, -⟩ :=
    @pushes_steps ⟨(· + ·), (· - ·)⟩ 65537 1 (by decide) 0 0 65536
      { s₁ with recorder := { s₁.recorder with pc := .copying } } hpc₁ hst₁
      (by rw [hlen₁]; decide)
  have hs := (h₁.tail h₂).trans h₃
  have hpc : s₃.readerPc .recorder = .copying := by rw [readerPc, hrec₃]
  have hlap : s₃.readSeq .recorder + shmRingBufferSize < s₃.server.produced.length := by
    simp only [readSeq, hrec₃, hrec₁, hlen₃, hlen₁]
    decide
  have hidle : s₃.server.pc.inFlight = none := by rw [hpc₃]; rfl
  exact ⟨s₃, hs, hpc, hlap, hidle,
    overtaken_copy_reads_later_lap hs .recorder hpc hlap hidle zeroMsg⟩

/-- One step of the system leaves a lapped reader where it is. -/
theorem step_lapped {e : FineEvent} (h : Inv dbl messageCount s)
    (hs : step dbl messageCount messageRate s e = some s') (r : Role)
    (hl : s.readSeq r + shmRingBufferSize < s.server.produced.length)
    (hpc : s.readerPc r ≠ .copying) (hx : s.readerPc r = .exited → s.readerStop r = true) :
    s'.seen r = s.seen r ∧ s'.readSeq r = s.readSeq r ∧
      s.server.produced.length ≤ s'.server.produced.length ∧ s'.readerPc r ≠ .copying ∧
      (s'.readerPc r = .exited → s'.readerStop r = true) := by
  obtain ⟨hrec, hcli, hsrv⟩ := step_moves hs
  have hW : s.server.produced.length ≤ s'.server.produced.length := by
    rcases hsrv with hv | ⟨t, p, hv⟩ | hv
    · rw [hv]
    · obtain ⟨⟨ext, he⟩, -⟩ := FineServer.step_frame h.server.initialised hv
      simp [he]
    · rw [(FineServer.signal_eq hv).2.2]
  cases r
  · obtain ⟨g1, g2, g3, g4⟩ := FineReader.lapped_moves h.server hl hpc hx hrec
    exact ⟨g1, g2, hW, g3, g4⟩
  · obtain ⟨g1, g2, g3, g4⟩ := FineReader.lapped_moves h.server hl hpc hx hcli
    exact ⟨g1, g2, hW, g3, g4⟩

/-- **A reader whose slot the server republished a lap later is stuck for good**: the slot
never publishes its `read_seq` again and `write_seq` stays past it, so in every later state
of every run the reader has read nothing more, its `read_seq` has not moved, and it has left
its loop only on a stop request. -/
theorem lapped_reader_stuck
    (hs : Relation.ReflTransGen (Next dbl messageCount messageRate) started s) (r : Role)
    (hpc : s.readerPc r = .polling)
    (hl : s.readSeq r + shmRingBufferSize < s.server.produced.length)
    (hss : Relation.ReflTransGen (Next dbl messageCount messageRate) s s') :
    s'.seen r = s.seen r ∧ s'.readSeq r = s.readSeq r ∧ s'.readerPc r ≠ .copying ∧
      (s'.readerPc r = .exited → s'.readerStop r = true) := by
  suffices key : s'.seen r = s.seen r ∧ s'.readSeq r = s.readSeq r ∧
      s.server.produced.length ≤ s'.server.produced.length ∧ s'.readerPc r ≠ .copying ∧
      (s'.readerPc r = .exited → s'.readerStop r = true) from
    ⟨key.1, key.2.1, key.2.2.2⟩
  induction hss with
  | refl =>
    exact ⟨rfl, rfl, le_rfl, by simp [hpc], fun hx => absurd (hpc.symm.trans hx) (by simp)⟩
  | @tail s₁ s₂ h₁ hn ih =>
    obtain ⟨h1, h2, h3, h4, h5⟩ := ih
    obtain ⟨e, he⟩ := hn
    obtain ⟨g1, g2, g3, g4, g5⟩ := step_lapped (reachable_inv (hs.trans h₁)) he r
      (by rw [h2]; omega) h4 h5
    exact ⟨g1.trans h1, g2.trans h2, h3.trans g3, g4, g5⟩

/-- The server pushes `65537` messages while the recorder has read none. -/
theorem lapped_reader_stuck_after_one_lap :
    ∃ s, Relation.ReflTransGen (Next ⟨(· + ·), (· - ·)⟩ 65537 1) started s ∧
      s.readerPc .recorder = .polling ∧
      s.readSeq .recorder + shmRingBufferSize < s.server.produced.length ∧
      ∀ s', Relation.ReflTransGen (Next ⟨(· + ·), (· - ·)⟩ 65537 1) s s' →
        s'.seen .recorder = s.seen .recorder ∧ s'.readSeq .recorder = s.readSeq .recorder ∧
          s'.readerPc .recorder ≠ .copying ∧
          (s'.readerPc .recorder = .exited → s'.readerStop .recorder = true) := by
  obtain ⟨s, hs, -, hlen, -, hrec, -⟩ :=
    @pushes_steps ⟨(· + ·), (· - ·)⟩ 65537 1 (by decide) 0 0 65537 started rfl rfl (by decide)
  have hpc : s.readerPc .recorder = .polling := by rw [readerPc, hrec]; rfl
  have hl : s.readSeq .recorder + shmRingBufferSize < s.server.produced.length := by
    rw [readSeq, hrec, hlen]; decide
  exact ⟨s, hs, hpc, hl, fun s' hss => lapped_reader_stuck hs .recorder hpc hl hss⟩

/-- **The multiprocess pipeline delivers**: in a run in which no copy is overtaken, once the
server has returned without a stop request and both readers have left their loops by
themselves, the server has pushed `max(--messages, 0)` messages, both readers read exactly
them, numbered from 0, the recorder's log is closed and holds exactly them, and the client's
sum and the recorder's expected sum are both the Kahan sum of their payloads, over that many
messages each. -/
theorem pipeline_complete
    (hs : Relation.ReflTransGen (NextNoLap dbl messageCount messageRate) started s)
    (hsrv : s.server.pc = .exited) (hstop : s.server.stopRequested = false)
    (hrec : s.recorder.pc = .exited) (hrs : s.recorder.stopRequested = false)
    (hcli : s.client.pc = .exited) (hcs : s.client.stopRequested = false) :
    (s.server.produced.length : Int) = max messageCount 0 ∧
    s.recorder.seen = s.server.published ∧ s.client.seen = s.server.published ∧
    s.recorder.st.channel.file =
      encodeHeader { headerOf s.server.published with flags := fileFlagComplete } ++
        encodeAll s.server.published ∧
    s.recorder.st.recordedCount = s.server.produced.length ∧
    s.client.st.processedCount = s.server.produced.length ∧
    (s.recorder.st.expectedSum, s.recorder.st.kahanC) =
      kahanFold dbl (s.server.published.map Msg.payload) ∧
    (s.client.st.sum, s.client.st.kahanC) = kahanFold dbl (s.server.published.map Msg.payload) := by
  obtain ⟨h, hr⟩ := reads_of_noLap hs
  have hrs' := h.recorder.seen_eq_published hr.1 hrec hrs hstop
  have hcs' := h.client.seen_eq_published hr.2 hcli hcs hstop
  have hlen : s.server.published.length = s.server.produced.length := by
    simp [FineServer.published]
  obtain ⟨calls, ⟨hx, -⟩ | ⟨-, hch, hw⟩⟩ := h.logs.log
  · rw [hrec] at hx; cases hx
  obtain ⟨k, hk⟩ := FileWriteChannel.open_run_holds calls
  refine ⟨h.server.finished (.inr hsrv) hstop, hrs', hcs', ?_, ?_, ?_, ?_, ?_⟩
  · rw [hch, FileWriteChannel.close_file hk, hw, hrs']
  · rw [h.logs.recordedCount, hrs', hlen]
  · rw [h.sums.processedCount, hcs', hlen]
  · rw [h.logs.sum, hrs']
  · rw [h.sums.sum, hcs']

/-- Ten messages, read by both readers after the server returned: two steps a message and
three to leave. -/
theorem pipeline_complete_ten_messages :
    ∃ s, run ⟨(· + ·), (· - ·)⟩ 10 1 started (List.replicate 42 (FineEvent.server 0 0) ++
        List.replicate 23 (FineEvent.recorder zeroMsg) ++
        List.replicate 23 (FineEvent.client zeroMsg)) = some s ∧
      s.server.pc = .exited ∧ s.server.stopRequested = false ∧
      s.recorder.pc = .exited ∧ s.recorder.stopRequested = false ∧
      s.client.pc = .exited ∧ s.client.stopRequested = false ∧
      (s.server.produced.length : Int) = max 10 0 ∧
      s.recorder.seen = s.server.published ∧ s.client.seen = s.server.published ∧
      s.recorder.st.channel.file =
        encodeHeader { headerOf s.server.published with flags := fileFlagComplete } ++
          encodeAll s.server.published ∧
      s.recorder.st.recordedCount = s.server.produced.length ∧
      s.client.st.processedCount = s.server.produced.length ∧
      (s.recorder.st.expectedSum, s.recorder.st.kahanC) =
        kahanFold ⟨(· + ·), (· - ·)⟩ (s.server.published.map Msg.payload) ∧
      (s.client.st.sum, s.client.st.kahanC) =
        kahanFold ⟨(· + ·), (· - ·)⟩ (s.server.published.map Msg.payload) :=
  ⟨_, rfl, rfl, rfl, rfl, rfl, rfl, rfl, pipeline_complete (noLap_runs_of_le (by decide)
    (@run_steps ⟨(· + ·), (· - ·)⟩ 10 1 _ _ (List.replicate 42 (FineEvent.server 0 0) ++
      List.replicate 23 (FineEvent.recorder zeroMsg) ++
      List.replicate 23 (FineEvent.client zeroMsg)) rfl))
    rfl rfl rfl rfl rfl rfl⟩

end Guarantees

end FineSys

end Ipc

end Replay
