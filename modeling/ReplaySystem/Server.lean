import ReplaySystem.Ring
import Mathlib.Logic.Relation

/-!
# The in-process market-data server

`server/MktDataServer.cpp`: `MktDataServer` owns one thread, `thread_`, which runs `run`:
compute the interval `1000000000 / message_rate_`, then push up to `message_count_`
messages into the ring, counting them in `sent_count_`, until `stop_requested_`; then
clear `running_` and return.  The thread that owns the server calls `start`, `stop`,
`waitForComplete` and the setters.

`run` clears `running_` when it returns, but nothing joins the thread then.  `start`
checks only `running_`, so a `start` after a run that returned by itself assigns the new
thread to a `thread_` that is still joinable, and the move assignment of `std::thread`
calls `std::terminate`.  With `message_rate_ = 0` the interval divides by zero.

Each step of `run` (the interval, one loop check, one push with its count) is one atomic
step.  `stop` is its store to `stop_requested_`, then, once the thread has returned, the
join and the store to `running_`.  The setters are called while no thread exists, as
`main` and the tests call them, before `start`.

## Main definitions

* `MktDataServer` with `start`, `requestStop`, `join`, `runStep`.
* `ServerSys`, `ServerSys.step`, `ServerSys.Reachable` — the server's thread and its caller.

## Main results

* `ServerSys.server_pushes` — in every reachable state the ring holds exactly what the
  server pushed, `running_` is set exactly while the thread is in `run`, and `sent_count_`
  stays within `message_count_`, reaching it when a run returns without a stop.
* `ServerSys.start_after_run_terminates` — `start` after a run that returned by itself
  terminates the process.
* `ServerSys.restart_terminates` — for every message count and non-zero rate, `start`, a
  complete run and `start` again terminate the process.
* `ServerSys.stop_returns` — `stop` returns after at most three steps of the thread.
-/

namespace Replay

/-- Where `thread_` is. -/
inductive ServerThread
  /-- `thread_` holds no thread: never started, or joined. -/
  | none
  /-- `run` has started: the interval `1000000000 / message_rate_` is next. -/
  | starting
  /-- The loop head `i < message_count_ && !stop_requested_`. -/
  | loop (i : Int)
  /-- Message `i` is generated and pushed next, then counted in `sent_count_`. -/
  | pushing (i : Int)
  /-- `run` has cleared `running_` and returned; the thread is still joinable. -/
  | returned
  deriving DecidableEq, Repr

/-- The thread is executing `run`. -/
def ServerThread.inRun : ServerThread → Bool
  | .starting | .loop _ | .pushing _ => true
  | .none | .returned => false

/-- How the process died. -/
inductive Crash
  /-- `1000000000 / message_rate_` with a zero rate. -/
  | divByZero
  /-- `std::terminate`: a new thread assigned to a joinable `thread_`. -/
  | terminate
  deriving DecidableEq, Repr

/-- `MktDataServer`'s fields that its methods read and write, its thread, and the ring it
pushes into. -/
structure MktDataServer where
  ring : RingBuffer
  running : Bool
  stopRequested : Bool
  messageCount : Int
  messageRate : Int
  sentCount : Int
  thread : ServerThread

namespace MktDataServer

variable (C : Capacity)

/-- The constructor's server over a fresh ring: 10000 messages at 1000 a second. -/
def new : MktDataServer := ⟨RingBuffer.init, false, false, 10000, 1000, 0, .none⟩

/-- `start`: ignored while `running_`; otherwise reset `stop_requested_` and `sent_count_`,
set `running_` and spawn `run`.  The spawn is a move assignment to `thread_`, which
terminates the process when `thread_` is still joinable. -/
def start (v : MktDataServer) : Except Crash MktDataServer :=
  if v.running then .ok v
  else if v.thread ≠ .none then .error .terminate
  else .ok { v with stopRequested := false, sentCount := 0, running := true, thread := .starting }

/-- `stop`'s store `stop_requested_ = true`. -/
def requestStop (v : MktDataServer) : MktDataServer := { v with stopRequested := true }

/-- The join of `stop` and `waitForComplete`: it returns once `thread_` holds no thread or
one that has returned. -/
def join (v : MktDataServer) : Option MktDataServer :=
  match v.thread with
  | .none | .returned => some { v with thread := .none }
  | _ => none

/-- `setMessageCount`. -/
def setMessageCount (v : MktDataServer) (count : Int) : MktDataServer :=
  { v with messageCount := count }

/-- `setMessageRate`. -/
def setMessageRate (v : MktDataServer) (ratePerSecond : Int) : MktDataServer :=
  { v with messageRate := ratePerSecond }

/-- The message `run` pushes: `Msg(INVALID_SEQ, timestamp, payload)`. -/
def runMsg (timestampNs : Int) (payload : UInt64) : Msg := ⟨invalidSeq, timestampNs, payload⟩

/-- One step of `run`: the interval, which divides by `message_rate_`; the loop check,
which clears `running_` and returns when it fails; a push with its count. -/
def runStep (v : MktDataServer) (timestampNs : Int) (payload : UInt64) :
    Option (Except Crash MktDataServer) :=
  match v.thread with
  | .starting =>
    some (if v.messageRate = 0 then .error .divByZero else .ok { v with thread := .loop 0 })
  | .loop i =>
    some (.ok (if i < v.messageCount ∧ v.stopRequested = false then { v with thread := .pushing i }
      else { v with running := false, thread := .returned }))
  | .pushing i =>
    some (.ok { v with
      ring := (v.ring.push C (runMsg timestampNs payload)).2, sentCount := v.sentCount + 1,
      thread := .loop (i + 1) })
  | .none | .returned => none

/-- What a step of `run` pushes. -/
def pushedBy (v : MktDataServer) (timestampNs : Int) (payload : UInt64) : List Msg :=
  match v.thread with
  | .pushing _ => [runMsg timestampNs payload]
  | _ => []

/-! ### The thread's lifecycle -/

/-- What holds of the fields at each point of the thread: `running_` is set exactly while
the thread is in `run`; past the interval the rate is not zero; in the loop `sent_count_`
is the loop index; once `run` returned it counted every message, or stopped early. -/
def Lifecycle (v : MktDataServer) : Prop :=
  match v.thread with
  | .none => v.running = false
  | .starting => v.running = true ∧ v.sentCount = 0
  | .loop i => v.running = true ∧ v.messageRate ≠ 0 ∧ v.sentCount = i ∧ 0 ≤ i ∧
      i ≤ v.messageCount.toNat
  | .pushing i => v.running = true ∧ v.messageRate ≠ 0 ∧ v.sentCount = i ∧ 0 ≤ i ∧
      i < v.messageCount
  | .returned => v.running = false ∧ v.messageRate ≠ 0 ∧ 0 ≤ v.sentCount ∧
      v.sentCount ≤ v.messageCount.toNat ∧
      (v.stopRequested = false → v.sentCount = v.messageCount.toNat)

variable {C} {v v' : MktDataServer}

theorem Lifecycle.running_eq (hv : v.Lifecycle) : v.running = v.thread.inRun := by
  unfold Lifecycle at hv
  split at hv <;> simp_all [ServerThread.inRun]

theorem Lifecycle.sentCount_le (hv : v.Lifecycle) (h : v.thread ≠ .none) :
    0 ≤ v.sentCount ∧ v.sentCount ≤ v.messageCount.toNat := by
  unfold Lifecycle at hv
  split at hv
  · contradiction
  all_goals omega

theorem Lifecycle.sentCount_of_returned (hv : v.Lifecycle) (h : v.thread = .returned)
    (hs : v.stopRequested = false) : v.sentCount = v.messageCount.toNat := by
  simp only [Lifecycle, h] at hv
  exact hv.2.2.2.2 hs

/-- With a zero rate the thread never gets past the interval. -/
theorem Lifecycle.thread_of_rate_zero (hv : v.Lifecycle) (h : v.messageRate = 0) :
    v.thread = .none ∨ v.thread = .starting := by
  unfold Lifecycle at hv
  split at hv <;> simp_all

theorem Lifecycle.start (hv : v.Lifecycle) (h : v.start = .ok v') :
    v'.Lifecycle ∧ v'.ring = v.ring := by
  unfold MktDataServer.start at h
  split at h
  · cases h; exact ⟨hv, rfl⟩
  · split at h
    · cases h
    · cases h; simp [Lifecycle]

theorem Lifecycle.requestStop (hv : v.Lifecycle) : v.requestStop.Lifecycle := by
  unfold Lifecycle at hv ⊢
  split at hv <;> simp_all [MktDataServer.requestStop]

theorem Lifecycle.join (hv : v.Lifecycle) (h : v.join = some v') :
    v'.Lifecycle ∧ { v' with running := false }.Lifecycle ∧ v'.ring = v.ring := by
  unfold MktDataServer.join at h
  split at h <;> cases h <;> simp_all [Lifecycle]

/-- A step of `run` keeps the lifecycle, and pushes into the ring what `pushedBy` says. -/
theorem Lifecycle.runStep (hv : v.Lifecycle) {t : Int} {p : UInt64}
    (h : v.runStep C t p = some (.ok v')) :
    v'.Lifecycle ∧ ∀ ms, v.ring = ringOf C ms → v'.ring = ringOf C (ms ++ v.pushedBy t p) := by
  unfold MktDataServer.runStep at h
  unfold Lifecycle at hv
  split at h <;> rename_i hth <;> simp only [hth] at hv
  case h_1 =>
    split at h <;> cases h
    exact ⟨by simp [Lifecycle, hv]; omega, fun ms hr => by simp [pushedBy, hth, hr]⟩
  case h_2 i =>
    cases h
    refine ⟨?_, fun ms hr => by split <;> simp [pushedBy, hth, hr]⟩
    obtain ⟨hrun, hrate, hsent, h0, hle⟩ := hv
    split <;> simp only [Lifecycle]
    case isTrue hc => exact ⟨hrun, hrate, hsent, h0, hc.1⟩
    case isFalse hc =>
      refine ⟨trivial, hrate, by omega, by omega, fun hs => ?_⟩
      simp only [hs, and_true, not_lt] at hc
      omega
  case h_3 =>
    cases h
    obtain ⟨hrun, hrate, hsent, h0, hlt⟩ := hv
    refine ⟨?_, fun ms hr => by simp [pushedBy, hth, hr, RingBuffer.push_ringOf]⟩
    simp only [Lifecycle]
    exact ⟨hrun, hrate, by omega, by omega, by omega⟩
  all_goals cases h

end MktDataServer

/-- Where the thread that calls the server's methods is. -/
inductive CallerPc
  /-- Between calls. -/
  | idle
  /-- In `stop`, after its store to `stop_requested_`: in the join. -/
  | stopping
  /-- In `waitForComplete`: in the join. -/
  | waiting
  deriving DecidableEq, Repr

/-- The server, its caller, and whether the process died; with the messages the server has
pushed, in order (a history kept for the proofs). -/
structure ServerSys where
  server : MktDataServer
  caller : CallerPc
  crashed : Option Crash
  produced : List Msg

/-- What can happen next. -/
inductive ServerEvent
  /-- The caller calls `start`. -/
  | start
  /-- The caller calls `stop`, and makes its store to `stop_requested_`. -/
  | stop
  /-- The caller calls `waitForComplete`. -/
  | waitForComplete
  /-- The caller's join returns, and `stop` stores `running_ = false`. -/
  | join
  /-- The caller calls `setMessageCount`. -/
  | setMessageCount (count : Int)
  /-- The caller calls `setMessageRate`. -/
  | setMessageRate (ratePerSecond : Int)
  /-- `run` takes a step; a push sends a message with this timestamp and payload. -/
  | run (timestampNs : Int) (payload : UInt64)
  deriving DecidableEq, Repr

namespace ServerSys

variable (C : Capacity)

/-- A fresh server over a fresh ring. -/
def init : ServerSys := ⟨MktDataServer.new, .idle, none, []⟩

/-- One event of a process that is alive; `none` when it cannot happen. -/
def stepLive (s : ServerSys) : ServerEvent → Option ServerSys
  | .start =>
    if s.caller = .idle then
      match s.server.start with
      | .ok v => some { s with server := v }
      | .error c => some { s with crashed := some c }
    else none
  | .stop =>
    if s.caller = .idle then some { s with server := s.server.requestStop, caller := .stopping }
    else none
  | .waitForComplete => if s.caller = .idle then some { s with caller := .waiting } else none
  | .join =>
    if s.caller = .idle then none
    else (s.server.join).map fun v => { s with
      server := if s.caller = .stopping then { v with running := false } else v, caller := .idle }
  | .setMessageCount n =>
    if s.caller = .idle ∧ s.server.thread = .none then
      some { s with server := s.server.setMessageCount n }
    else none
  | .setMessageRate r =>
    if s.caller = .idle ∧ s.server.thread = .none then
      some { s with server := s.server.setMessageRate r }
    else none
  | .run t p =>
    (s.server.runStep C t p).map fun
      | .ok v => { s with server := v, produced := s.produced ++ s.server.pushedBy t p }
      | .error c => { s with crashed := some c }

/-- One event; nothing happens once the process died. -/
def step (s : ServerSys) (e : ServerEvent) : Option ServerSys :=
  if s.crashed.isSome then none else s.stepLive C e

/-- Take the events in turn; `none` as soon as one cannot happen. -/
def run (s : ServerSys) : List ServerEvent → Option ServerSys
  | [] => some s
  | e :: es => (s.step C e).bind fun s' => run s' es

/-- One event. -/
def Next (s s' : ServerSys) : Prop := ∃ e, s.step C e = some s'

/-- The states a run from `init` reaches. -/
def Reachable (s : ServerSys) : Prop := Relation.ReflTransGen (Next C) init s

/-! ### The invariant -/

/-- The ring holds exactly what the server pushed, and the fields follow the thread's
lifecycle. -/
structure Inv (s : ServerSys) : Prop where
  ring : s.server.ring = ringOf C s.produced
  lifecycle : s.server.Lifecycle

variable {C} {s s' : ServerSys} {e : ServerEvent}

theorem init_inv : init.Inv C := ⟨by simp [init, MktDataServer.new], rfl⟩

theorem Inv.stepLive (hi : s.Inv C) (h : s.stepLive C e = some s') : s'.Inv C := by
  cases e with
  | start =>
    simp only [stepLive] at h
    split at h
    · split at h <;> cases h
      · obtain ⟨hl, hr⟩ := hi.lifecycle.start ‹_›
        exact ⟨hr.trans hi.ring, hl⟩
      · exact ⟨hi.ring, hi.lifecycle⟩
    · cases h
  | stop =>
    simp only [stepLive] at h
    split at h <;> cases h
    exact ⟨hi.ring, hi.lifecycle.requestStop⟩
  | waitForComplete =>
    simp only [stepLive] at h
    split at h <;> cases h
    exact ⟨hi.ring, hi.lifecycle⟩
  | join =>
    simp only [stepLive] at h
    split at h
    · cases h
    · obtain ⟨v, hv, rfl⟩ := Option.map_eq_some'.mp h
      obtain ⟨hl, hl', hr⟩ := hi.lifecycle.join hv
      split
      · exact ⟨hr.trans hi.ring, hl'⟩
      · exact ⟨hr.trans hi.ring, hl⟩
  | setMessageCount n | setMessageRate r =>
    simp only [stepLive] at h
    split at h <;> cases h
    rename_i hc
    have hl := hi.lifecycle
    unfold MktDataServer.Lifecycle at hl
    simp only [hc.2] at hl
    exact ⟨hi.ring, by simp [MktDataServer.Lifecycle, MktDataServer.setMessageCount,
      MktDataServer.setMessageRate, hc.2, hl]⟩
  | run t p =>
    obtain ⟨r, hr, rfl⟩ := Option.map_eq_some'.mp h
    cases r with
    | ok v =>
      obtain ⟨hl, hring⟩ := hi.lifecycle.runStep hr
      exact ⟨hring _ hi.ring, hl⟩
    | error => exact ⟨hi.ring, hi.lifecycle⟩

theorem Inv.step (hi : s.Inv C) (h : s.step C e = some s') : s'.Inv C := by
  unfold ServerSys.step at h
  split at h
  · cases h
  · exact hi.stepLive h

theorem Inv.steps (hi : s.Inv C) (h : Relation.ReflTransGen (Next C) s s') : s'.Inv C := by
  induction h with
  | refl => exact hi
  | tail _ hn ih => exact ih.step hn.choose_spec

theorem reachable_inv (h : s.Reachable C) : s.Inv C := init_inv.steps h

/-! ### Runs -/

theorem reachable_of_run {es : List ServerEvent} (h : init.run C es = some s) :
    s.Reachable C := by
  suffices ∀ es (s₀ : ServerSys), s₀.Reachable C → s₀.run C es = some s → s.Reachable C from
    this es _ .refl h
  intro es
  induction es with
  | nil => intro s₀ h₀ h; cases h; exact h₀
  | cons e es ih =>
    intro s₀ h₀ h
    obtain ⟨s₁, h₁, h₂⟩ := Option.bind_eq_some.mp h
    exact ih s₁ (.tail h₀ ⟨e, h₁⟩) h₂

theorem run_append (s : ServerSys) (es es' : List ServerEvent) :
    s.run C (es ++ es') = (s.run C es).bind fun s' => s'.run C es' := by
  induction es generalizing s with
  | nil => rfl
  | cons e es ih => simp [run, ih, Option.bind_assoc]

/-- The loop check passes: message `i` is next. -/
theorem step_loop_pushing {i t : Int} {p : UInt64} (hc : s.crashed = none)
    (hth : s.server.thread = .loop i) (hi : i < s.server.messageCount)
    (hs : s.server.stopRequested = false) :
    s.step C (.run t p) = some { s with server := { s.server with thread := .pushing i } } := by
  simp [step, stepLive, MktDataServer.runStep, MktDataServer.pushedBy, hc, hth, hi, hs]

/-- The loop check fails: `run` clears `running_` and returns. -/
theorem step_loop_returned {i t : Int} {p : UInt64} (hc : s.crashed = none)
    (hth : s.server.thread = .loop i)
    (hi : s.server.messageCount ≤ i ∨ s.server.stopRequested = true) :
    s.step C (.run t p) =
      some { s with server := { s.server with running := false, thread := .returned } } := by
  have : ¬(i < s.server.messageCount ∧ s.server.stopRequested = false) := by
    rintro ⟨h1, h2⟩
    rcases hi with hi | hi
    · omega
    · simp [hi] at h2
  simp [step, stepLive, MktDataServer.runStep, MktDataServer.pushedBy, hc, hth, this]

/-- A push: the message goes into the ring and is counted. -/
theorem step_pushing {i t : Int} {p : UInt64} (hc : s.crashed = none)
    (hth : s.server.thread = .pushing i) :
    s.step C (.run t p) = some { s with
      server := { s.server with
        ring := (s.server.ring.push C (MktDataServer.runMsg t p)).2
        sentCount := s.server.sentCount + 1
        thread := .loop (i + 1) }
      produced := s.produced ++ [MktDataServer.runMsg t p] } := by
  simp [step, stepLive, MktDataServer.runStep, MktDataServer.pushedBy, hc, hth]

/-- One turn of the loop with no stop: a check that passes, and a push. -/
theorem run_turn {i : Int} (hc : s.crashed = none) (hth : s.server.thread = .loop i)
    (hi : i < s.server.messageCount) (hs : s.server.stopRequested = false) :
    ∃ s₂, s.run C (List.replicate 2 (.run 0 0)) = some s₂ ∧ s₂.crashed = none ∧
      s₂.server.thread = .loop (i + 1) ∧ s₂.server.stopRequested = false ∧
      s₂.server.messageCount = s.server.messageCount ∧ s₂.caller = s.caller := by
  have h₂ := step_pushing (C := C) (t := 0) (p := 0)
    (s := { s with server := { s.server with thread := .pushing i } }) hc rfl
  simp only [List.replicate, run, step_loop_pushing hc hth hi hs, h₂, Option.some_bind]
  exact ⟨_, rfl, hc, rfl, hs, rfl, rfl⟩

/-- `k` turns of the loop with no stop: the thread is at the check again, `k` messages
on. -/
theorem run_loop (k : Nat) {i : Int} (hc : s.crashed = none) (hth : s.server.thread = .loop i)
    (hs : s.server.stopRequested = false) (hk : k ≤ (s.server.messageCount - i).toNat) :
    ∃ s', s.run C (List.replicate (2 * k) (.run 0 0)) = some s' ∧ s'.crashed = none ∧
      s'.server.thread = .loop (i + k) ∧ s'.server.stopRequested = false ∧
      s'.server.messageCount = s.server.messageCount ∧ s'.caller = s.caller := by
  induction k generalizing s i with
  | zero => exact ⟨s, rfl, hc, by simpa using hth, hs, rfl, rfl⟩
  | succ k ih =>
    obtain ⟨s₂, h₂, hc₂, hth₂, hs₂, hm₂, hcl₂⟩ := run_turn (C := C) hc hth (by omega) hs
    obtain ⟨s', h', hc', hth', hs', hm', hcl'⟩ := ih hc₂ hth₂ hs₂ (by rw [hm₂]; omega)
    refine ⟨s', ?_, hc', by rw [hth']; congr 1; omega, hs', hm'.trans hm₂, hcl'.trans hcl₂⟩
    rw [show 2 * (k + 1) = 2 + 2 * k by omega, List.replicate_add, run_append, h₂]
    exact h'

/-! ### Guarantees -/

/-- **What the server has done, in every reachable state**: the ring holds exactly the
messages the server pushed, in order; `isRunning()` is true exactly while the thread is in
`run`; a started run's `getSentCount()` stays between 0 and the message count (0 when the
count is negative), and equals it once `run` returned without a stop; with a zero rate the
thread never gets past the interval, so nothing is pushed. -/
theorem server_pushes (h : s.Reachable C) :
    s.server.ring = ringOf C s.produced ∧
    s.server.running = s.server.thread.inRun ∧
    (s.server.thread ≠ .none →
      0 ≤ s.server.sentCount ∧ s.server.sentCount ≤ s.server.messageCount.toNat) ∧
    (s.server.thread = .returned → s.server.stopRequested = false →
      s.server.sentCount = s.server.messageCount.toNat) ∧
    (s.server.messageRate = 0 → s.server.thread = .none ∨ s.server.thread = .starting) := by
  have hi := reachable_inv h
  have hl := hi.lifecycle
  exact ⟨hi.ring, hl.running_eq, hl.sentCount_le, hl.sentCount_of_returned,
    hl.thread_of_rate_zero⟩

/-- One message sent and `run` returned. -/
theorem server_pushes_one_message :
    ∃ s, init.run ⟨1, ⟨0, rfl⟩⟩
        [.setMessageCount 1, .start, .run 0 0, .run 0 0, .run 0 0, .run 0 0] = some s ∧
      s.server.thread = .returned ∧ s.produced.length = 1 ∧
      s.server.ring = ringOf ⟨1, ⟨0, rfl⟩⟩ s.produced ∧
      s.server.running = s.server.thread.inRun ∧
      (s.server.thread ≠ .none →
        0 ≤ s.server.sentCount ∧ s.server.sentCount ≤ s.server.messageCount.toNat) ∧
      (s.server.thread = .returned → s.server.stopRequested = false →
        s.server.sentCount = s.server.messageCount.toNat) ∧
      (s.server.messageRate = 0 → s.server.thread = .none ∨ s.server.thread = .starting) :=
  ⟨_, rfl, rfl, rfl, server_pushes (@reachable_of_run ⟨1, ⟨0, rfl⟩⟩ _
    [.setMessageCount 1, .start, .run 0 0, .run 0 0, .run 0 0, .run 0 0] rfl)⟩

/-- **`start` after a run that returned by itself terminates the process**: `run` cleared
`running_`, so `start` goes on to assign a new thread to `thread_`, which still holds the
finished, unjoined one.  Joined first, by `waitForComplete`, the same `start` begins a
fresh run. -/
theorem start_after_run_terminates (h : s.Reachable C) (hc : s.crashed = none)
    (hidle : s.caller = .idle) (hret : s.server.thread = .returned) :
    (s.step C .start).map (·.crashed) = some (some .terminate) ∧
    (s.run C [.waitForComplete, .join, .start]).map
        (fun s' => (s'.crashed, s'.server.running, s'.server.sentCount, s'.server.thread)) =
      some (none, true, 0, .starting) := by
  have hrun : s.server.running = false := by
    rw [(reachable_inv h).lifecycle.running_eq, hret]; rfl
  simp [run, step, stepLive, MktDataServer.start, MktDataServer.join, hc, hidle, hret, hrun]

/-- One message sent, `run` returned, `start` again. -/
theorem start_after_run_terminates_one_message :
    ∃ s, init.run ⟨1, ⟨0, rfl⟩⟩
        [.setMessageCount 1, .start, .run 0 0, .run 0 0, .run 0 0, .run 0 0] = some s ∧
      s.crashed = none ∧ s.caller = .idle ∧ s.server.thread = .returned ∧
      (s.step ⟨1, ⟨0, rfl⟩⟩ .start).map (·.crashed) = some (some .terminate) ∧
      (s.run ⟨1, ⟨0, rfl⟩⟩ [.waitForComplete, .join, .start]).map
          (fun s' => (s'.crashed, s'.server.running, s'.server.sentCount, s'.server.thread)) =
        some (none, true, 0, .starting) :=
  ⟨_, rfl, rfl, rfl, rfl, start_after_run_terminates (@reachable_of_run ⟨1, ⟨0, rfl⟩⟩ _
    [.setMessageCount 1, .start, .run 0 0, .run 0 0, .run 0 0, .run 0 0] rfl) rfl rfl rfl⟩

/-- **Every message count and rate leads to the crash**: set the count and a non-zero
rate, `start`, let `run` push every message and return, and `start` again: the process
terminates. -/
theorem restart_terminates (messageCount messageRate : Int) (hr : messageRate ≠ 0) :
    ((init.run C ([.setMessageCount messageCount, .setMessageRate messageRate, .start] ++
        List.replicate (2 * messageCount.toNat + 2) (.run 0 0) ++ [.start])).map
      (·.crashed)) = some (some .terminate) := by
  let v₀ : MktDataServer := { MktDataServer.new with
    messageCount := messageCount, messageRate := messageRate, running := true
    thread := .starting }
  let s₀ : ServerSys := ⟨v₀, .idle, none, []⟩
  have h₀ : init.run C [.setMessageCount messageCount, .setMessageRate messageRate, .start,
      .run 0 0] = some { s₀ with server := { s₀.server with thread := .loop 0 } } := by
    simp [run, step, stepLive, init, MktDataServer.new, MktDataServer.start,
      MktDataServer.setMessageCount, MktDataServer.setMessageRate, MktDataServer.runStep,
      MktDataServer.pushedBy, s₀, v₀, hr]
  obtain ⟨s', h', hc', hth', hs', hm', hcl'⟩ := run_loop (C := C) messageCount.toNat
    (s := { s₀ with server := { s₀.server with thread := .loop 0 } }) rfl rfl rfl (by simp)
  have hend := step_loop_returned (C := C) (t := 0) (p := 0) hc' hth' (.inl (by
    simp only [hm']; omega))
  have hl : ([.setMessageCount messageCount, .setMessageRate messageRate, .start] ++
      List.replicate (2 * messageCount.toNat + 2) (.run 0 0) ++ [.start] : List ServerEvent) =
      [.setMessageCount messageCount, .setMessageRate messageRate, .start, .run 0 0] ++
        (List.replicate (2 * messageCount.toNat) (.run 0 0) ++ [.run 0 0, .start]) := by
    rw [List.replicate_succ', List.replicate_succ]
    simp
  rw [hl, run_append, h₀, Option.some_bind, run_append, h', Option.some_bind]
  simp only [run, hend, Option.some_bind]
  simp [step, stepLive, MktDataServer.start, hcl', hc']

/-- Two messages at 1000 a second. -/
theorem restart_terminates_two_messages :
    (1000 : Int) ≠ 0 ∧
    ((init.run ⟨1, ⟨0, rfl⟩⟩ ([.setMessageCount 2, .setMessageRate 1000, .start] ++
        List.replicate (2 * (2 : Int).toNat + 2) (.run 0 0) ++ [.start])).map
      (·.crashed)) = some (some .terminate) :=
  ⟨by decide, restart_terminates 2 1000 (by decide)⟩

/-- **`stop` returns after at most three steps of the server's thread**: the thread sees
`stop_requested_` at its next loop check; then the join returns and the server is stopped,
with no thread and `running_` clear, and at most one more message pushed.  When the thread
is at the interval the rate must not be zero: the process dies there otherwise. -/
theorem stop_returns (hc : s.crashed = none) (hidle : s.caller = .idle)
    (hr : s.server.thread = .starting → s.server.messageRate ≠ 0) :
    ∃ k ≤ 3, ∃ s', s.run C (.stop :: List.replicate k (.run 0 0) ++ [.join]) = some s' ∧
      s'.crashed = none ∧ s'.caller = .idle ∧ s'.server.running = false ∧
      s'.server.thread = .none ∧ s'.produced.length ≤ s.produced.length + 1 := by
  cases hth : s.server.thread with
  | none | returned => exact ⟨0, by omega, by simp [run, step, stepLive,
      MktDataServer.requestStop, MktDataServer.join, hc, hidle, hth]⟩
  | starting => exact ⟨2, by omega, by simp [run, step, stepLive, MktDataServer.requestStop,
      MktDataServer.runStep, MktDataServer.pushedBy, MktDataServer.join, hc, hidle, hth, hr hth]⟩
  | loop i => exact ⟨1, by omega, by simp [run, step, stepLive, MktDataServer.requestStop,
      MktDataServer.runStep, MktDataServer.pushedBy, MktDataServer.join, hc, hidle, hth]⟩
  | pushing i => exact ⟨2, by omega, by simp [run, step, stepLive, MktDataServer.requestStop,
      MktDataServer.runStep, MktDataServer.pushedBy, MktDataServer.join, hc, hidle, hth]⟩

/-- `stop` while the thread is about to push the first of three messages. -/
theorem stop_returns_while_pushing :
    ∃ s, init.run ⟨1, ⟨0, rfl⟩⟩ [.setMessageCount 3, .start, .run 0 0, .run 0 0] = some s ∧
      s.crashed = none ∧ s.caller = .idle ∧
      (s.server.thread = .starting → s.server.messageRate ≠ 0) ∧
      ∃ k ≤ 3, ∃ s', s.run ⟨1, ⟨0, rfl⟩⟩ (.stop :: List.replicate k (.run 0 0) ++ [.join]) =
          some s' ∧
        s'.crashed = none ∧ s'.caller = .idle ∧ s'.server.running = false ∧
        s'.server.thread = .none ∧ s'.produced.length ≤ s.produced.length + 1 :=
  ⟨_, rfl, rfl, rfl, nofun, stop_returns rfl rfl nofun⟩

end ServerSys

end Replay
