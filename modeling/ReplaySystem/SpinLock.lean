import Mathlib.Logic.Relation
import Mathlib.Logic.Function.Basic
import Mathlib.Data.List.FinRange

/-!
# The spin lock

`common/SpinLock.hpp`: `SpinLock` is one atomic flag, set while a thread holds the lock.
`lock` spins in a test-and-test-and-set loop: a relaxed load, and only when that load sees
the flag clear an `exchange(true)`, which takes the lock when it returns `false`; otherwise
it yields and starts again.  `try_lock` makes the same load and exchange once and returns
`false` instead of spinning.  `unlock` stores `false`.  `SpinLockGuard` locks in its
constructor and unlocks in its destructor.

Threads use the lock as the guard does: `lock`, or a `try_lock` that returns `true`, then
the critical section, then `unlock`.  Each load, exchange and store of the flag is one
atomic step; the memory orders are not modelled.

What a lock is for is the abstract `Mutex`: an owner or none, taken only when free and
released only by its owner.  The threads over the spin lock refine it.

## Main definitions

* `SpinLock` with `exchange` and `unlock`; `lockStep` — one step of `lock` or `try_lock`.
* `LockSys`, `LockSys.step`, `LockSys.Reachable` — `n` threads and the lock.
* `Mutex` — the abstract lock; `LockSys.holder` — the thread in its critical section.

## Main results

* `LockSys.mutual_exclusion` — at most one thread is in its critical section, and the flag
  is set exactly then.
* `LockSys.refines_mutex` — every run of the threads is matched, event for event, by a run of
  the abstract mutex in which each event is a stutter or its own thread's operation.
* `LockSys.lock_acquirable` — a thread in `lock` can always get the lock.
* `LockSys.tryLock_fails_only_if_held` — `try_lock` returns `false` only while another
  thread holds the lock.
-/

namespace Replay

/-- `SpinLock`: the flag `flag_`. -/
structure SpinLock where
  flag : Bool
  deriving DecidableEq, Repr

namespace SpinLock

/-- The constructor's lock, `flag_(false)`. -/
def new : SpinLock := ⟨false⟩

/-- `flag_.exchange(true)`: set the flag, returning what it held. -/
def exchange (l : SpinLock) : Bool × SpinLock := (l.flag, ⟨true⟩)

/-- `unlock`: `flag_.store(false)`. -/
def unlock (_ : SpinLock) : SpinLock := ⟨false⟩

end SpinLock

/-- Where a thread is with respect to the lock. -/
inductive ThreadPc
  /-- Outside the lock's code, not holding the lock. -/
  | idle
  /-- At `lock`'s loop head: the relaxed load is next. -/
  | testing
  /-- `lock`'s load saw the flag clear: the exchange is next. -/
  | exchanging
  /-- In `try_lock`: the load is next. -/
  | tryTesting
  /-- `try_lock`'s load saw the flag clear: the exchange is next. -/
  | tryExchanging
  /-- `lock` returned, or `try_lock` returned `true`: the critical section. -/
  | holding
  deriving DecidableEq, Repr

/-- One step of a thread in `lock` or `try_lock`: the load, which leads on to the exchange
only when it sees the flag clear; the exchange, which takes the lock when it returns
`false`.  A failed step of `lock` yields and goes back to its loop head; a failed step of
`try_lock` returns `false`. -/
def lockStep (l : SpinLock) : ThreadPc → Option (SpinLock × ThreadPc)
  | .testing => some (l, if !l.flag then .exchanging else .testing)
  | .exchanging => some (l.exchange.2, if !l.exchange.1 then .holding else .testing)
  | .tryTesting => some (l, if l.flag then .idle else .tryExchanging)
  | .tryExchanging => some (l.exchange.2, if !l.exchange.1 then .holding else .idle)
  | .idle | .holding => none

/-- `n` threads sharing one spin lock. -/
structure LockSys (n : Nat) where
  lock : SpinLock
  pc : Fin n → ThreadPc

/-- What can happen next. -/
inductive LockEvent (n : Nat)
  /-- Thread `t` calls `lock`, as `SpinLockGuard`'s constructor does. -/
  | lock (t : Fin n)
  /-- Thread `t` calls `try_lock`. -/
  | tryLock (t : Fin n)
  /-- Thread `t` takes its next step in `lock` or `try_lock`. -/
  | step (t : Fin n)
  /-- Thread `t` leaves its critical section and calls `unlock`, as the guard's destructor
  does. -/
  | unlock (t : Fin n)
  deriving DecidableEq, Repr

/-- The thread an event is a step of. -/
def LockEvent.thread {n : Nat} : LockEvent n → Fin n
  | .lock t | .tryLock t | .step t | .unlock t => t

namespace LockSys

variable {n : Nat}

/-- No thread near the lock, the flag clear. -/
def init : LockSys n := ⟨SpinLock.new, fun _ => .idle⟩

/-- Thread `t` moves to `pc`. -/
def setPc (s : LockSys n) (t : Fin n) (pc : ThreadPc) : LockSys n :=
  { s with pc := Function.update s.pc t pc }

@[simp] theorem setPc_lock (s : LockSys n) (t : Fin n) (pc : ThreadPc) :
    (s.setPc t pc).lock = s.lock := rfl

@[simp] theorem setPc_pc (s : LockSys n) (t u : Fin n) (pc : ThreadPc) :
    (s.setPc t pc).pc u = if u = t then pc else s.pc u :=
  Function.update_apply _ _ _ _

/-- One event; `none` when thread `t` cannot take it. -/
def step (s : LockSys n) : LockEvent n → Option (LockSys n)
  | .lock t => if s.pc t = .idle then some (s.setPc t .testing) else none
  | .tryLock t => if s.pc t = .idle then some (s.setPc t .tryTesting) else none
  | .step t => (lockStep s.lock (s.pc t)).map fun r => { s.setPc t r.2 with lock := r.1 }
  | .unlock t =>
    if s.pc t = .holding then some { s.setPc t .idle with lock := s.lock.unlock } else none

/-- Take the events in turn; `none` as soon as one cannot happen. -/
def run (s : LockSys n) : List (LockEvent n) → Option (LockSys n)
  | [] => some s
  | e :: es => (s.step e).bind fun s' => run s' es

/-- One event of some thread. -/
def Next (s s' : LockSys n) : Prop := ∃ e, s.step e = some s'

/-- The states the threads reach from `init`, in any interleaving. -/
def Reachable (s : LockSys n) : Prop := Relation.ReflTransGen Next init s

/-! ### One step -/

/-- A step of `lock` or `try_lock` starts outside the critical section, and either leaves
the flag as it was and does not enter it, or finds the flag clear, sets it and enters. -/
theorem lockStep_cases {l : SpinLock} {pc : ThreadPc} {r : SpinLock × ThreadPc}
    (h : lockStep l pc = some r) :
    pc ≠ .holding ∧
      ((∃ pc', pc' ≠ .holding ∧ r = (l, pc')) ∨ (l.flag = false ∧ r = (⟨true⟩, .holding))) := by
  rcases l with ⟨_ | _⟩ <;> cases pc <;> simp [lockStep, SpinLock.exchange] at h ⊢ <;>
    subst h <;> simp

/-- A step of a thread that ends outside the lock is a `try_lock` that found the flag set. -/
theorem lockStep_idle {l l' : SpinLock} {pc : ThreadPc} (h : lockStep l pc = some (l', .idle)) :
    l.flag = true ∧ (pc = .tryTesting ∨ pc = .tryExchanging) := by
  rcases l with ⟨_ | _⟩ <;> cases pc <;> simp [lockStep, SpinLock.exchange] at h ⊢

/-- **Everything one event can do**: move its thread outside the critical section and leave
the flag; take the lock, from a clear flag; or release it, from the critical section. -/
theorem step_cases {s s' : LockSys n} {e : LockEvent n} (h : s.step e = some s') :
    (s.pc e.thread ≠ .holding ∧ ∃ pc, pc ≠ .holding ∧ s' = s.setPc e.thread pc) ∨
    (s.pc e.thread ≠ .holding ∧ s.lock.flag = false ∧
      s' = { s.setPc e.thread .holding with lock := ⟨true⟩ }) ∨
    (s.pc e.thread = .holding ∧ s' = { s.setPc e.thread .idle with lock := ⟨false⟩ }) := by
  cases e with
  | lock t | tryLock t =>
    simp only [step] at h
    split_ifs at h with hi
    cases h
    exact .inl ⟨by simp [LockEvent.thread, hi], _, by simp, rfl⟩
  | step t =>
    obtain ⟨r, hr, rfl⟩ := Option.map_eq_some'.mp h
    obtain ⟨hpc, ⟨pc, hp, rfl⟩ | ⟨hf, rfl⟩⟩ := lockStep_cases hr
    · exact .inl ⟨hpc, pc, hp, rfl⟩
    · exact .inr (.inl ⟨hpc, hf, rfl⟩)
  | unlock t =>
    simp only [step] at h
    split_ifs at h with hi
    cases h
    exact .inr (.inr ⟨hi, rfl⟩)

/-! ### Mutual exclusion -/

/-- The invariant of the lock: the flag is set exactly while some thread is in its
critical section, and no two threads are. -/
structure Inv (s : LockSys n) : Prop where
  flag : s.lock.flag = true ↔ ∃ t, s.pc t = .holding
  unique : ∀ t u, s.pc t = .holding → s.pc u = .holding → t = u

theorem holding_setPc {s : LockSys n} {t : Fin n} {pc : ThreadPc} (ht : s.pc t ≠ .holding)
    (hp : pc ≠ .holding) (u : Fin n) : (s.setPc t pc).pc u = .holding ↔ s.pc u = .holding := by
  by_cases hu : u = t
  · subst hu; simp [ht, hp]
  · simp [hu]

theorem Inv.setPc {s : LockSys n} (h : Inv s) {t : Fin n} {pc : ThreadPc}
    (ht : s.pc t ≠ .holding) (hp : pc ≠ .holding) : Inv (s.setPc t pc) where
  flag := by simp only [holding_setPc ht hp, setPc_lock, h.flag]
  unique u v := by simpa only [holding_setPc ht hp] using h.unique u v

theorem Inv.acquire {s : LockSys n} (h : Inv s) (hf : s.lock.flag = false) (t : Fin n) :
    Inv { s.setPc t .holding with lock := ⟨true⟩ } := by
  have honly : ∀ u, (s.setPc t .holding).pc u = .holding → u = t := fun u hu => by
    by_contra hne
    simp only [setPc_pc, if_neg hne] at hu
    exact absurd (h.flag.mpr ⟨u, hu⟩) (by simp [hf])
  exact ⟨by simp only [true_iff]; exact ⟨t, by simp⟩,
    fun u v hu hv => (honly u hu).trans (honly v hv).symm⟩

theorem Inv.release {s : LockSys n} (h : Inv s) {t : Fin n} (ht : s.pc t = .holding) :
    Inv { s.setPc t .idle with lock := ⟨false⟩ } := by
  have hnone : ∀ u, (s.setPc t .idle).pc u ≠ .holding := fun u hu => by
    by_cases hne : u = t
    · simp [hne] at hu
    · simp only [setPc_pc, if_neg hne] at hu
      exact hne (h.unique u t hu ht)
  exact ⟨by simpa using hnone, fun u _ hu => absurd hu (hnone u)⟩

theorem Inv.step {s s' : LockSys n} (h : Inv s) {e : LockEvent n} (hs : s.step e = some s') :
    Inv s' := by
  rcases step_cases hs with ⟨ht, pc, hp, rfl⟩ | ⟨-, hf, rfl⟩ | ⟨ht, rfl⟩
  exacts [h.setPc ht hp, h.acquire hf _, h.release ht]

theorem init_inv : Inv (init : LockSys n) := ⟨by simp [init, SpinLock.new], by simp [init]⟩

theorem reachable_of_run {s : LockSys n} {es : List (LockEvent n)} (h : init.run es = some s) :
    Reachable s := by
  suffices ∀ es s₀, Reachable s₀ → s₀.run es = some s → Reachable s from this es _ .refl h
  intro es
  induction es with
  | nil => intro s₀ h₀ h; cases h; exact h₀
  | cons e es ih =>
    intro s₀ h₀ h
    obtain ⟨s₁, h₁, h₂⟩ := Option.bind_eq_some.mp h
    exact ih s₁ (.tail h₀ ⟨e, h₁⟩) h₂

theorem reachable_inv {s : LockSys n} (hs : Reachable s) : Inv s := by
  induction hs with
  | refl => exact init_inv
  | tail _ hn ih => obtain ⟨e, he⟩ := hn; exact ih.step he

/-- **Mutual exclusion**: in every interleaving, at most one thread is in its critical
section, and the flag is set exactly while one is. -/
theorem mutual_exclusion {s : LockSys n} (hs : Reachable s) :
    (s.lock.flag = true ↔ ∃ t, s.pc t = .holding) ∧
      ∀ t u, s.pc t = .holding → s.pc u = .holding → t = u :=
  let h := reachable_inv hs
  ⟨h.flag, h.unique⟩

/-- Both threads see the flag clear and exchange; only the first takes the lock. -/
theorem mutual_exclusion_two_threads :
    ∃ s, (init : LockSys 2).run [.lock 0, .lock 1, .step 0, .step 1, .step 0, .step 1] = some s ∧
      s.pc 1 = .testing ∧
      (s.lock.flag = true ↔ ∃ t, s.pc t = .holding) ∧
        ∀ t u, s.pc t = .holding → s.pc u = .holding → t = u :=
  ⟨_, rfl, rfl, mutual_exclusion (@reachable_of_run _ _
    [.lock 0, .lock 1, .step 0, .step 1, .step 0, .step 1] rfl)⟩

/-! ### The abstract mutex -/

/-- The thread in its critical section, if any. -/
def holder (s : LockSys n) : Option (Fin n) := (List.finRange n).find? fun t => s.pc t = .holding

theorem holder_eq_none {s : LockSys n} : s.holder = none ↔ ∀ t, s.pc t ≠ .holding := by
  simp [holder, List.find?_eq_none]

theorem Inv.holder_eq_some {s : LockSys n} (h : Inv s) {t : Fin n} :
    s.holder = some t ↔ s.pc t = .holding := by
  constructor
  · intro ht
    simpa using List.find?_some ht
  · intro ht
    obtain ⟨u, hu⟩ :=
      Option.ne_none_iff_exists'.mp (mt holder_eq_none.mp (not_forall_not.mpr ⟨t, ht⟩))
    rw [hu, h.unique u t (by simpa using List.find?_some hu) ht]

theorem holder_setPc {s : LockSys n} {t : Fin n} {pc : ThreadPc} (ht : s.pc t ≠ .holding)
    (hp : pc ≠ .holding) : (s.setPc t pc).holder = s.holder := by
  simp only [holder, holding_setPc ht hp]

end LockSys

/-- What a lock is for: a mutex with at most one owner. -/
structure Mutex (n : Nat) where
  owner : Option (Fin n)
  deriving DecidableEq, Repr

namespace Mutex

variable {n : Nat}

/-- Thread `t` takes a free mutex. -/
def acquire (m : Mutex n) (t : Fin n) : Option (Mutex n) :=
  if m.owner = none then some ⟨some t⟩ else none

/-- The owner `t` releases the mutex. -/
def release (m : Mutex n) (t : Fin n) : Option (Mutex n) :=
  if m.owner = some t then some ⟨none⟩ else none

/-- An operation on the mutex, made by one thread. -/
inductive Op (n : Nat)
  | acquire (t : Fin n)
  | release (t : Fin n)
  deriving DecidableEq, Repr

/-- The thread that makes an operation. -/
def Op.thread : Op n → Fin n
  | .acquire t | .release t => t

/-- One entry of a labelled run: `none` is a stutter, `some o` makes the operation `o`. -/
def step (m : Mutex n) : Option (Op n) → Option (Mutex n)
  | none => some m
  | some (.acquire t) => m.acquire t
  | some (.release t) => m.release t

/-- Take the entries in turn; `none` as soon as an operation cannot be made. -/
def run (m : Mutex n) : List (Option (Op n)) → Option (Mutex n)
  | [] => some m
  | o :: os => (m.step o).bind fun m' => run m' os

end Mutex

namespace LockSys

variable {n : Nat}

/-- **Each event is a stutter of the abstract mutex or an operation of its own thread**: the
exchange that finds the flag clear acquires the mutex for its thread, `unlock` releases it
for its owner, and every other event leaves the owner as it is. -/
theorem step_refines {s s' : LockSys n} (h : Inv s) {e : LockEvent n}
    (hs : s.step e = some s') :
    ∃ o : Option (Mutex.Op n), (∀ op ∈ o, op.thread = e.thread) ∧
      (⟨s.holder⟩ : Mutex n).step o = some ⟨s'.holder⟩ := by
  have h' := h.step hs
  rcases step_cases hs with ⟨ht, pc, hp, rfl⟩ | ⟨-, hf, rfl⟩ | ⟨ht, rfl⟩
  · exact ⟨none, by simp, by simp [Mutex.step, holder_setPc ht hp]⟩
  · have h0 : s.holder = none := holder_eq_none.mpr fun u hu => by simp [h.flag.mpr ⟨u, hu⟩] at hf
    have h1 :=
      h'.holder_eq_some.mpr (show (s.setPc e.thread .holding).pc e.thread = .holding by simp)
    exact ⟨some (.acquire e.thread), by simp [Mutex.Op.thread],
      by simp [Mutex.step, Mutex.acquire, h0, h1]⟩
  · have h0 := h.holder_eq_some.mpr ht
    have h1 := holder_eq_none.mpr fun u hu => by simpa using h'.flag.mpr ⟨u, hu⟩
    exact ⟨some (.release e.thread), by simp [Mutex.Op.thread],
      by simp [Mutex.step, Mutex.release, h0, h1]⟩

/-- A run of the threads from a state with the invariant is matched, event for event, by a
labelled run of the mutex from its holder: after every prefix of the events, the same prefix
of the labels takes the mutex to the holder the threads have reached. -/
theorem run_refines {s₀ s : LockSys n} {es : List (LockEvent n)} (h₀ : Inv s₀)
    (h : s₀.run es = some s) :
    ∃ os : List (Option (Mutex.Op n)),
      List.Forall₂ (fun e o => ∀ op ∈ o, Mutex.Op.thread op = LockEvent.thread e) es os ∧
      ∀ k, (s₀.run (es.take k)).map (fun s => (⟨s.holder⟩ : Mutex n)) =
        Mutex.run ⟨s₀.holder⟩ (os.take k) := by
  induction es generalizing s₀ with
  | nil => exact ⟨[], .nil, fun k => by simp [run, Mutex.run]⟩
  | cons e es ih =>
    obtain ⟨s₁, h₁, hr⟩ := Option.bind_eq_some.mp h
    obtain ⟨o, ho, hm⟩ := step_refines h₀ h₁
    obtain ⟨os, hos, hk⟩ := ih (h₀.step h₁) hr
    refine ⟨o :: os, .cons ho hos, fun k => ?_⟩
    cases k with
    | zero => simp [run, Mutex.run]
    | succ k => simpa [run, Mutex.run, h₁, hm] using hk k

/-- **The spin lock refines the mutex**: every run of the threads from the start is matched,
event for event, by a run of the abstract mutex from no owner in which each event is a
stutter or an operation of the event's own thread, and after every prefix of the run the
mutex's owner is the thread in its critical section. -/
theorem refines_mutex {s : LockSys n} {es : List (LockEvent n)} (h : init.run es = some s) :
    ∃ os : List (Option (Mutex.Op n)),
      List.Forall₂ (fun e o => ∀ op ∈ o, Mutex.Op.thread op = LockEvent.thread e) es os ∧
      Mutex.run ⟨none⟩ os = some ⟨s.holder⟩ ∧
      ∀ k, (init.run (es.take k)).map (fun s => (⟨s.holder⟩ : Mutex n)) =
        Mutex.run ⟨none⟩ (os.take k) := by
  have h0 : (init : LockSys n).holder = none := holder_eq_none.mpr fun _ => by simp [init]
  obtain ⟨os, hos, hk⟩ := run_refines init_inv h
  rw [h0] at hk
  have hend := hk es.length
  rw [List.take_length, h, hos.length_eq, List.take_length] at hend
  exact ⟨os, hos, hend.symm, hk⟩

/-- Thread 0 wins the exchange, unlocks, and thread 1, back at its loop head, then takes the
lock: the mutex is acquired by 0, released by 0 and acquired by 1. -/
theorem refines_mutex_two_threads :
    ∃ s, (init : LockSys 2).run
        [.lock 0, .lock 1, .step 0, .step 1, .step 0, .step 1, .unlock 0, .step 1, .step 1] =
        some s ∧ s.holder = some 1 ∧
      ∃ os : List (Option (Mutex.Op 2)),
        List.Forall₂ (fun e o => ∀ op ∈ o, Mutex.Op.thread op = LockEvent.thread e)
          [.lock 0, .lock 1, .step 0, .step 1, .step 0, .step 1, .unlock 0, .step 1, .step 1] os ∧
        Mutex.run ⟨none⟩ os = some ⟨s.holder⟩ ∧
        ∀ k, (init.run ([.lock 0, .lock 1, .step 0, .step 1, .step 0, .step 1, .unlock 0, .step 1,
            .step 1].take k)).map (fun s => (⟨s.holder⟩ : Mutex 2)) =
          Mutex.run ⟨none⟩ (os.take k) :=
  ⟨_, rfl, rfl, refines_mutex (@rfl _ ((init : LockSys 2).run
    [.lock 0, .lock 1, .step 0, .step 1, .step 0, .step 1, .unlock 0, .step 1, .step 1]))⟩

/-! ### Progress -/

/-- From a clear flag, `lock` takes the lock in at most two of its thread's steps. -/
theorem lock_of_clear {s : LockSys n} {t : Fin n} (hf : s.lock.flag = false)
    (ht : s.pc t = .testing ∨ s.pc t = .exchanging) :
    ∃ es, es.length ≤ 2 ∧ (s.run es).map (·.pc t) = some .holding := by
  rcases ht with ht | ht
  · exact ⟨[.step t, .step t], le_rfl, by simp [run, step, lockStep, ht, hf, SpinLock.exchange]⟩
  · exact ⟨[.step t], by simp, by simp [run, step, lockStep, ht, hf, SpinLock.exchange]⟩

/-- **A thread in `lock` can always get the lock**, in every reachable state: the flag is
set only while a thread holds the lock, so after at most that thread's `unlock` and two
steps of its own the thread holds the lock.  The lock never wedges with the flag set and
no thread to clear it. -/
theorem lock_acquirable {s : LockSys n} (hs : Reachable s) {t : Fin n}
    (ht : s.pc t = .testing ∨ s.pc t = .exchanging) :
    ∃ es, es.length ≤ 3 ∧ (s.run es).map (·.pc t) = some .holding := by
  cases hf : s.lock.flag
  · obtain ⟨es, hl, hr⟩ := lock_of_clear hf ht
    exact ⟨es, by omega, hr⟩
  · obtain ⟨u, hu⟩ := (reachable_inv hs).flag.mp hf
    have hne : t ≠ u := by rintro rfl; rcases ht with ht | ht <;> simp [ht] at hu
    obtain ⟨es, hl, hr⟩ := @lock_of_clear _ { s.setPc u .idle with lock := ⟨false⟩ } t rfl
      (by simpa [hne] using ht)
    refine ⟨.unlock u :: es, by simp only [List.length_cons]; omega, ?_⟩
    simpa [run, step, hu, SpinLock.unlock] using hr

/-- Thread 1 is back at `lock`'s loop head while thread 0 holds the lock. -/
theorem lock_acquirable_after_lost_exchange :
    ∃ s, (init : LockSys 2).run [.lock 0, .lock 1, .step 0, .step 1, .step 0, .step 1] = some s ∧
      s.pc 1 = .testing ∧ ∃ es, es.length ≤ 3 ∧ (s.run es).map (·.pc 1) = some .holding := by
  refine ⟨_, rfl, rfl, ?_⟩
  apply lock_acquirable
    (@reachable_of_run _ _ [.lock 0, .lock 1, .step 0, .step 1, .step 0, .step 1] ?_) (.inl rfl)
  rfl

/-- **`try_lock` returns `false` only while another thread holds the lock**: a step of
thread `t` that ends outside the lock is a `try_lock` load or exchange that found the flag
set, and in every reachable state the flag is set only while some other thread is in its
critical section. -/
theorem tryLock_fails_only_if_held {s s' : LockSys n} (hs : Reachable s) {t : Fin n}
    (hstep : s.step (.step t) = some s') (hx : s'.pc t = .idle) :
    ∃ u, u ≠ t ∧ s.pc u = .holding := by
  obtain ⟨r, hr, rfl⟩ := Option.map_eq_some'.mp hstep
  obtain ⟨l, pc⟩ := r
  obtain rfl : pc = .idle := by simpa using hx
  obtain ⟨hf, hpc⟩ := lockStep_idle hr
  obtain ⟨u, hu⟩ := (reachable_inv hs).flag.mp hf
  exact ⟨u, by rintro rfl; rcases hpc with h | h <;> simp [h] at hu, hu⟩

/-- Thread 0 holds the lock; thread 1's `try_lock` loads the flag and returns `false`. -/
theorem tryLock_fails_while_thread_zero_holds :
    ∃ s s', (init : LockSys 2).run [.lock 0, .step 0, .step 0, .tryLock 1] = some s ∧
      s.step (.step 1) = some s' ∧ s'.pc 1 = .idle ∧ ∃ u, u ≠ 1 ∧ s.pc u = .holding := by
  refine ⟨_, _, rfl, rfl, rfl, ?_⟩
  apply tryLock_fails_only_if_held
    (@reachable_of_run _ _ [.lock 0, .step 0, .step 0, .tryLock 1] ?_) ?_ ?_
  all_goals try rfl

end LockSys

end Replay
