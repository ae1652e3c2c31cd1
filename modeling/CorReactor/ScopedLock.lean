import CorReactor.Counting
import CorReactor.Transition
import Mathlib.Logic.Function.Basic

set_option autoImplicit false

/-! The locks of `thread.h` and their guards, on any number of threads. -/

namespace CorReactor

/-- What a guard asks its mutex for: `lock` or `wrlock`, or `rdlock`. -/
inductive LockMode
  | exclusive
  | shared
  deriving DecidableEq

/-- A mutex class. `lock` is one try, `none` where it waits or spins on, or where the class has
no such function; `unlock` is `none` where it is undefined. `writer` and `readers` say who is
inside. -/
structure MutexType (σ : Type) where
  init : σ
  lock : LockMode → σ → Option σ
  unlock : σ → Option σ
  writer : σ → Bool
  readers : σ → Nat
  init_free : writer init = false ∧ readers init = 0
  lock_exclusive : ∀ s s', lock .exclusive s = some s' →
    writer s = false ∧ readers s = 0 ∧ writer s' = true ∧ readers s' = 0
  lock_shared : ∀ s s', lock .shared s = some s' →
    writer s = false ∧ writer s' = false ∧ readers s' = readers s + 1
  lock_free : ∀ s, writer s = false → readers s = 0 → (lock .exclusive s).isSome
  unlock_writer : ∀ s, writer s = true → readers s = 0 →
    ∃ s', unlock s = some s' ∧ writer s' = false ∧ readers s' = 0
  unlock_reader : ∀ s, writer s = false → 0 < readers s →
    ∃ s', unlock s = some s' ∧ writer s' = false ∧ readers s' = readers s - 1

/-- `pthread_mutex_t` or `pthread_spinlock_t`: whether it is locked. -/
def Mutex : MutexType Bool where
  init := false
  lock
    | .exclusive, locked => if locked then none else some true
    | .shared, _ => none
  unlock locked := if locked then some false else none
  writer := id
  readers _ := 0
  init_free := ⟨rfl, rfl⟩
  lock_exclusive := by
    rintro (_ | _) s' taken <;> cases taken
    exact ⟨rfl, rfl, rfl, rfl⟩
  lock_shared := by
    rintro s s' ⟨⟩
  lock_free := by
    rintro (_ | _) free - <;> first | rfl | cases free
  unlock_writer := by
    rintro (_ | _) locked - <;> first | exact ⟨false, rfl, rfl, rfl⟩ | cases locked
  unlock_reader := by
    rintro s - ⟨⟩

/-- `CASLock`: a turn of its loop sets the flag and leaves the loop if it was clear. -/
def CASLock : MutexType Bool where
  init := false
  lock
    | .exclusive, m_mutex => if m_mutex then none else some true
    | .shared, _ => none
  unlock _ := some false
  writer := id
  readers _ := 0
  init_free := ⟨rfl, rfl⟩
  lock_exclusive := Mutex.lock_exclusive
  lock_shared := Mutex.lock_shared
  lock_free := Mutex.lock_free
  unlock_writer _ _ _ := ⟨false, rfl, rfl, rfl⟩
  unlock_reader := by
    rintro s - ⟨⟩

/-- `pthread_rwlock_t`: whether it is locked for writing, and how often for reading. -/
def RWMutex : MutexType (Bool × Nat) where
  init := (false, 0)
  lock
    | .exclusive, (writer, readers) =>
        if writer || readers != 0 then none else some (true, 0)
    | .shared, (writer, readers) => if writer then none else some (false, readers + 1)
  unlock := fun (writer, readers) =>
    if writer then some (false, readers)
    else if readers = 0 then none else some (false, readers - 1)
  writer := Prod.fst
  readers := Prod.snd
  init_free := ⟨rfl, rfl⟩
  lock_exclusive := by
    rintro ⟨_ | _, _ | readers⟩ s' taken <;> cases taken
    exact ⟨rfl, rfl, rfl, rfl⟩
  lock_shared := by
    rintro ⟨_ | _, readers⟩ s' taken <;> cases taken
    exact ⟨rfl, rfl, rfl⟩
  lock_free := by
    rintro ⟨writer, readers⟩ free none
    obtain rfl : writer = false := free
    obtain rfl : readers = 0 := none
    rfl
  unlock_writer := by
    rintro ⟨writer, readers⟩ locked none
    obtain rfl : writer = true := locked
    exact ⟨(false, readers), rfl, rfl, none⟩
  unlock_reader := by
    rintro ⟨writer, readers⟩ free some_reader
    obtain rfl : writer = false := free
    exact ⟨(false, readers - 1), if_neg (Nat.ne_of_gt some_reader), rfl, rfl⟩

/-- Where the owner of a guard is in its functions. -/
inductive GuardPc
  | absent
  | locking
  | locked
  | settled
  | unlocked
  deriving DecidableEq

/-- A `ScopedLockImpl`, `ReadScopedLockImpl` or `WriteScopedLockImpl`. -/
structure ScopedLockImpl where
  mode : LockMode := .exclusive
  m_locked : Bool := false
  pc : GuardPc := .absent
  deriving DecidableEq

/-- The guard has the mutex. -/
def ScopedLockImpl.holds (guard : ScopedLockImpl) : Bool :=
  guard.pc = .locked || (guard.pc = .settled && guard.m_locked)

/-- A mutex and the guards on it, each in one thread; a thread may have several. -/
structure Locking (σ : Type) where
  mutex : σ
  guard : Nat → ScopedLockImpl

/-- The steps of a guard's owner. `lock_` and `unlock_` are the calls, `acquire` is a try that the
mutex lets through, and `setLocked` and `clearLocked` are the assignments behind the calls of the
mutex. -/
inductive LockOp
  | construct (guard : Nat) (mode : LockMode)
  | acquire (guard : Nat)
  | setLocked (guard : Nat)
  | lock_ (guard : Nat)
  | unlock_ (guard : Nat)
  | clearLocked (guard : Nat)
  | destruct (guard : Nat)
  deriving DecidableEq

def LockOp.guard : LockOp → Nat
  | .construct g _ | .acquire g | .setLocked g | .lock_ g | .unlock_ g | .clearLocked g
  | .destruct g => g

namespace Locking

variable {σ : Type} (M : MutexType σ)

def boot : Locking σ := ⟨M.init, fun _ => {}⟩

variable {M}

def put (s : Locking σ) (g : Nat) (guard : ScopedLockImpl) : Locking σ :=
  { s with guard := Function.update s.guard g guard }

variable (M)

/-- A step; `none` where the mutex keeps the owner waiting, or for an undefined `unlock`. The
destructor calls `unlock` first, and `lock` and `unlock` do nothing where there is nothing to
do. -/
def exec (s : Locking σ) : LockOp → Option (Locking σ)
  | .construct g mode =>
      if (s.guard g).pc = .absent then
        some (s.put g { s.guard g with mode := mode, pc := .locking })
      else none
  | .acquire g =>
      if (s.guard g).pc = .locking then
        (M.lock (s.guard g).mode s.mutex).map fun mutex =>
          { s with mutex := mutex }.put g { s.guard g with pc := .locked }
      else none
  | .setLocked g =>
      if (s.guard g).pc = .locked then
        some (s.put g { s.guard g with m_locked := true, pc := .settled })
      else none
  | .lock_ g =>
      if (s.guard g).pc = .settled then
        some (if (s.guard g).m_locked then s else s.put g { s.guard g with pc := .locking })
      else none
  | .unlock_ g =>
      if (s.guard g).pc = .settled then
        if (s.guard g).m_locked then
          (M.unlock s.mutex).map fun mutex =>
            { s with mutex := mutex }.put g { s.guard g with pc := .unlocked }
        else some s
      else none
  | .clearLocked g =>
      if (s.guard g).pc = .unlocked then
        some (s.put g { s.guard g with m_locked := false, pc := .settled })
      else none
  | .destruct g =>
      if (s.guard g).pc = .settled ∧ (s.guard g).m_locked = false then
        some (s.put g { s.guard g with pc := .absent })
      else none

def step : Transition.Step (Locking σ) LockOp Unit := fun s op => (s.exec M op).map ((), ·)

/-! ### Who is inside -/

variable {M} {s t : Locking σ} {n g : Nat}

/-- How many guards hold the mutex in a mode. -/
def holders (s : Locking σ) (mode : LockMode) (n : Nat) : Nat :=
  Counting.count (fun g => (s.guard g).holds && decide ((s.guard g).mode = mode)) n

variable (M) in
/-- The mutex is as its `n` guards have left it. -/
structure Balanced (n : Nat) (s : Locking σ) : Prop where
  writer : (M.writer s.mutex).toNat = s.holders .exclusive n
  readers : M.readers s.mutex = s.holders .shared n
  apart : M.writer s.mutex = true → M.readers s.mutex = 0

theorem boot_balanced : (boot M).Balanced M n := by
  obtain ⟨writer, readers⟩ := M.init_free
  refine ⟨?_, ?_, fun _ => readers⟩
  · rw [boot, writer]
    exact (Counting.count_eq_zero.mpr fun _ _ => rfl).symm
  · rw [boot, readers]
    exact (Counting.count_eq_zero.mpr fun _ _ => rfl).symm

/-- One guard changes: the holders of each mode change with it. -/
theorem holders_put (here : g < n) (guard : ScopedLockImpl) (mode : LockMode) (mutex : σ) :
    ({ s with mutex := mutex }.put g guard).holders mode n +
        ((s.guard g).holds && decide ((s.guard g).mode = mode)).toNat =
      s.holders mode n + (guard.holds && decide (guard.mode = mode)).toNat := by
  have changed := Counting.count_replace
    (p := fun g => (s.guard g).holds && decide ((s.guard g).mode = mode))
    (q := fun h => (Function.update s.guard g guard h).holds &&
      decide ((Function.update s.guard g guard h).mode = mode)) here
    fun h other => by simp only [Function.update_of_ne other]
  rw [Function.update_self] at changed
  exact changed

/-- A step that neither takes nor gives back the mutex. -/
theorem Balanced.move (balanced : s.Balanced M n) (here : g < n) {guard : ScopedLockImpl}
    (same : guard.holds = (s.guard g).holds)
    (mode : guard.mode = (s.guard g).mode ∨ guard.holds = false) :
    (s.put g guard).Balanced M n := by
  have kept : ∀ m, (s.put g guard).holders m n = s.holders m n := by
    intro m
    have changed := holders_put (s := s) here guard m s.mutex
    have equal : (guard.holds && decide (guard.mode = m)) =
        ((s.guard g).holds && decide ((s.guard g).mode = m)) := by
      rcases mode with same_mode | free
      · rw [same, same_mode]
      · rw [← same, free, Bool.false_and, Bool.false_and]
    rw [equal] at changed
    exact Nat.add_right_cancel changed
  refine ⟨?_, ?_, balanced.apart⟩
  · rw [kept]
    exact balanced.writer
  · rw [kept]
    exact balanced.readers

theorem holders_gain (here : g < n) (waiting : (s.guard g).holds = false) (mode : LockMode)
    (mutex : σ) :
    ({ s with mutex := mutex }.put g { s.guard g with pc := .locked }).holders mode n =
      s.holders mode n + if (s.guard g).mode = mode then 1 else 0 := by
  have changed := holders_put (s := s) here { s.guard g with pc := .locked } mode mutex
  have inside : ({ s.guard g with pc := GuardPc.locked } : ScopedLockImpl).holds = true := rfl
  rw [waiting, inside, Bool.false_and, Bool.true_and, Bool.toNat_false, Nat.add_zero] at changed
  rw [changed]
  cases (s.guard g).mode <;> cases mode <;> rfl

theorem holders_lose (here : g < n) (holds : (s.guard g).holds = true) (mode : LockMode)
    (mutex : σ) :
    ({ s with mutex := mutex }.put g { s.guard g with pc := .unlocked }).holders mode n =
      s.holders mode n - if (s.guard g).mode = mode then 1 else 0 := by
  have changed := holders_put (s := s) here { s.guard g with pc := .unlocked } mode mutex
  have outside : ({ s.guard g with pc := GuardPc.unlocked } : ScopedLockImpl).holds = false := rfl
  rw [holds, outside, Bool.false_and, Bool.true_and, Bool.toNat_false, Nat.add_zero] at changed
  rw [← changed]
  cases (s.guard g).mode <;> cases mode <;> rfl

theorem Balanced.acquire (balanced : s.Balanced M n) (here : g < n)
    (waiting : (s.guard g).holds = false) {mutex : σ}
    (granted : M.lock (s.guard g).mode s.mutex = some mutex) :
    ({ s with mutex := mutex }.put g { s.guard g with pc := .locked }).Balanced M n := by
  have gain := fun mode => holders_gain here waiting mode mutex
  have writer := balanced.writer
  have readers := balanced.readers
  cases at_mode : (s.guard g).mode with
  | exclusive =>
      rw [at_mode] at granted
      obtain ⟨free, none_inside, taken, alone⟩ := M.lock_exclusive _ _ granted
      rw [free] at writer
      refine ⟨?_, ?_, fun _ => alone⟩
      · rw [gain, at_mode, if_pos rfl, ← writer]
        exact congrArg Bool.toNat taken
      · rw [gain, at_mode, if_neg (by decide), ← readers, none_inside]
        exact alone
  | shared =>
      rw [at_mode] at granted
      obtain ⟨free, still, more⟩ := M.lock_shared _ _ granted
      rw [free] at writer
      refine ⟨?_, ?_, ?_⟩
      · rw [gain, at_mode, if_neg (by decide), ← writer]
        exact congrArg Bool.toNat still
      · rw [gain, at_mode, if_pos rfl, ← readers]
        exact more
      · intro locked
        exact absurd (still.symm.trans locked) Bool.false_ne_true

/-- The guard that gives the mutex back has it, in its own mode. -/
theorem Balanced.inside (balanced : s.Balanced M n) (here : g < n)
    (holds : (s.guard g).holds = true) :
    match (s.guard g).mode with
    | .exclusive => M.writer s.mutex = true
    | .shared => M.writer s.mutex = false ∧ 0 < M.readers s.mutex := by
  have counted : ∀ mode, (s.guard g).mode = mode → 0 < s.holders mode n := by
    intro mode at_mode
    rw [Nat.pos_iff_ne_zero]
    intro none_inside
    have out := Counting.count_eq_zero.mp none_inside g here
    simp only [holds, at_mode, decide_true, Bool.and_self] at out
    cases out
  cases at_mode : (s.guard g).mode with
  | exclusive =>
      have some_writer := counted _ at_mode
      rw [← balanced.writer] at some_writer
      cases writer : M.writer s.mutex with
      | true => rfl
      | false =>
          rw [writer] at some_writer
          cases some_writer
  | shared =>
      have some_reader := counted _ at_mode
      rw [← balanced.readers] at some_reader
      refine ⟨?_, some_reader⟩
      cases writer : M.writer s.mutex with
      | false => rfl
      | true =>
          rw [balanced.apart writer] at some_reader
          cases some_reader

theorem Balanced.release (balanced : s.Balanced M n) (here : g < n)
    (holds : (s.guard g).holds = true) :
    ∃ mutex, M.unlock s.mutex = some mutex ∧ M.writer mutex = false ∧
      ({ s with mutex := mutex }.put g { s.guard g with pc := .unlocked }).Balanced M n := by
  have inside := balanced.inside here holds
  have lose := holders_lose here holds
  have writer := balanced.writer
  have readers := balanced.readers
  cases at_mode : (s.guard g).mode with
  | exclusive =>
      rw [at_mode] at inside
      obtain ⟨mutex, given, free, alone⟩ := M.unlock_writer _ inside (balanced.apart inside)
      rw [inside] at writer
      rw [balanced.apart inside] at readers
      refine ⟨mutex, given, free, ?_, ?_, fun _ => alone⟩
      · rw [lose, at_mode, if_pos rfl, ← writer]
        exact congrArg Bool.toNat free
      · rw [lose, at_mode, if_neg (by decide), ← readers]
        exact alone
  | shared =>
      rw [at_mode] at inside
      obtain ⟨mutex, given, free, fewer⟩ := M.unlock_reader _ inside.1 inside.2
      rw [inside.1] at writer
      refine ⟨mutex, given, free, ?_, ?_, ?_⟩
      · rw [lose, at_mode, if_neg (by decide), ← writer]
        exact congrArg Bool.toNat free
      · rw [lose, at_mode, if_pos rfl, ← readers]
        exact fewer
      · intro locked
        exact absurd (free.symm.trans locked) Bool.false_ne_true

theorem Balanced.step (balanced : s.Balanced M n) {op : LockOp} {out : Unit}
    (here : op.guard < n) (taken : step M s op = some (out, t)) : t.Balanced M n := by
  obtain ⟨t', done, same⟩ := Option.map_eq_some_iff.mp taken
  cases same
  have pc_of {g : Nat} {pc : GuardPc} (at_pc : (s.guard g).pc = pc) :
      (s.guard g).holds = (decide (pc = .locked) || (decide (pc = .settled) &&
        (s.guard g).m_locked)) := by
    rw [ScopedLockImpl.holds, at_pc]
  cases op <;> simp only [exec] at done <;> split at done
  case construct.isTrue g mode at_pc =>
      cases done
      exact balanced.move here (pc_of at_pc).symm (.inr rfl)
  case acquire.isTrue g at_pc =>
      obtain ⟨mutex, granted, rfl⟩ := Option.map_eq_some_iff.mp done
      exact balanced.acquire here (pc_of at_pc) granted
  case setLocked.isTrue g at_pc =>
      cases done
      exact balanced.move here (pc_of at_pc).symm (.inl rfl)
  case lock_.isTrue g at_pc =>
      cases done
      split
      · exact balanced
      · rename_i unlocked
        have free : (s.guard g).holds = false := by
          rw [pc_of at_pc, Bool.eq_false_iff.mpr unlocked]
          rfl
        exact balanced.move here free.symm (.inl rfl)
  case unlock_.isTrue g at_pc =>
      split at done
      · rename_i locked
        have holds : (s.guard g).holds = true := by
          rw [pc_of at_pc, locked]
          rfl
        obtain ⟨mutex, given, -, released⟩ := balanced.release here holds
        rw [given] at done
        cases done
        exact released
      · cases done
        exact balanced
  case clearLocked.isTrue g at_pc =>
      cases done
      exact balanced.move here (pc_of at_pc).symm (.inl rfl)
  case destruct.isTrue g at_pc =>
      cases done
      have free : (s.guard g).holds = false := by
        rw [pc_of at_pc.1, at_pc.2]
        rfl
      exact balanced.move here free.symm (.inl rfl)
  all_goals cases done

/-! ### Whole runs -/

end Locking

end CorReactor
