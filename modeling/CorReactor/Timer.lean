import CorReactor.OrderedSet
import CorReactor.Transition
import Mathlib.Tactic.Ring

set_option autoImplicit false

namespace CorReactor

/-- A number for each `Timer` object, in the order of creation. -/
abbrev TimerId := Nat

/-- A `Timer` object with callbacks of type `γ`; `addr` is its address, which the set
compares where the deadlines are equal. An empty `std::function` is `none`. -/
structure Timer (γ : Type) where
  addr : Nat
  m_recurring : Bool := false
  m_ms : UInt64 := 0
  m_next : UInt64 := 0
  m_cb : Option γ := none

/-- `Timer::Comparator`, on pointers that may be null. -/
def Timer.Comparator {γ : Type} : Option (Timer γ) → Option (Timer γ) → Bool
  | none, none => false
  | none, some _ => true
  | some _, none => false
  | some lhs, some rhs =>
      if lhs.m_next < rhs.m_next then true
      else if rhs.m_next < lhs.m_next then false
      else lhs.addr < rhs.addr

/-- The constructor `Timer(ms, cb, recurring, manager)`, the clock reading `now`. -/
def Timer.new {γ : Type} (addr : Nat) (now ms : UInt64) (cb : Option γ) (recurring : Bool) :
    Timer γ where
  addr := addr
  m_recurring := recurring
  m_ms := ms
  m_next := now + ms
  m_cb := cb

/-- `TimerManager` with the objects it was ever asked to create: those numbered below
`count`. -/
structure TimerManager (γ : Type) where
  timer : TimerId → Timer γ
  count : Nat
  m_timers : List TimerId
  m_tickled : Bool
  m_previouseTime : UInt64

namespace TimerManager

variable {γ : Type}

/-- The constructor `TimerManager()` at the clock reading `now`. -/
def new (now : UInt64) : TimerManager γ where
  timer := fun _ => { addr := 0 }
  count := 0
  m_timers := []
  m_tickled := false
  m_previouseTime := now

/-- The order of the set, as the objects stand. -/
def before (m : TimerManager γ) (a b : TimerId) : Bool :=
  Timer.Comparator (some (m.timer a)) (some (m.timer b))

def setTimer (m : TimerManager γ) (t : TimerId) (timer : Timer γ) : TimerManager γ :=
  { m with timer := Function.update m.timer t timer }

def insertTimer (m : TimerManager γ) (t : TimerId) : TimerManager γ :=
  { m with m_timers := OrderedSet.insert m.before m.m_timers t }

def eraseTimer (m : TimerManager γ) (t : TimerId) : TimerManager γ :=
  { m with m_timers := m.m_timers.erase t }

/-- `addTimer(ms, cb, recurring)`: the new object, and whether
`onTimerInsertedAtFront` is called. -/
def addTimer (m : TimerManager γ) (now : UInt64) (addr : Nat) (ms : UInt64) (cb : Option γ)
    (recurring : Bool) : (TimerId × Bool) × TimerManager γ :=
  let val := m.count
  let m := { m.setTimer val (Timer.new addr now ms cb recurring) with count := m.count + 1 }
  let at_front := (m.m_timers.takeWhile (m.before · val)).isEmpty && !m.m_tickled
  let m := m.insertTimer val
  ((val, at_front), if at_front then { m with m_tickled := true } else m)

/-- `Timer::cancel`; `none` is the failed assertion. -/
def cancel (m : TimerManager γ) (t : TimerId) : Option (Bool × TimerManager γ) :=
  if (m.timer t).m_cb.isSome then
    let m := m.setTimer t { m.timer t with m_cb := none }
    match OrderedSet.find? m.before m.m_timers t with
    | none => none
    | some it => some (true, m.eraseTimer it)
  else some (false, m)

/-- `Timer::refresh` at the clock reading `now`. -/
def refresh (m : TimerManager γ) (now : UInt64) (t : TimerId) : Bool × TimerManager γ :=
  if (m.timer t).m_cb.isSome then
    match OrderedSet.find? m.before m.m_timers t with
    | none => (false, m)
    | some it =>
        let m := m.eraseTimer it
        let m := m.setTimer t { m.timer t with m_next := now + (m.timer t).m_ms }
        (true, m.insertTimer t)
  else (false, m)

/-- `Timer::reset`; `now` is read only with `from_now`. -/
def reset (m : TimerManager γ) (now : UInt64) (t : TimerId) (ms : UInt64) (from_now : Bool) :
    Bool × TimerManager γ :=
  if ms = (m.timer t).m_ms ∧ from_now = false then (true, m)
  else if (m.timer t).m_cb.isSome then
    match OrderedSet.find? m.before m.m_timers t with
    | none => (false, m)
    | some it =>
        let m := m.eraseTimer it
        let start := if from_now then now else (m.timer t).m_next - (m.timer t).m_ms
        let m := m.setTimer t { m.timer t with m_ms := ms, m_next := start + ms }
        (true, m.insertTimer t)
  else (false, m)

/-- `getNextTimer` at the clock reading `now_ms`. -/
def getNextTimer (m : TimerManager γ) (now_ms : UInt64) : UInt64 × TimerManager γ :=
  let m := { m with m_tickled := false }
  match m.m_timers with
  | [] => (0xFFFFFFFFFFFFFFFF, m)
  | next :: _ =>
      if now_ms ≥ (m.timer next).m_next then (0, m) else ((m.timer next).m_next - now_ms, m)

/-- One hour, in milliseconds. -/
def hour : UInt64 := 60 * 60 * 1000

/-- What `detectClockRollover` returns; it also stores the reading. -/
def rollover (m : TimerManager γ) (now_ms : UInt64) : Bool :=
  now_ms < m.m_previouseTime && now_ms < m.m_previouseTime - hour

def detectClockRollover (m : TimerManager γ) (now_ms : UInt64) : Bool × TimerManager γ :=
  (m.rollover now_ms, { m with m_previouseTime := now_ms })

/-- The timers in front of `lower_bound(now_timer)`, where the object `now_timer` lies
at `addr`. -/
def dueBefore (m : TimerManager γ) (now_ms : UInt64) (addr : Nat) : List TimerId :=
  m.m_timers.takeWhile fun t =>
    Timer.Comparator (some (m.timer t)) (some { addr := addr, m_next := now_ms })

/-- What the loop over `expired` does with one timer. -/
def expireTimer (m : TimerManager γ) (now_ms : UInt64) (t : TimerId) : TimerManager γ :=
  let timer := m.timer t
  if timer.m_recurring then
    (m.setTimer t { timer with m_next := now_ms + timer.m_ms }).insertTimer t
  else m.setTimer t { timer with m_cb := none }

/-- The loop over `expired`: the callbacks handed out, with the timers they are of. -/
def collect (now_ms : UInt64) :
    List TimerId → TimerManager γ → List (TimerId × Option γ) × TimerManager γ
  | [], m => ([], m)
  | t :: rest, m =>
      let (cbs, last) := collect now_ms rest (m.expireTimer now_ms t)
      ((t, (m.timer t).m_cb) :: cbs, last)

/-- `listExpiredCb` at the clock reading `now_ms`; its `now_timer` lies at `addr`. -/
def listExpiredCb (m : TimerManager γ) (now_ms : UInt64) (addr : Nat) :
    List (TimerId × Option γ) × TimerManager γ :=
  match m.m_timers with
  | [] => ([], m)
  | first :: _ =>
      let (rollover, m) := m.detectClockRollover now_ms
      if !rollover && (m.timer first).m_next > now_ms then ([], m)
      else
        let expired := if rollover then m.m_timers else m.dueBefore now_ms addr
        collect now_ms expired { m with m_timers := m.m_timers.drop expired.length }

/-- No timer of the set lies at the address: what the allocator guarantees of a new
object. The address of a timer that has left the set may come back. -/
def addrFree (m : TimerManager γ) (addr : Nat) : Bool :=
  m.m_timers.all fun t => (m.timer t).addr ≠ addr

end TimerManager

/-- The operations, each atomic under `m_mutex`, with the clock reading they make and
the address of the object they allocate. -/
inductive TimerOp (γ : Type)
  | addTimer (now : UInt64) (addr : Nat) (ms : UInt64) (cb : Option γ) (recurring : Bool)
  | cancel (t : TimerId)
  | refresh (now : UInt64) (t : TimerId)
  | reset (now : UInt64) (t : TimerId) (ms : UInt64) (from_now : Bool)
  | listExpiredCb (now : UInt64) (addr : Nat)
  | getNextTimer (now : UInt64)

/-- What an operation returns. -/
inductive TimerRet (γ : Type)
  | added (t : TimerId) (at_front : Bool)
  | cancelled (t : TimerId) (done : Bool)
  | refreshed (t : TimerId) (done : Bool)
  | reset (t : TimerId) (done : Bool)
  | expired (cbs : List (TimerId × Option γ))
  | next (ms : UInt64)

/-- An operation on a timer that exists; a timer is created at a free address. -/
def TimerManager.step {γ : Type} :
    Transition.Step (TimerManager γ) (TimerOp γ) (TimerRet γ) := fun m op =>
  match op with
  | .addTimer now addr ms cb recurring =>
      if m.addrFree addr then
        let r := m.addTimer now addr ms cb recurring
        some (.added r.1.1 r.1.2, r.2)
      else none
  | .cancel t =>
      if t < m.count then (m.cancel t).map fun r => (.cancelled t r.1, r.2) else none
  | .refresh now t =>
      if t < m.count then some (.refreshed t (m.refresh now t).1, (m.refresh now t).2) else none
  | .reset now t ms from_now =>
      if t < m.count then
        some (.reset t (m.reset now t ms from_now).1, (m.reset now t ms from_now).2)
      else none
  | .listExpiredCb now addr =>
      some (.expired (m.listExpiredCb now addr).1, (m.listExpiredCb now addr).2)
  | .getNextTimer now => some (.next (m.getNextTimer now).1, (m.getNextTimer now).2)

end CorReactor
