import CorReactor.IOManager
import CorReactor.Scheduler
import CorReactor.Timer

set_option autoImplicit false

/-! `IOManager` as a whole: the scheduler, the timers and the events together, with the
reads of `stopping` and the turns of `idle` as separate steps. -/

namespace CorReactor

variable {γ : Type}

/-- Where a worker is inside `IOManager::idle`, finer than its `Pc`: at the head of the loop
or in `epoll_wait`; before the next read of `stopping`; or behind `epoll_wait`, with the
callbacks that `listExpiredCb` has handed out, or in the loop over the reported events. -/
inductive IdlePc (γ : Type)
  | loop
  | pending
  | flags
  | queue
  | active
  | cbs (cbs : List (Option γ))
  | events

/-- An `IOManager`, which is a `Scheduler` and a `TimerManager`. -/
structure Reactor (γ : Type) where
  scheduler : Scheduler γ := {}
  timers : TimerManager γ
  io : IOManager γ := .new
  idle : WorkerId → IdlePc γ := fun _ => .loop

namespace Reactor

/-- Its number among the schedulers. -/
def self : SchedulerId := 0

/-- The constructor, the clock reading `now`, and `start`. -/
def new (now : UInt64) : Reactor γ where
  timers := .new now

/-- The steps of all threads: those that the scheduler's model has, the operations on
timers and events that any task may call, and those of `idle`. -/
inductive Act (γ : Type)
  | scheduler (act : Scheduler.Act γ)
  | timer (op : TimerOp γ)
  | io (op : IOOp γ)
  | getNextTimer (w : WorkerId) (now : UInt64)
  | readPending (w : WorkerId)
  | readFlags (w : WorkerId)
  | readQueue (w : WorkerId)
  | readActive (w : WorkerId)
  | listExpiredCb (w : WorkerId) (now : UInt64) (addr : Nat)
  | scheduleCbs (w : WorkerId)
  | deliver (w : WorkerId) (fd : Nat) (events : BitVec 32) (granted : Bool)
  | idleDone (w : WorkerId)

/-- The steps of the scheduler that are not those of `idle`. -/
def ofScheduler : Scheduler.Act γ → Bool
  | .stopping .. | .idleDone _ => false
  | _ => true

/-- The operations on timers and events that are not those of `idle`. -/
def ofTimers : TimerOp γ → Bool
  | .listExpiredCb .. | .getNextTimer _ => false
  | _ => true

def ofEvents : IOOp γ → Bool
  | .deliver .. => false
  | _ => true

def setIdle (r : Reactor γ) (w : WorkerId) (pc : IdlePc γ) : Reactor γ :=
  { r with idle := Function.update r.idle w pc }

/-- A read of `stopping`: on to the next one, or `stopping` returns false and the worker
goes to `epoll_wait`. -/
def read (r : Reactor γ) (w : WorkerId) (holds : Bool) (next : IdlePc γ) :
    Option Bool × Reactor γ :=
  if holds then (none, r.setIdle w next)
  else (some false, { r.setIdle w .loop with scheduler := r.scheduler.goto w .wait })

/-- `stopping` returns true, and `idle` returns. -/
def leave (r : Reactor γ) (w : WorkerId) : Option Bool × Reactor γ :=
  (some true, { r.setIdle w .loop with
    scheduler := r.scheduler.setWorker w
      { r.scheduler.worker w with pc := .idleLeave, idle_term := true } })

/-- The calls of `schedule` that triggered events make here. -/
def trigger (r : Reactor γ) (deliveries : List (Delivery γ)) : Option (Reactor γ) :=
  let here := deliveries.filter (·.scheduler = self)
  (Transition.run Scheduler.step r.scheduler (here.map (.schedule ·.task none))).map fun done =>
    { r with scheduler := done.2 }

/-- An operation on events, with what it triggers. -/
def execIO (r : Reactor γ) (op : IOOp γ) : Option (Option Bool × Reactor γ) :=
  (r.io.step op).bind fun done =>
    ({ r with io := done.2 }.trigger done.1.deliveries).map fun next => (none, next)

/-- A step, with what `stopping` returns where it does. -/
def step : Transition.Step (Reactor γ) (Act γ) (Option Bool) := fun r act =>
  match act with
  | .scheduler act =>
      if ofScheduler act then
        (r.scheduler.step act).map fun done => (none, { r with scheduler := done.2 })
      else none
  | .timer op =>
      if ofTimers op then
        (r.timers.step op).map fun done => (none, { r with timers := done.2 })
      else none
  | .io op => if ofEvents op then r.execIO op else none
  | .getNextTimer w now =>
      match (r.scheduler.worker w).pc, r.idle w with
      | .idle, .loop =>
          let (timeout, timers) := r.timers.getNextTimer now
          some ({ r with timers := timers }.read w (timeout = 0xFFFFFFFFFFFFFFFF) .pending)
      | _, _ => none
  | .readPending w =>
      match r.idle w with
      | .pending => some (r.read w (r.io.m_pendingEventCount = 0) .flags)
      | _ => none
  | .readFlags w =>
      match r.idle w with
      | .flags => some (r.read w (r.scheduler.m_autoStop && r.scheduler.m_stopping) .queue)
      | _ => none
  | .readQueue w =>
      match r.idle w with
      | .queue => some (r.read w r.scheduler.m_fibers.isEmpty .active)
      | _ => none
  | .readActive w =>
      match r.idle w with
      | .active =>
          some (if r.scheduler.m_activateThreadCount = 0 then r.leave w else r.read w false .loop)
      | _ => none
  | .listExpiredCb w now addr =>
      match (r.scheduler.worker w).pc, r.idle w with
      | .work, .loop =>
          let (expired, timers) := r.timers.listExpiredCb now addr
          some (none, { r.setIdle w (.cbs (expired.map Prod.snd)) with timers := timers })
      | _, _ => none
  | .scheduleCbs w =>
      match r.idle w with
      | .cbs cbs =>
          (r.scheduler.step (.scheduleRange (cbs.map (·.map .cb)))).map fun done =>
            (none, { r.setIdle w .events with scheduler := done.2 })
      | _ => none
  | .deliver w fd events granted =>
      match r.idle w with
      | .events => r.execIO (.deliver fd events granted)
      | _ => none
  | .idleDone w =>
      match r.idle w with
      | .events =>
          (r.scheduler.step (.idleDone w)).map fun done =>
            (none, { r.setIdle w .loop with scheduler := done.2 })
      | _ => none

end Reactor

end CorReactor
