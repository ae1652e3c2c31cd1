import CorReactor.Fiber
import CorReactor.Transition
import Mathlib.Logic.Function.Basic

set_option autoImplicit false

namespace CorReactor

/-- A number for each thread that runs `Scheduler::run`. -/
abbrev WorkerId := Nat

/-- `ScheduleTask`; a `thread` of -1 is `none`. -/
structure ScheduleTask (γ : Type) where
  fiber : Option FiberId := none
  cb : Option γ := none
  thread : Option WorkerId := none
  deriving DecidableEq

/-- Its constructors, of a callback or a fiber that may be null. -/
def ScheduleTask.of {γ : Type} (fc : Option (Task γ)) (thread : Option WorkerId) :
    ScheduleTask γ :=
  match fc with
  | some (.cb cb) => { cb := some cb, thread := thread }
  | some (.fiber f) => { fiber := some f, thread := thread }
  | none => { thread := thread }

/-- The task may run on the worker's thread. -/
def ScheduleTask.isFor {γ : Type} (ft : ScheduleTask γ) (w : WorkerId) : Bool :=
  ft.thread = none || ft.thread = some w

/-- Whether `run` resumes a queued fiber or its own `cb_fiber`. -/
inductive Kind
  | task
  | pooled
  deriving DecidableEq

/-- Where a worker is: in the loop of `run`, inside a fiber, or inside the idle fiber. -/
inductive Pc (γ : Type)
  | scan
  | tickle (ft : Option (ScheduleTask γ))
  | tickleWrite (ft : Option (ScheduleTask γ))
  | dispatch (ft : Option (ScheduleTask γ))
  | resume (f : FiberId) (kind : Kind)
  | exec (f : FiberId) (kind : Kind)
  | swapOut (f : FiberId) (kind : Kind)
  | leave (f : FiberId) (kind : Kind)
  | settle (f : FiberId) (kind : Kind)
  | requeue (f : FiberId) (kind : Kind)
  | hold (f : FiberId) (kind : Kind)
  | recycle (f : FiberId)
  | skip
  | idleEnter
  | idle
  | wait
  | work
  | idleLeave
  | done

/-- A worker: its place, its `cb_fiber`, whether its idle fiber has terminated, and how
many bytes the pipe had been written when it last scanned the queue. -/
structure Worker (γ : Type) where
  pc : Pc γ := .scan
  cb_fiber : Option FiberId := none
  idle_term : Bool := false
  scannedAt : Nat := 0

/-- The scheduler of an `IOManager` after `start`. `calls` and `writes` count the calls of
the range `schedule` that have queued their tasks and stand before the test of `tickle`,
or before its write; `otherWrites` those of `tickle` from elsewhere. -/
structure Scheduler (γ : Type) where
  m_fibers : List (ScheduleTask γ) := []
  fiber : FiberId → Fiber γ := fun _ => {}
  count : Nat := 0
  worker : WorkerId → Worker γ := fun _ => {}
  m_activateThreadCount : UInt64 := 0
  m_idleThreadCount : UInt64 := 0
  m_autoStop : Bool := false
  m_stopping : Bool := false
  calls : Nat := 0
  writes : Nat := 0
  otherWrites : Nat := 0
  written : Nat := 0

/-- What can be seen of a step: the tasks it queues, or the task it takes. -/
inductive Obs (γ : Type)
  | silent
  | queued (tasks : List (ScheduleTask γ))
  | took (w : WorkerId) (task : ScheduleTask γ)

namespace Scheduler

variable {γ : Type}

def setFiber (s : Scheduler γ) (f : FiberId) (fiber : Fiber γ) : Scheduler γ :=
  { s with fiber := Function.update s.fiber f fiber }

def setWorker (s : Scheduler γ) (w : WorkerId) (worker : Worker γ) : Scheduler γ :=
  { s with worker := Function.update s.worker w worker }

def goto (s : Scheduler γ) (w : WorkerId) (pc : Pc γ) : Scheduler γ :=
  s.setWorker w { s.worker w with pc := pc }

/-- `new Fiber(cb)`. -/
def newFiber (s : Scheduler γ) (cb : γ) : Scheduler γ :=
  { s.setFiber s.count (.new cb) with count := s.count + 1 }

def hasIdleThreads (s : Scheduler γ) : Bool := s.m_idleThreadCount > 0

/-! ### `schedule` -/

/-- `scheduleNoLock`: whether the queue was empty, and the queue with the task. -/
def scheduleNoLock (s : Scheduler γ) (ft : ScheduleTask γ) : Bool × Scheduler γ :=
  (s.m_fibers.isEmpty,
    if ft.fiber.isSome || ft.cb.isSome then { s with m_fibers := s.m_fibers ++ [ft] } else s)

/-- `schedule(fc, thread)`. It does not assign `need_tickle`, so it never calls `tickle`. -/
def schedule (s : Scheduler γ) (ft : ScheduleTask γ) : Scheduler γ := (s.scheduleNoLock ft).2

/-- The loop of `schedule(begin, end)`. -/
def scheduleAll (s : Scheduler γ) : Bool → List (ScheduleTask γ) → Bool × Scheduler γ
  | need_tickle, [] => (need_tickle, s)
  | need_tickle, ft :: rest =>
      let r := s.scheduleNoLock ft
      r.2.scheduleAll (r.1 || need_tickle) rest

/-- `schedule(begin, end)` up to its call of `tickle`. -/
def scheduleRange (s : Scheduler γ) (fts : List (ScheduleTask γ)) : Scheduler γ :=
  let r := s.scheduleAll false fts
  if r.1 then { r.2 with calls := r.2.calls + 1 } else r.2

/-! ### `run` -/

/-- The task is a fiber that is executing. -/
def executing (s : Scheduler γ) (ft : ScheduleTask γ) : Bool :=
  ft.fiber.any fun f => (s.fiber f).m_state = .EXEC

/-- The loop over the queue: `tickle_me`, the task found, and the queue without it. -/
def scan (s : Scheduler γ) (w : WorkerId) :
    List (ScheduleTask γ) → Bool × Option (ScheduleTask γ) × List (ScheduleTask γ)
  | [] => (false, none, [])
  | it :: rest =>
      if !it.isFor w then
        let r := s.scan w rest
        (true, r.2.1, it :: r.2.2)
      else if s.executing it then
        let r := s.scan w rest
        (r.1, r.2.1, it :: r.2.2)
      else (false, some it, rest)

/-- The use of `cb_fiber` for a callback, up to `swapIn`. -/
def dispatchCb (s : Scheduler γ) (w : WorkerId) (cb : γ) : Option (Scheduler γ) :=
  match (s.worker w).cb_fiber with
  | some f => ((s.fiber f).reset (some cb)).map fun fiber =>
      (s.setFiber f fiber).goto w (.resume f .pooled)
  | none =>
      let next := s.newFiber cb
      some (next.setWorker w
        { next.worker w with pc := .resume s.count .pooled, cb_fiber := some s.count })

/-- The choice that `run` makes after the scan. -/
def dispatch (s : Scheduler γ) (w : WorkerId) : Option (ScheduleTask γ) → Option (Scheduler γ)
  | none => some (s.goto w (if (s.worker w).idle_term then .done else .idleEnter))
  | some ft =>
      match ft.fiber, ft.cb with
      | some f, cb =>
          if (s.fiber f).alive then some (s.goto w (.resume f .task))
          else
            match cb with
            | some cb => s.dispatchCb w cb
            | none => some (s.goto w .skip)
      | none, some cb => s.dispatchCb w cb
      | none, none => some (s.goto w .skip)

/-- `cb_fiber.reset()` where the fiber was the worker's own. -/
def dropPooled (s : Scheduler γ) (w : WorkerId) (kind : Kind) : Scheduler γ :=
  match kind with
  | .task => s
  | .pooled => s.setWorker w { s.worker w with cb_fiber := none }

/-- What `run` does with the fiber's state after `swapIn` has returned. -/
def settle (s : Scheduler γ) (f : FiberId) (kind : Kind) : Pc γ :=
  if (s.fiber f).m_state = .READY then .requeue f kind
  else if (s.fiber f).alive then .hold f kind
  else
    match kind with
    | .task => .scan
    | .pooled => .recycle f

/-- The next step of a worker, where it is not up to a fiber or to the kernel; `none` also
where an assertion fails. -/
def runStep (s : Scheduler γ) (w : WorkerId) : Option (Obs γ × Scheduler γ) :=
  match (s.worker w).pc with
  | .scan =>
      let (tickle_me, ft, left) := s.scan w s.m_fibers
      let pc : Pc γ := if tickle_me then .tickle ft else .dispatch ft
      let next := { s.setWorker w { s.worker w with pc := pc, scannedAt := s.written } with
        m_fibers := left }
      match ft with
      | none => some (.silent, next)
      | some task =>
          some (.took w task, { next with m_activateThreadCount := s.m_activateThreadCount + 1 })
  | .tickle ft =>
      some (.silent, s.goto w (if s.hasIdleThreads then .dispatch ft else .tickleWrite ft))
  | .tickleWrite ft => some (.silent, { s.goto w (.dispatch ft) with written := s.written + 1 })
  | .dispatch ft => (s.dispatch w ft).map fun next => (.silent, next)
  | .resume f kind =>
      (s.fiber f).swapIn.map fun fiber => (.silent, (s.setFiber f fiber).goto w (.exec f kind))
  | .swapOut f kind =>
      some (.silent, (s.setFiber f (s.fiber f).swapOut).goto w (.leave f kind))
  | .leave f kind =>
      some (.silent,
        { s.goto w (.settle f kind) with m_activateThreadCount := s.m_activateThreadCount - 1 })
  | .settle f kind => some (.silent, s.goto w (s.settle f kind))
  | .requeue f kind =>
      let ft := ScheduleTask.of (some (.fiber f)) none
      some (.queued [ft], ((s.schedule ft).dropPooled w kind).goto w .scan)
  | .hold f kind =>
      some (.silent,
        ((s.setFiber f ((s.fiber f).setState .HOLD)).dropPooled w kind).goto w .scan)
  | .recycle f =>
      ((s.fiber f).reset none).map fun fiber => (.silent, (s.setFiber f fiber).goto w .scan)
  | .skip =>
      some (.silent,
        { s.goto w .scan with m_activateThreadCount := s.m_activateThreadCount - 1 })
  | .idleEnter =>
      some (.silent, { s.goto w .idle with m_idleThreadCount := s.m_idleThreadCount + 1 })
  | .idleLeave =>
      some (.silent, { s.goto w .scan with m_idleThreadCount := s.m_idleThreadCount - 1 })
  | .exec .. | .idle | .wait | .work | .done => none

/-- A running fiber gives up its worker. -/
def suspend (s : Scheduler γ) (w : WorkerId) (change : Fiber γ → Fiber γ) :
    Option (Obs γ × Scheduler γ) :=
  match (s.worker w).pc with
  | .exec f kind => some (.silent, (s.setFiber f (change (s.fiber f))).goto w (.swapOut f kind))
  | _ => none

/-- `Scheduler::stopping`. -/
def stopping (s : Scheduler γ) : Bool :=
  s.m_autoStop && s.m_stopping && s.m_fibers.isEmpty && s.m_activateThreadCount = 0

/-- The head of the loop in `IOManager::idle`. `quiet` says that no timer and no event is
pending, which this model does not follow. -/
def idleStopping (s : Scheduler γ) (w : WorkerId) (quiet : Bool) : Option (Obs γ × Scheduler γ) :=
  match (s.worker w).pc with
  | .idle =>
      if quiet && s.stopping then
        some (.silent, s.setWorker w { s.worker w with pc := .idleLeave, idle_term := true })
      else some (.silent, s.goto w .wait)
  | _ => none

/-- The steps of all threads. Anyone may create and schedule fibers at any time: a
running fiber, the idle fibers for expired timers and triggered events, and threads
outside. `epoll_wait` may return at any time. -/
inductive Act (γ : Type)
  | newFiber (cb : γ)
  | schedule (fc : Option (Task γ)) (thread : Option WorkerId)
  | scheduleRange (fcs : List (Option (Task γ)))
  | rangeTickle
  | rangeWrite
  | tickle
  | tickleWrite
  | stop
  | run (w : WorkerId)
  | yieldToHold (w : WorkerId)
  | yieldToReady (w : WorkerId)
  | finish (w : WorkerId)
  | stopping (w : WorkerId) (quiet : Bool)
  | wake (w : WorkerId)
  | idleDone (w : WorkerId)

/-- The task is of a fiber that exists. -/
def known (s : Scheduler γ) : Option (Task γ) → Bool
  | some (.fiber f) => f < s.count
  | _ => true

def step : Transition.Step (Scheduler γ) (Act γ) (Obs γ) := fun s act =>
  match act with
  | .newFiber cb => some (.silent, s.newFiber cb)
  | .schedule fc thread =>
      if s.known fc then
        some (.queued [ScheduleTask.of fc thread], s.schedule (ScheduleTask.of fc thread))
      else none
  | .scheduleRange fcs =>
      if fcs.all s.known then
        let fts := fcs.map (ScheduleTask.of · none)
        some (.queued fts, s.scheduleRange fts)
      else none
  | .rangeTickle =>
      if 0 < s.calls then
        let next := { s with calls := s.calls - 1 }
        some (.silent, if s.hasIdleThreads then next else { next with writes := s.writes + 1 })
      else none
  | .rangeWrite =>
      if 0 < s.writes then
        some (.silent, { s with writes := s.writes - 1, written := s.written + 1 })
      else none
  | .tickle =>
      some (.silent,
        if s.hasIdleThreads then s else { s with otherWrites := s.otherWrites + 1 })
  | .tickleWrite =>
      if 0 < s.otherWrites then
        some (.silent, { s with otherWrites := s.otherWrites - 1, written := s.written + 1 })
      else none
  | .stop => some (.silent, { s with m_autoStop := true, m_stopping := true })
  | .run w => s.runStep w
  | .yieldToHold w => s.suspend w (·.setState .HOLD)
  | .yieldToReady w => s.suspend w (·.setState .READY)
  | .finish w => s.suspend w Fiber.finish
  | .stopping w quiet => s.idleStopping w quiet
  | .wake w =>
      match (s.worker w).pc with
      | .wait => some (.silent, s.goto w .work)
      | _ => none
  | .idleDone w =>
      match (s.worker w).pc with
      | .work => some (.silent, s.goto w .idleLeave)
      | _ => none

end Scheduler

end CorReactor
