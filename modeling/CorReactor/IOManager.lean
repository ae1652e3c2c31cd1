import CorReactor.Fiber
import CorReactor.Transition
import Mathlib.Tactic.Ring

set_option autoImplicit false

namespace CorReactor

/-- A number for each `Scheduler` object. -/
abbrev SchedulerId := Nat

/-- The calling thread: `Scheduler::GetThis()`, and `Fiber::GetThis()` with its state. -/
structure Caller where
  scheduler : Option SchedulerId
  fiber : FiberId
  state : Fiber.State

/-! ### The kernel's bits -/

def EPOLLIN : BitVec 32 := 0x001
def EPOLLOUT : BitVec 32 := 0x004
def EPOLLERR : BitVec 32 := 0x008
def EPOLLHUP : BitVec 32 := 0x010
def EPOLLET : BitVec 32 := 0x80000000

inductive EpollOp
  | ADD
  | MOD
  | DEL
  deriving DecidableEq

/-! ### The bookkeeping of a descriptor -/

inductive Event
  | NONE
  | READ
  | WRITE
  deriving DecidableEq, Repr

def Event.bits : Event → BitVec 32
  | .NONE => 0x0
  | .READ => 0x1
  | .WRITE => 0x4

structure EventContext (β : Type) where
  scheduler : Option SchedulerId := none
  fiber : Option FiberId := none
  cb : Option β := none

/-- `FdContext`; `m_events` holds the bits of the registered events. -/
structure FdContext (β : Type) where
  fd : Nat
  read : EventContext β := {}
  write : EventContext β := {}
  m_events : BitVec 32 := Event.NONE.bits

/-- A failed assertion, or what the language leaves undefined. -/
inductive IOFault
  | invalidEvent
  | notRegistered
  | alreadyRegistered
  | contextNotEmpty
  | fiberNotExec
  | eventsLeft
  | nullScheduler
  | badIndex
  | overflow
  | endless
  deriving DecidableEq

/-- A call of `schedule` on the scheduler of an event context. A null fiber, `none`, is
not queued. -/
structure Delivery (β : Type) where
  fd : Nat
  event : Event
  scheduler : SchedulerId
  task : Option (Task β)

variable {β : Type}

/-- What `triggerEvent` schedules: the callback if there is one, else the fiber. -/
def EventContext.task (ctx : EventContext β) : Option (Task β) :=
  match ctx.cb with
  | some cb => some (.cb cb)
  | none => ctx.fiber.map .fiber

namespace FdContext

def getContext (fd_ctx : FdContext β) : Event → Except IOFault (EventContext β)
  | .READ => .ok fd_ctx.read
  | .WRITE => .ok fd_ctx.write
  | .NONE => .error .invalidEvent

/-- Assign through the reference that `getContext` returns. -/
def setContext (fd_ctx : FdContext β) (event : Event) (ctx : EventContext β) : FdContext β :=
  match event with
  | .READ => { fd_ctx with read := ctx }
  | .WRITE => { fd_ctx with write := ctx }
  | .NONE => fd_ctx

def resetContext (_ctx : EventContext β) : EventContext β :=
  { scheduler := none, fiber := none, cb := none }

def triggerEvent (fd_ctx : FdContext β) (event : Event) :
    Except IOFault (Delivery β × FdContext β) :=
  if event.bits &&& fd_ctx.m_events = 0 then .error .notRegistered
  else
    let fd_ctx := { fd_ctx with m_events := fd_ctx.m_events &&& ~~~event.bits }
    match fd_ctx.getContext event with
    | .error fault => .error fault
    | .ok ctx =>
        match ctx.scheduler with
        | none => .error .nullScheduler
        | some scheduler =>
            .ok ({ fd := fd_ctx.fd, event := event, scheduler := scheduler, task := ctx.task },
              fd_ctx)

/-- `triggerEvent` under a condition, and `--m_pendingEventCount` after it. -/
def triggerIf (due : Bool) (event : Event) (r : List (Delivery β) × FdContext β × UInt64) :
    Except IOFault (List (Delivery β) × FdContext β × UInt64) :=
  if due then
    match r.2.1.triggerEvent event with
    | .error fault => .error fault
    | .ok (delivery, fd_ctx) => .ok (r.1 ++ [delivery], fd_ctx, r.2.2 - 1)
  else .ok r

/-- The end of `addEvent`, from where the kernel has taken the change. -/
def registerEvent (fd_ctx : FdContext β) (caller : Caller) (event : Event) (cb : Option β) :
    Except IOFault (FdContext β) :=
  let fd_ctx := { fd_ctx with m_events := fd_ctx.m_events ||| event.bits }
  match fd_ctx.getContext event with
  | .error fault => .error fault
  | .ok event_ctx =>
      if event_ctx.scheduler.isSome || event_ctx.fiber.isSome || event_ctx.cb.isSome then
        .error .contextNotEmpty
      else
        let event_ctx := { event_ctx with scheduler := caller.scheduler }
        match cb with
        | some cb => .ok (fd_ctx.setContext event { event_ctx with cb := some cb })
        | none =>
            if caller.state ≠ .EXEC then .error .fiberNotExec
            else .ok (fd_ctx.setContext event { event_ctx with fiber := some caller.fiber })

end FdContext

/-! ### The manager -/

/-- `IOManager`, with the kernel's interest list for `m_epfd`. The pipe that `tickle`
writes to is left out of it. -/
structure IOManager (β : Type) where
  m_fdContexts : List (FdContext β)
  m_pendingEventCount : UInt64
  interest : Nat → Option (BitVec 32)

namespace IOManager

/-- Whether `epoll_ctl` succeeds; it may also fail for reasons of its own, when it is not
`granted`. -/
def epoll_ctl_ok (m : IOManager β) (op : EpollOp) (fd : Nat) (granted : Bool) : Bool :=
  granted && match op with
    | .ADD => (m.interest fd).isNone
    | .MOD | .DEL => (m.interest fd).isSome

def epoll_ctl (m : IOManager β) (op : EpollOp) (fd : Nat) (events : BitVec 32) (granted : Bool) :
    Option (IOManager β) :=
  if m.epoll_ctl_ok op fd granted then
    let entry := match op with
      | .ADD | .MOD => some events
      | .DEL => none
    some { m with interest := Function.update m.interest fd entry }
  else none

def contextResize (m : IOManager β) (size : Nat) : IOManager β :=
  let old := m.m_fdContexts.length
  { m with
    m_fdContexts := m.m_fdContexts.take size ++
      (List.range' old (size - old)).map fun i => { fd := i } }

/-- The constructor, less the start of the threads. -/
def new : IOManager β :=
  contextResize { m_fdContexts := [], m_pendingEventCount := 0, interest := fun _ => none } 32

/-- `m_fdContexts[fd]`. -/
def contextAt (m : IOManager β) (fd : Int) : Except IOFault (FdContext β) :=
  if fd < 0 then .error .badIndex
  else
    match m.m_fdContexts[fd.toNat]? with
    | none => .error .badIndex
    | some fd_ctx => .ok fd_ctx

def store (m : IOManager β) (fd : Nat) (fd_ctx : FdContext β) : IOManager β :=
  { m with m_fdContexts := m.m_fdContexts.set fd fd_ctx }

/-- The loop at the head of `addEvent`. One turn resizes to `fd * 2` and so does every
later one, so it ends in the second turn or never. -/
def findContext (m : IOManager β) (fd : Int) : Except IOFault (FdContext β × IOManager β) :=
  if fd < m.m_fdContexts.length then (m.contextAt fd).map fun fd_ctx => (fd_ctx, m)
  else if 2 ^ 31 ≤ fd * 2 then .error .overflow
  else
    let m := m.contextResize (fd * 2).toNat
    if fd < m.m_fdContexts.length then (m.contextAt fd).map fun fd_ctx => (fd_ctx, m)
    else .error .endless

def addEvent (m : IOManager β) (caller : Caller) (fd : Int) (event : Event) (cb : Option β)
    (granted : Bool) : Except IOFault (Int × IOManager β) :=
  match m.findContext fd with
  | .error fault => .error fault
  | .ok (fd_ctx, m) =>
      if fd_ctx.m_events &&& event.bits ≠ 0 then .error .alreadyRegistered
      else
        let op := if fd_ctx.m_events ≠ 0 then .MOD else .ADD
        let events := EPOLLET ||| fd_ctx.m_events ||| event.bits
        match m.epoll_ctl op fd.toNat events granted with
        | none => .ok (-1, m)
        | some m =>
            match fd_ctx.registerEvent caller event cb with
            | .error fault => .error fault
            | .ok fd_ctx =>
                let m := { m with m_pendingEventCount := m.m_pendingEventCount + 1 }
                .ok (0, m.store fd.toNat fd_ctx)

def delEvent (m : IOManager β) (fd : Int) (event : Event) (granted : Bool) :
    Except IOFault (Bool × IOManager β) :=
  if m.m_fdContexts.length ≤ fd then .ok (false, m)
  else
    match m.contextAt fd with
    | .error fault => .error fault
    | .ok fd_ctx =>
        if fd_ctx.m_events &&& event.bits = 0 then .ok (false, m)
        else
          let new_events := fd_ctx.m_events &&& ~~~event.bits
          let op := if new_events ≠ 0 then .MOD else .DEL
          match m.epoll_ctl op fd.toNat (EPOLLET ||| new_events) granted with
          | none => .ok (false, m)
          | some m =>
              let m := { m with m_pendingEventCount := m.m_pendingEventCount - 1 }
              let fd_ctx := { fd_ctx with m_events := new_events }
              match fd_ctx.getContext event with
              | .error fault => .error fault
              | .ok event_ctx =>
                  .ok (true,
                    m.store fd.toNat (fd_ctx.setContext event (FdContext.resetContext event_ctx)))

def cancelEvent (m : IOManager β) (fd : Int) (event : Event) (granted : Bool) :
    Except IOFault ((Bool × List (Delivery β)) × IOManager β) :=
  if m.m_fdContexts.length ≤ fd then .ok ((false, []), m)
  else
    match m.contextAt fd with
    | .error fault => .error fault
    | .ok fd_ctx =>
        if fd_ctx.m_events &&& event.bits = 0 then .ok ((false, []), m)
        else
          let new_events := fd_ctx.m_events &&& ~~~event.bits
          let op := if new_events ≠ 0 then .MOD else .DEL
          -- The mask keeps the cancelled event and lacks `EPOLLET`, unlike in `delEvent`.
          match m.epoll_ctl op fd.toNat (fd_ctx.m_events ||| new_events) granted with
          | none => .ok ((false, []), m)
          | some m =>
              match fd_ctx.triggerEvent event with
              | .error fault => .error fault
              | .ok (delivery, fd_ctx) =>
                  let m := { m with m_pendingEventCount := m.m_pendingEventCount - 1 }
                  .ok ((true, [delivery]), m.store fd.toNat fd_ctx)

def cancelAll (m : IOManager β) (fd : Int) (granted : Bool) :
    Except IOFault ((Bool × List (Delivery β)) × IOManager β) :=
  if m.m_fdContexts.length ≤ fd then .ok ((false, []), m)
  else
    match m.contextAt fd with
    | .error fault => .error fault
    | .ok fd_ctx =>
        if fd_ctx.m_events = 0 then .ok ((false, []), m)
        else
          match m.epoll_ctl .DEL fd.toNat 0 granted with
          | none => .ok ((false, []), m)
          | some m =>
              match FdContext.triggerIf (fd_ctx.m_events &&& Event.READ.bits ≠ 0) .READ
                  ([], fd_ctx, m.m_pendingEventCount) with
              | .error fault => .error fault
              | .ok r =>
                  match FdContext.triggerIf (r.2.1.m_events &&& Event.WRITE.bits ≠ 0) .WRITE r with
                  | .error fault => .error fault
                  | .ok (deliveries, fd_ctx, count) =>
                      if fd_ctx.m_events ≠ 0 then .error .eventsLeft
                      else
                        let m := { m with m_pendingEventCount := count }
                        .ok ((true, deliveries), m.store fd.toNat fd_ctx)

/-- The events that `idle` makes of the reported ones: both, on an error or a hang-up. -/
def realEvents (events : BitVec 32) : BitVec 32 :=
  let events :=
    if events &&& (EPOLLERR ||| EPOLLHUP) ≠ 0 then events ||| (EPOLLIN ||| EPOLLOUT) else events
  let real_events := Event.NONE.bits
  let real_events :=
    if events &&& EPOLLIN ≠ 0 then real_events ||| Event.READ.bits else real_events
  if events &&& EPOLLOUT ≠ 0 then real_events ||| Event.WRITE.bits else real_events

/-- The body of the loop in `idle` for one reported event: `fd` is the position of the
context that the kernel returns the address of. -/
def deliver (m : IOManager β) (fd : Nat) (events : BitVec 32) (granted : Bool) :
    Except IOFault (List (Delivery β) × IOManager β) :=
  match m.m_fdContexts[fd]? with
  | none => .error .badIndex
  | some fd_ctx =>
      let real_events := realEvents events
      if fd_ctx.m_events &&& real_events = 0 then .ok ([], m)
      else
        let left_events := fd_ctx.m_events &&& ~~~real_events
        let op := if left_events ≠ 0 then .MOD else .DEL
        match m.epoll_ctl op fd_ctx.fd (EPOLLET ||| left_events) granted with
        | none => .ok ([], m)
        | some m =>
            match FdContext.triggerIf (real_events &&& Event.READ.bits ≠ 0) .READ
                ([], fd_ctx, m.m_pendingEventCount) with
            | .error fault => .error fault
            | .ok r =>
                match FdContext.triggerIf (real_events &&& Event.WRITE.bits ≠ 0) .WRITE r with
                | .error fault => .error fault
                | .ok (deliveries, fd_ctx, count) =>
                    let m := { m with m_pendingEventCount := count }
                    .ok (deliveries, m.store fd fd_ctx)

end IOManager

/-! ### Runs -/

/-- The operations, each atomic under the descriptor's mutex, with the answer of the
kernel to the one `epoll_ctl` each makes. -/
inductive IOOp (β : Type)
  | addEvent (caller : Caller) (fd : Int) (event : Event) (cb : Option β) (granted : Bool)
  | delEvent (fd : Int) (event : Event) (granted : Bool)
  | cancelEvent (fd : Int) (event : Event) (granted : Bool)
  | cancelAll (fd : Int) (granted : Bool)
  | deliver (fd : Nat) (events : BitVec 32) (granted : Bool)

inductive IORet
  | added (rt : Int)
  | done (ok : Bool)
  | delivered
  deriving DecidableEq

/-- What an operation returns and schedules. -/
structure Outcome (β : Type) where
  ret : IORet
  deliveries : List (Delivery β)

def IOManager.exec (m : IOManager β) : IOOp β → Except IOFault (Outcome β × IOManager β)
  | .addEvent caller fd event cb granted =>
      (m.addEvent caller fd event cb granted).map fun r => (⟨.added r.1, []⟩, r.2)
  | .delEvent fd event granted =>
      (m.delEvent fd event granted).map fun r => (⟨.done r.1, []⟩, r.2)
  | .cancelEvent fd event granted =>
      (m.cancelEvent fd event granted).map fun r => (⟨.done r.1.1, r.1.2⟩, r.2)
  | .cancelAll fd granted =>
      (m.cancelAll fd granted).map fun r => (⟨.done r.1.1, r.1.2⟩, r.2)
  | .deliver fd events granted =>
      (m.deliver fd events granted).map fun r => (⟨.delivered, r.1⟩, r.2)

/-- An operation that no assertion stops. -/
def IOManager.step : Transition.Step (IOManager β) (IOOp β) (Outcome β) := fun m op =>
  (m.exec op).toOption

end CorReactor
