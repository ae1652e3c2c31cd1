import CorReactor.FdEntries
import CorReactor.IOManager

set_option autoImplicit false

/-! `do_io` on fibers of a hook-enabled thread pool, with the hooked `socket`, `accept` and
`close` beside it: every access to the manager, the event registry or the kernel is a step. -/

namespace CorReactor

inductive Errno
  | EINTR
  | EAGAIN
  | EBADF
  | EINPROGRESS
  | ETIMEDOUT
  | other (code : Nat)
  deriving DecidableEq

/-- The wrapped functions, by the event that `do_io` waits for. -/
inductive IoFun
  | read
  | write
  | accept
  deriving DecidableEq

def IoFun.event : IoFun → Event
  | .read | .accept => .READ
  | .write => .WRITE

def IoFun.timeout_so : IoFun → Int
  | .read | .accept => SO_RCVTIMEO
  | .write => SO_SNDTIMEO

/-- Where a call of `do_io` stands. -/
inductive IoPc
  | direct
  | retry
  | blocked
  | armed
  | held
  | resumed
  deriving DecidableEq

/-- The local state of a call of `do_io`; `timeout` is `to`, `cancelled` is `tinfo->cancelled`,
and a timer was added to the call if `timed`. Ghosts: `waiting`, the descriptor that answered
`EAGAIN`, and `closed`, that it was closed since. -/
structure IoCall where
  fd : Int
  fn : IoFun
  timeout : UInt64
  cancelled : Bool
  timed : Bool
  pc : IoPc
  waiting : Option Descriptor
  closed : Bool
  deriving DecidableEq

inductive ClosePc
  | look
  | cancel
  | forget
  | close
  deriving DecidableEq

/-- The hooked call that a fiber is in. `adopting` is the end of `socket` and `accept`, which
make the context of the new descriptor. -/
inductive HookCall
  | running
  | io (call : IoCall)
  | adopting (fd : Int)
  | closing (fd : Int) (pc : ClosePc)
  deriving DecidableEq

/-- A call of the wrapped function: the descriptor under the number then, and the one that the
call of `do_io` has waited for. -/
structure Attempt where
  waiting : Option Descriptor
  used : Option Descriptor
  deriving DecidableEq

/-- A call of `do_io` that has returned. -/
structure IoReturn where
  closed : Bool
  ret : Int
  deriving DecidableEq

structure HookRun (β : Type) where
  fds : Fds
  iom : IOManager β
  ready : List (Delivery β)
  /-- The `cancelEvent` calls that timer callbacks are about to make. -/
  cancels : List (Int × Event)
  calls : List HookCall
  attempts : List Attempt
  returns : List IoReturn

/-- The kernel's answer to a call of the wrapped function. -/
inductive Answer
  | done (n : Nat)
  | accepted (fd : Nat)
  | error (errno : Errno)
  deriving DecidableEq

inductive HookOp (β : Type)
  | start (fiber : FiberId) (hook_enable : Bool) (fd : Int) (fn : IoFun)
  | attempt (fiber : FiberId) (answer : Answer)
  | arm (fiber : FiberId)
  | register (fiber : FiberId) (granted : Bool)
  | resume (fiber : FiberId)
  | check (fiber : FiberId)
  | fire (fiber : FiberId)
  | cancelEvent (callback : Nat) (granted : Bool)
  | socket (fiber : FiberId) (hook_enable : Bool) (type : BitVec 32) (answer : Option Nat)
  | adopt (fiber : FiberId)
  | close (fiber : FiberId) (hook_enable : Bool) (fd : Int)
  | closing (fiber : FiberId) (iom granted : Bool)
  | events (op : IOOp β)

/-- The head of `do_io`, up to the first call of the function; `none` is a return of -1. -/
def IoCall.enter (s : Fds) (hook_enable : Bool) (fd : Int) (fn : IoFun) :
    Except FdFault (Option IoCall) :=
  let call : IoCall :=
    { fd := fd, fn := fn, timeout := 0, cancelled := false, timed := false, pc := .direct,
      waiting := none, closed := false }
  if !hook_enable then .ok (some call)
  else
    match s.get fd false with
    | .error fault => .error fault
    | .ok (none, _) => .ok (some call)
    | .ok (some id, _) =>
        match s.ctxs[id]? with
        | none => .ok (some call)
        | some ctx =>
            if ctx.m_isClosed then .ok none
            else if !ctx.m_isSocket || ctx.m_userNonblock then .ok (some call)
            else .ok (some { call with timeout := ctx.getTimeout fn.timeout_so, pc := .retry })

/-- A close under a number, as the call that has waited for the descriptor notes it. -/
def HookCall.noteClosed (fd : Int) (d : Descriptor) : HookCall → HookCall
  | .io call => .io { call with closed := call.closed || (call.fd = fd ∧ call.waiting = some d) }
  | other => other

/-- The delivery that makes the fiber run again. -/
def Delivery.wakes {β : Type} (delivery : Delivery β) (fiber : FiberId) : Bool :=
  match delivery.task with
  | some (.fiber woken) => woken = fiber
  | _ => false

namespace HookRun

variable {β : Type}

/-- Fibers outside any hooked call, in a process without descriptors. -/
def boot (β : Type) (fibers : Nat) : HookRun β :=
  ⟨Fds.boot, IOManager.new, [], [], List.replicate fibers .running, [], []⟩

def put (s : HookRun β) (fiber : FiberId) (call : HookCall) : HookRun β :=
  { s with calls := s.calls.set fiber call }

/-- `do_io` returns; `accept` goes on where it got a descriptor. -/
def leave (s : HookRun β) (fiber : FiberId) (call : IoCall) (ret : Int) : HookRun β :=
  let s := { s with returns := s.returns ++ [IoReturn.mk call.closed ret] }
  s.put fiber (if call.fn = .accept ∧ 0 ≤ ret then .adopting ret else .running)

/-- One call of the wrapped function, and the branches behind it. -/
def attempt (s : HookRun β) (fiber : FiberId) (call : IoCall) (answer : Answer) :
    Option (HookRun β) :=
  let used := s.fds.kernel.descriptor call.fd
  let s := { s with attempts := s.attempts ++ [Attempt.mk call.waiting used] }
  match used with
  | none => some (s.leave fiber call (-1))
  | some d =>
      match answer with
      | .done n => if call.fn = .accept then none else some (s.leave fiber call n)
      | .accepted fd =>
          if call.fn = .accept then
            (s.fds.kernel.create fd ⟨true, O_RDWR⟩).map fun k =>
              { s with fds.kernel := k }.leave fiber call fd
          else none
      | .error errno =>
          if call.pc = .direct then some (s.leave fiber call (-1))
          else
            match errno with
            | .EINTR => some (s.put fiber (.io call))
            | .EAGAIN =>
                some (s.put fiber (.io { call with pc := .blocked, waiting := some d }))
            | _ => some (s.leave fiber call (-1))

/-- `addEvent` and the branch behind it. -/
def register (s : HookRun β) (fiber : FiberId) (call : IoCall) (granted : Bool) :
    Option (HookRun β) :=
  let granted := granted && (s.fds.kernel.descriptor call.fd).isSome
  match s.iom.addEvent ⟨some 0, fiber, .EXEC⟩ call.fd call.fn.event none granted with
  | .error _ => none
  | .ok (rt, iom) =>
      let s := { s with iom := iom }
      if rt = -1 then some (s.leave fiber call (-1))
      else some (s.put fiber (.io { call with pc := .held }))

/-- `close_f`; the kernel forgets the events of the descriptor. -/
def close_f (s : HookRun β) (fd : Int) : HookRun β :=
  match s.fds.kernel.descriptor fd with
  | none => s
  | some d =>
      { s with
        fds := (s.fds.close_f fd).2
        iom := { s.iom with interest := Function.update s.iom.interest fd.toNat none }
        calls := s.calls.map fun call => call.noteClosed fd d }

/-- One step of the hooked `close`. -/
def closing (s : HookRun β) (fiber : FiberId) (fd : Int) (pc : ClosePc) (iom granted : Bool) :
    Option (HookRun β) :=
  match pc with
  | .look =>
      match s.fds.get fd false with
      | .error _ => none
      | .ok (ctx, _) => some (s.put fiber (.closing fd (if ctx.isSome then .cancel else .close)))
  | .cancel =>
      if iom then
        match s.iom.cancelAll fd granted with
        | .error _ => none
        | .ok ((_, deliveries), iom) =>
            some ({ s with iom := iom, ready := s.ready ++ deliveries }.put fiber
              (.closing fd .forget))
      else some (s.put fiber (.closing fd .forget))
  | .forget =>
      match s.fds.mgr.del fd with
      | .error _ => none
      | .ok mgr => some ({ s with fds.mgr := mgr }.put fiber (.closing fd .close))
  | .close => some ((s.close_f fd).put fiber .running)

def exec (s : HookRun β) : HookOp β → Option (HookRun β)
  | .start fiber hook_enable fd fn =>
      if s.calls[fiber]? = some .running then
        match IoCall.enter s.fds hook_enable fd fn with
        | .error _ => none
        | .ok none => some { s with returns := s.returns ++ [⟨false, -1⟩] }
        | .ok (some call) => some (s.put fiber (.io call))
      else none
  | .attempt fiber answer =>
      match s.calls[fiber]? with
      | some (.io call) =>
          if call.pc = .direct ∨ call.pc = .retry then s.attempt fiber call answer else none
      | _ => none
  | .arm fiber =>
      match s.calls[fiber]? with
      | some (.io call) =>
          if call.pc = .blocked then
            some (s.put fiber
              (.io { call with pc := .armed, timed := call.timed || call.timeout != -1 }))
          else none
      | _ => none
  | .register fiber granted =>
      match s.calls[fiber]? with
      | some (.io call) => if call.pc = .armed then s.register fiber call granted else none
      | _ => none
  | .resume fiber =>
      match s.calls[fiber]? with
      | some (.io call) =>
          if call.pc = .held then
            match s.ready.findIdx? fun delivery => delivery.wakes fiber with
            | none => none
            | some i =>
                some ({ s with ready := s.ready.eraseIdx i }.put fiber
                  (.io { call with pc := .resumed }))
          else none
      | _ => none
  | .check fiber =>
      match s.calls[fiber]? with
      | some (.io call) =>
          if call.pc = .resumed then
            if call.cancelled then some (s.leave fiber call (-1))
            else some (s.put fiber (.io { call with pc := .retry }))
          else none
      | _ => none
  | .fire fiber =>
      match s.calls[fiber]? with
      | some (.io call) =>
          if call.timed ∧ call.cancelled = false then
            some ({ s with cancels := s.cancels ++ [(call.fd, call.fn.event)] }.put fiber
              (.io { call with cancelled := true }))
          else none
      | _ => none
  | .cancelEvent callback granted =>
      match s.cancels[callback]? with
      | none => none
      | some (fd, event) =>
          match s.iom.cancelEvent fd event granted with
          | .error _ => none
          | .ok ((_, deliveries), iom) =>
              some { s with iom := iom, ready := s.ready ++ deliveries,
                            cancels := s.cancels.eraseIdx callback }
  | .socket fiber hook_enable type answer =>
      if s.calls[fiber]? = some .running then
        match socket_f s.fds.kernel type answer with
        | none => none
        | some (fd, kernel) =>
            some ({ s with fds.kernel := kernel }.put fiber
              (if hook_enable ∧ fd ≠ -1 then .adopting fd else .running))
      else none
  | .adopt fiber =>
      match s.calls[fiber]? with
      | some (.adopting fd) =>
          match s.fds.get fd true with
          | .error _ => none
          | .ok (_, fds) => some ({ s with fds := fds }.put fiber .running)
      | _ => none
  | .close fiber hook_enable fd =>
      if s.calls[fiber]? = some .running then
        if hook_enable then some (s.put fiber (.closing fd .look)) else some (s.close_f fd)
      else none
  | .closing fiber iom granted =>
      match s.calls[fiber]? with
      | some (.closing fd pc) => s.closing fiber fd pc iom granted
      | _ => none
  | .events op =>
      match s.iom.exec op with
      | .error _ => none
      | .ok (out, iom) => some { s with iom := iom, ready := s.ready ++ out.deliveries }

end HookRun

end CorReactor
