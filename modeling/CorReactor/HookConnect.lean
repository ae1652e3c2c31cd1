import CorReactor.HookIo

set_option autoImplicit false

/-! `connect_with_timeout` of one fiber, the kernel's connection, and everybody else's
operations on the event registry. -/

namespace CorReactor

inductive ConnectPc
  | called
  | connecting
  | armed
  | held
  | resumed
  | asking
  | returned
  deriving DecidableEq

/-- The kernel's side of the connection. -/
inductive Connection
  | idle
  | inProgress
  | completed
  | failed
  deriving DecidableEq

/-- The kernel is done with the connection, one way or the other. -/
def Connection.settled : Connection → Bool
  | .completed | .failed => true
  | .idle | .inProgress => false

/-- The state of the call (`cancelled` is `tinfo->cancelled`), with the kernel's `SO_ERROR`.
Ghosts: `fired`, that the condition timer fired, and the errors that the kernel has given. -/
structure ConnectRun (β : Type) where
  fd : Int
  fiber : FiberId
  timeout_ms : UInt64
  iom : IOManager β
  ready : List (Delivery β)
  cancels : Nat
  conn : Connection
  so_error : Option Errno
  pc : ConnectPc
  timed : Bool
  cancelled : Bool
  result : Option (Int × Option Errno)
  fired : Bool
  reported : List Errno

/-- What the head of `connect_with_timeout` comes to: it refuses the descriptor, it returns
what `connect_f` does, or it waits. -/
inductive ConnectHead
  | refuses
  | returns
  | waits
  deriving DecidableEq

/-- `connect_with_timeout` up to the result of `connect_f`, which is success or an error. -/
def connectHead (s : Fds) (hook_enable : Bool) (fd : Int) (answer : Option Errno) :
    Except FdFault ConnectHead :=
  if !hook_enable then .ok .returns
  else
    match s.get fd false with
    | .error fault => .error fault
    | .ok (none, _) => .ok .refuses
    | .ok (some id, _) =>
        match s.ctxs[id]? with
        | none => .ok .refuses
        | some ctx =>
            if ctx.m_isClosed then .ok .refuses
            else if !ctx.m_isSocket then .ok .returns
            else if ctx.m_userNonblock then .ok .returns
            else if answer = some .EINPROGRESS then .ok .waits
            else .ok .returns

inductive ConnectOp (β : Type)
  | start (fds : Fds) (hook_enable : Bool) (answer : Option Errno)
  | arm
  | register (granted : Bool)
  | resume
  | check
  | getsockopt (is_open : Bool)
  | fire
  | cancelEvent (granted : Bool)
  | complete
  | fail (errno : Errno)
  | reset (errno : Errno)
  | events (op : IOOp β)

/-- An event that the kernel reports for the descriptor. -/
def IOOp.reports {β : Type} (fd : Int) : IOOp β → Bool
  | .deliver n _ _ => fd = n
  | _ => false

namespace ConnectRun

variable {β : Type}

/-- Before the call, over any event registry; nothing is about to wake the fiber. -/
def boot (fd : Int) (fiber : FiberId) (timeout_ms : UInt64) (iom : IOManager β) : ConnectRun β :=
  ⟨fd, fiber, timeout_ms, iom, [], 0, .idle, none, .called, false, false, none, false, []⟩

def leave (s : ConnectRun β) (ret : Int) (errno : Option Errno) : ConnectRun β :=
  { s with pc := .returned, result := some (ret, errno) }

/-- The state that `connect_f` leaves the connection in. -/
def connected (s : ConnectRun β) (answer : Option Errno) : ConnectRun β :=
  match answer with
  | none => { s with conn := .completed }
  | some .EINPROGRESS => { s with conn := .inProgress }
  | some errno => { s with conn := .failed, reported := s.reported ++ [errno] }

def addEvent (s : ConnectRun β) (granted : Bool) : Except IOFault (Int × IOManager β) :=
  s.iom.addEvent ⟨some 0, s.fiber, .EXEC⟩ s.fd .WRITE none granted

def exec (s : ConnectRun β) : ConnectOp β → Option (ConnectRun β)
  | .start fds hook_enable answer =>
      if s.pc = .called then
        match connectHead fds hook_enable s.fd answer with
        | .error _ => none
        | .ok .refuses => some (s.leave (-1) (some .EBADF))
        | .ok .returns =>
            some ((s.connected answer).leave (if answer = none then 0 else -1) answer)
        | .ok .waits => some { s.connected answer with pc := .connecting }
      else none
  | .arm =>
      if s.pc = .connecting then some { s with pc := .armed, timed := s.timeout_ms != -1 }
      else none
  | .register granted =>
      if s.pc = .armed then
        match s.addEvent granted with
        | .error _ => none
        | .ok (rt, iom) => some { s with iom := iom, pc := if rt = 0 then .held else .asking }
      else none
  | .resume =>
      if s.pc = .held then
        match s.ready.findIdx? fun delivery => delivery.wakes s.fiber with
        | none => none
        | some i => some { s with ready := s.ready.eraseIdx i, pc := .resumed }
      else none
  | .check =>
      if s.pc = .resumed then
        if s.cancelled then some (s.leave (-1) (some .ETIMEDOUT))
        else some { s with pc := .asking }
      else none
  | .getsockopt is_open =>
      if s.pc = .asking then
        if is_open then
          match s.so_error with
          | none => some (s.leave 0 none)
          | some errno => some ({ s with so_error := none }.leave (-1) (some errno))
        else some (s.leave (-1) (some .EBADF))
      else none
  | .fire =>
      if s.timed ∧ s.cancelled = false ∧ s.pc ≠ .returned then
        some { s with cancelled := true, fired := true, cancels := s.cancels + 1 }
      else none
  | .cancelEvent granted =>
      if s.cancels = 0 then none
      else
        match s.iom.cancelEvent s.fd .WRITE granted with
        | .error _ => none
        | .ok ((_, deliveries), iom) =>
            some { s with iom := iom, ready := s.ready ++ deliveries, cancels := s.cancels - 1 }
  | .complete => if s.conn = .inProgress then some { s with conn := .completed } else none
  | .fail errno =>
      if s.conn = .inProgress then
        some { s with conn := .failed, so_error := some errno, reported := s.reported ++ [errno] }
      else none
  | .reset errno =>
      if s.conn = .completed then
        some { s with so_error := some errno, reported := s.reported ++ [errno] }
      else none
  | .events op =>
      -- The kernel reports nothing for the descriptor while it connects.
      if op.reports s.fd ∧ s.conn = .inProgress then none
      else
        match s.iom.exec op with
        | .error _ => none
        | .ok (out, iom) => some { s with iom := iom, ready := s.ready ++ out.deliveries }

def step : Transition.Step (ConnectRun β) (ConnectOp β) Unit := fun s op =>
  (s.exec op).map fun t => ((), t)

/-- `addEvent` succeeds, and until the kernel is done with the connection no operation of
another fiber wakes the connecting one. -/
def Undisturbed (s : ConnectRun β) : ConnectOp β → Prop
  | .register granted => ∀ r ∈ (s.addEvent granted).toOption, r.1 = 0
  | .events op => s.conn.settled = false →
      ∀ r ∈ (s.iom.exec op).toOption, ∀ d ∈ r.1.deliveries, d.wakes s.fiber = false
  | _ => True

instance (s : ConnectRun β) : (op : ConnectOp β) → Decidable (s.Undisturbed op)
  | .register _ => inferInstanceAs (Decidable (∀ r ∈ _, _))
  | .events _ => inferInstanceAs (Decidable (_ → ∀ r ∈ _, _))
  | .start .. | .arm | .resume | .check | .getsockopt _ | .fire | .cancelEvent _ | .complete
  | .fail _ | .reset _ => isTrue trivial

end ConnectRun

end CorReactor
