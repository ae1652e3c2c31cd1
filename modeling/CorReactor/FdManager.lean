import CorReactor.Kernel

set_option autoImplicit false

namespace CorReactor

def SO_RCVTIMEO : Int := 20
def SO_SNDTIMEO : Int := 21

/-- What the user sets on a context. -/
structure FdSettings where
  recvTimeout : UInt64
  sendTimeout : UInt64
  userNonblock : Bool
  deriving DecidableEq, Repr

/-- `FdCtx`. `descriptor` is a ghost: what `init` found open under the number. -/
structure FdCtx where
  m_isInit : Bool
  m_isSocket : Bool
  m_sysNonblock : Bool
  m_userNonblock : Bool
  m_isClosed : Bool
  m_fd : Int
  m_recvTimeout : UInt64
  m_sendTimeout : UInt64
  descriptor : Option Descriptor
  deriving DecidableEq, Repr

namespace FdCtx

def init (ctx : FdCtx) (k : Kernel) : Bool × FdCtx × Kernel :=
  if ctx.m_isInit then (true, ctx, k)
  else
    let ctx := { ctx with m_recvTimeout := -1, m_sendTimeout := -1,
                          descriptor := k.descriptor ctx.m_fd }
    let ctx := match k.fstat ctx.m_fd with
      | none => { ctx with m_isInit := false, m_isSocket := false }
      | some sock => { ctx with m_isInit := true, m_isSocket := sock }
    let r : FdCtx × Kernel :=
      if ctx.m_isSocket then
        let k := match k.getfl ctx.m_fd with
          | none => k
          | some flags =>
              if flags &&& O_NONBLOCK = 0 then (k.setfl ctx.m_fd (flags ||| O_NONBLOCK) true).2
              else k
        ({ ctx with m_sysNonblock := true }, k)
      else ({ ctx with m_sysNonblock := false }, k)
    let ctx := { r.1 with m_userNonblock := false, m_isClosed := false }
    (ctx.m_isInit, ctx, r.2)

/-- The constructor. -/
def new (fd : Int) (k : Kernel) : FdCtx × Kernel :=
  let ctx : FdCtx :=
    { m_isInit := false, m_isSocket := false, m_sysNonblock := false, m_userNonblock := false,
      m_isClosed := false, m_fd := fd, m_recvTimeout := -1, m_sendTimeout := -1,
      descriptor := none }
  (ctx.init k).2

def setTimeout (ctx : FdCtx) (type : Int) (v : UInt64) : FdCtx :=
  if type = SO_RCVTIMEO then { ctx with m_recvTimeout := v } else { ctx with m_sendTimeout := v }

def getTimeout (ctx : FdCtx) (type : Int) : UInt64 :=
  if type = SO_RCVTIMEO then ctx.m_recvTimeout else ctx.m_sendTimeout

def setUserNonblock (ctx : FdCtx) (v : Bool) : FdCtx := { ctx with m_userNonblock := v }

def settings (ctx : FdCtx) : FdSettings :=
  ⟨ctx.m_recvTimeout, ctx.m_sendTimeout, ctx.m_userNonblock⟩

end FdCtx

/-- The address of an `FdCtx`. -/
abbrev CtxId := Nat

/-- What the language leaves undefined. -/
inductive FdFault
  | badIndex
  | badSize
  deriving DecidableEq

structure FdManager where
  m_datas : List (Option CtxId)

namespace FdManager

def new : FdManager := ⟨List.replicate 64 none⟩

/-- `(int)m_datas.size()`. -/
def size (m : FdManager) : Int := (BitVec.ofNat 32 m.m_datas.length).toInt

/-- `m_datas[fd]`. -/
def slot (m : FdManager) (fd : Int) : Except FdFault (Option CtxId) :=
  if fd < 0 then .error .badIndex
  else
    match m.m_datas[fd.toNat]? with
    | none => .error .badIndex
    | some ctx => .ok ctx

/-- `m_datas.resize(fd * 1.5)`. -/
def resize (m : FdManager) (fd : Int) : Except FdFault FdManager :=
  if fd < 0 then .error .badSize
  else
    let size := fd.toNat * 3 / 2
    .ok ⟨m.m_datas.take size ++ List.replicate (size - m.m_datas.length) none⟩

/-- How the first phase of `get` ends. -/
inductive Looked
  | found (ctx : Option CtxId)
  | missing
  deriving DecidableEq

/-- `get` under the read lock. -/
def lookup (m : FdManager) (fd : Int) (auto_create : Bool) : Except FdFault Looked :=
  if fd = -1 then .ok (.found none)
  else if m.size ≤ fd then
    if auto_create = false then .ok (.found none) else .ok .missing
  else
    match m.slot fd with
    | .error fault => .error fault
    | .ok ctx => if ctx.isSome || !auto_create then .ok (.found ctx) else .ok .missing

/-- The end of `get` under the write lock: a new context goes into the table. -/
def insert (m : FdManager) (fd : Int) (ctx : CtxId) : Except FdFault FdManager :=
  match if m.size ≤ fd then m.resize fd else .ok m with
  | .error fault => .error fault
  | .ok m =>
      match m.slot fd with
      | .error fault => .error fault
      | .ok _ => .ok ⟨m.m_datas.set fd.toNat (some ctx)⟩

def del (m : FdManager) (fd : Int) : Except FdFault FdManager :=
  if m.size ≤ fd then .ok m
  else
    match m.slot fd with
    | .error fault => .error fault
    | .ok _ => .ok ⟨m.m_datas.set fd.toNat none⟩

end FdManager

/-- The one `FdManager` with the contexts made so far, over the kernel. -/
structure Fds where
  kernel : Kernel
  mgr : FdManager
  ctxs : List FdCtx

namespace Fds

def boot : Fds := ⟨Kernel.boot, FdManager.new, []⟩

/-- `get` under the write lock. -/
def create (s : Fds) (fd : Int) : Except FdFault (CtxId × Fds) :=
  let made := FdCtx.new fd s.kernel
  match s.mgr.insert fd s.ctxs.length with
  | .error fault => .error fault
  | .ok mgr =>
      .ok (s.ctxs.length, { kernel := made.2, mgr := mgr, ctxs := s.ctxs ++ [made.1] })

/-- `FdManager::get` where nobody comes between its phases. -/
def get (s : Fds) (fd : Int) (auto_create : Bool) : Except FdFault (Option CtxId × Fds) :=
  match s.mgr.lookup fd auto_create with
  | .error fault => .error fault
  | .ok (.found ctx) => .ok (ctx, s)
  | .ok .missing => (s.create fd).map fun r => (some r.1, r.2)

/-- Change the context at an address. -/
def update (s : Fds) (ctx : CtxId) (change : FdCtx → FdCtx) : Fds :=
  { s with ctxs := s.ctxs.modify ctx change }

end Fds

end CorReactor
