import CorReactor.Transition
import Mathlib.Logic.Function.Basic

set_option autoImplicit false

/-! `Socket` with its two cached addresses, over the part of the kernel that names sockets. -/

namespace CorReactor

/-- The bytes of a `sockaddr`. -/
abbrev Sockaddr := List UInt8

def AF_UNIX : Int := 1

def AF_INET : Int := 2

def AF_INET6 : Int := 10

/-- An `Address`: the bytes behind `getAddr` and what `getAddrLen` returns. -/
structure Address where
  m_addr : Sockaddr
  m_length : Nat
  deriving DecidableEq

namespace Address

/-- A cleared `sockaddr` of the given size with its `sa_family_t`. -/
def cleared (family : Int) (size : Nat) : Sockaddr :=
  [UInt8.ofNat (family % 256).toNat, UInt8.ofNat (family / 256 % 256).toNat] ++
    List.replicate (size - 2) 0

def IPv4Address : Address := ⟨cleared AF_INET 16, 16⟩

def IPv6Address : Address := ⟨cleared AF_INET6 28, 28⟩

/-- Its length leaves out the last byte of `sun_path`. -/
def UnixAddress : Address := ⟨cleared AF_UNIX 110, 2 + 107⟩

def UnknownAddress (family : Int) : Address := ⟨cleared family 16, 16⟩

def getFamily (a : Address) : Int := (a.m_addr.getD 0 0).toNat + 256 * (a.m_addr.getD 1 0).toNat

def setAddrLen (a : Address) (v : Nat) : Address := { a with m_length := v }

/-- What `getsockname` and `getpeername` do to an address: they copy as much as it has room
for. -/
def filled (a : Address) (name : Sockaddr) : Address :=
  { a with m_addr := name.take a.m_length ++ a.m_addr.drop (min name.length a.m_length) }

/-- The object made for a family. -/
def empty (m_family : Int) : Address :=
  if m_family = AF_INET then IPv4Address
  else if m_family = AF_INET6 then IPv6Address
  else if m_family = AF_UNIX then UnixAddress
  else UnknownAddress m_family

/-- The object with the name that the kernel reports. -/
def reported (m_family : Int) (name : Sockaddr) : Address :=
  if m_family = AF_UNIX then ((empty m_family).filled name).setAddrLen name.length
  else (empty m_family).filled name

end Address

/-- A socket of the kernel: its local name and, while it is connected, its peer's. -/
structure Endpoint where
  sockname : Sockaddr
  peername : Option Sockaddr

/-- The members of a `Socket`, where no number is the source's `-1`. -/
structure Socket where
  m_sock : Option Nat
  m_family : Int
  m_isConnected : Bool
  m_localAddress : Option Address
  m_remoteAddress : Option Address

/-- A `Socket` and the kernel's sockets by their numbers. -/
structure SocketRun where
  socket : Socket
  kernel : Nat → Option Endpoint

/-- A call on the object with the kernel's answers to it: what `socket` gives where the call
makes one, and the name or the endpoint that `bind`, `listen` or `connect` leads to, or
`none` where it fails. The peer of a connection may also go away on its own. -/
inductive SocketOp
  | bind (created : Option (Nat × Sockaddr)) (addr : Address) (answer : Option Sockaddr)
  | connect (created : Option (Nat × Sockaddr)) (addr : Address) (answer : Option Endpoint)
  | listen (answer : Option Sockaddr)
  | close
  | getLocalAddress
  | getRemoteAddress
  | peerLost

inductive SocketOut
  | returned (ok : Bool)
  | address (a : Address)
  | nothing
  deriving DecidableEq

namespace SocketRun

def isValid (s : SocketRun) : Bool := s.socket.m_sock.isSome

/-- The endpoint behind `m_sock`. -/
def endpoint (s : SocketRun) : Option Endpoint := s.socket.m_sock.bind s.kernel

def getsockname (s : SocketRun) : Option Sockaddr := s.endpoint.map Endpoint.sockname

def getpeername (s : SocketRun) : Option Sockaddr := s.endpoint.bind Endpoint.peername

/-- The kernel's socket behind `m_sock` becomes the given one. -/
def setEndpoint (s : SocketRun) (e : Endpoint) : SocketRun :=
  match s.socket.m_sock with
  | some fd => { s with kernel := Function.update s.kernel fd (some e) }
  | none => s

def setSockname (s : SocketRun) (name : Sockaddr) : SocketRun :=
  match s.endpoint with
  | some e => s.setEndpoint { e with sockname := name }
  | none => s

def dropPeer (s : SocketRun) : SocketRun :=
  match s.endpoint with
  | some e => s.setEndpoint { e with peername := none }
  | none => s

def newSock (s : SocketRun) : Option (Nat × Sockaddr) → SocketRun
  | some (fd, name) =>
      { socket := { s.socket with m_sock := some fd },
        kernel := Function.update s.kernel fd (some ⟨name, none⟩) }
  | none => { s with socket := { s.socket with m_sock := none } }

def getRemoteAddress (s : SocketRun) : Address × SocketRun :=
  match s.socket.m_remoteAddress with
  | some a => (a, s)
  | none =>
      match s.getpeername with
      | none => (Address.UnknownAddress s.socket.m_family, s)
      | some name =>
          let result := Address.reported s.socket.m_family name
          (result, { s with socket := { s.socket with m_remoteAddress := some result } })

def getLocalAddress (s : SocketRun) : Address × SocketRun :=
  match s.socket.m_localAddress with
  | some a => (a, s)
  | none =>
      match s.getsockname with
      | none => (Address.UnknownAddress s.socket.m_family, s)
      | some name =>
          let result := Address.reported s.socket.m_family name
          (result, { s with socket := { s.socket with m_localAddress := some result } })

def close (s : SocketRun) : Bool × SocketRun :=
  if s.socket.m_isConnected = false ∧ s.socket.m_sock = none then (true, s)
  else
    match s.socket.m_sock with
    | some fd =>
        (false, { socket := { s.socket with m_isConnected := false, m_sock := none },
                  kernel := Function.update s.kernel fd none })
    | none => (false, { s with socket := { s.socket with m_isConnected := false } })

/-- The head of `bind` and `connect`. -/
def validated (s : SocketRun) (created : Option (Nat × Sockaddr)) : SocketRun :=
  if s.isValid then s else s.newSock created

def bind (s : SocketRun) (created : Option (Nat × Sockaddr)) (addr : Address)
    (answer : Option Sockaddr) : Bool × SocketRun :=
  let s := s.validated created
  if s.isValid = false then (false, s)
  else if addr.getFamily ≠ s.socket.m_family then (false, s)
  else
    match answer with
    | none => (false, s)
    | some name => (true, (s.setSockname name).getLocalAddress.2)

/-- Both of its calls of the kernel, with and without a timeout, are taken alike. -/
def connect (s : SocketRun) (created : Option (Nat × Sockaddr)) (addr : Address)
    (answer : Option Endpoint) : Bool × SocketRun :=
  let s := s.validated created
  if s.isValid = false then (false, s)
  else if addr.getFamily ≠ s.socket.m_family then (false, s)
  else
    match answer with
    | none => (false, s.close.2)
    | some e =>
        let s := s.setEndpoint e
        let s := { s with socket := { s.socket with m_isConnected := true } }
        (true, s.getRemoteAddress.2.getLocalAddress.2)

def listen (s : SocketRun) (answer : Option Sockaddr) : Bool × SocketRun :=
  if s.isValid = false then (false, s)
  else
    match answer with
    | none => (false, s)
    | some name => (true, s.setSockname name)

/-- The number that `socket` gives, where the call gets to it, is not in use. -/
def Granted (s : SocketRun) : SocketOp → Prop
  | .bind (some (fd, _)) _ _ | .connect (some (fd, _)) _ _ =>
      s.isValid = false → (s.kernel fd).isNone = true
  | _ => True

instance (s : SocketRun) : (op : SocketOp) → Decidable (s.Granted op)
  | .bind (some (fd, _)) _ _ | .connect (some (fd, _)) _ _ =>
      inferInstanceAs (Decidable (s.isValid = false → (s.kernel fd).isNone = true))
  | .bind none _ _ | .connect none _ _ | .listen _ | .close | .getLocalAddress
  | .getRemoteAddress | .peerLost => isTrue trivial

def exec (s : SocketRun) : SocketOp → SocketOut × SocketRun
  | .bind created addr answer => (s.bind created addr answer).map .returned id
  | .connect created addr answer => (s.connect created addr answer).map .returned id
  | .listen answer => (s.listen answer).map .returned id
  | .close => s.close.map .returned id
  | .getLocalAddress => s.getLocalAddress.map .address id
  | .getRemoteAddress => s.getRemoteAddress.map .address id
  | .peerLost => (.nothing, s.dropPeer)

def step : Transition.Step SocketRun SocketOp SocketOut := fun s op =>
  if s.Granted op then some (s.exec op) else none

/-- An object made by the constructor, as the `CreateTCP` functions make it. -/
def new (m_family : Int) : SocketRun := ⟨⟨none, m_family, false, none, none⟩, fun _ => none⟩

/-- An object made by one of the `CreateUDP` functions. -/
def createUDP (m_family : Int) (created : Option (Nat × Sockaddr)) : SocketRun :=
  let s := (new m_family).newSock created
  { s with socket := { s.socket with m_isConnected := true } }

/-- An object that `init` makes for a number from `accept`. -/
def init (m_family : Int) (sock : Nat) (e : Endpoint) : SocketRun :=
  let s : SocketRun := ⟨⟨some sock, m_family, true, none, none⟩,
    Function.update (fun _ => none) sock (some e)⟩
  s.getLocalAddress.2.getRemoteAddress.2

end SocketRun

/-- The ways to get a `Socket`. -/
inductive SocketStart
  | new (m_family : Int)
  | createUDP (m_family : Int) (created : Option (Nat × Sockaddr))
  | init (m_family : Int) (sock : Nat) (e : Endpoint)

namespace SocketStart

def run : SocketStart → SocketRun
  | .new m_family => .new m_family
  | .createUDP m_family created => .createUDP m_family created
  | .init m_family sock e => .init m_family sock e

end SocketStart

end CorReactor
