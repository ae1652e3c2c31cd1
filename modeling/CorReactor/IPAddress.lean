import CorReactor.ByteArrayTyped
import CorReactor.Socket

set_option autoImplicit false

/-! `IPv4Address` and `IPv6Address` with their subnets. -/

namespace CorReactor

/-- On the bits of an unsigned value. -/
def byteswapOnLittleEndian {w : Nat} (t : BitVec w) : BitVec w :=
  if SYLAR_BYTE_ORDER = .little then BitVec.ofNat w (byteswap (w / 8) t.toNat) else t

/-- `CreateMask<T>` for an unsigned type of `w` bits. The shift and the subtraction are those of
`int`; `none` is a shift by the width of that type, or an overflow. -/
def createMask (w bits : Nat) : Option (BitVec w) :=
  let shift := sizeSub w bits
  if 32 ≤ shift then none
  else
    let one : BitVec 32 := 1 <<< shift
    if one = BitVec.intMin 32 then none else some ((~~~(one - 1)).setWidth w)

/-! ### IPv4 -/

structure SockaddrIn where
  sin_family : Int
  sin_port : BitVec 16
  sin_addr : BitVec 32
  deriving DecidableEq

namespace IPv4Address

def new (address : BitVec 32) (port : BitVec 16) : SockaddrIn :=
  ⟨AF_INET, byteswapOnLittleEndian port, byteswapOnLittleEndian address⟩

def getPort (m_addr : SockaddrIn) : BitVec 16 := byteswapOnLittleEndian m_addr.sin_port

/-- The number that `insert` takes apart. -/
def getAddress (m_addr : SockaddrIn) : BitVec 32 := byteswapOnLittleEndian m_addr.sin_addr

section Subnets

variable (m_addr : SockaddrIn) (prefix_len : Nat)

/-- `some none` is a null pointer, and `none` is undefined behaviour on the way. -/
def broadcastAddress : Option (Option SockaddrIn) :=
  if prefix_len > 32 then some none
  else
    (createMask 32 prefix_len).map fun mask =>
      some { m_addr with sin_addr := m_addr.sin_addr ||| byteswapOnLittleEndian mask }

def networdAddress : Option (Option SockaddrIn) :=
  if prefix_len > 32 then some none
  else
    (createMask 32 prefix_len).map fun mask =>
      some { m_addr with sin_addr := m_addr.sin_addr &&& byteswapOnLittleEndian mask }

def subnetMask : Option (Option SockaddrIn) :=
  (createMask 32 prefix_len).map fun mask => some ⟨AF_INET, 0, ~~~byteswapOnLittleEndian mask⟩

end Subnets

end IPv4Address

/-! ### IPv6 -/

structure SockaddrIn6 where
  sin6_family : Int
  sin6_port : BitVec 16
  sin6_addr : Vector UInt8 16

namespace IPv6Address

def new (address : Vector UInt8 16) (port : BitVec 16) : SockaddrIn6 :=
  ⟨AF_INET6, byteswapOnLittleEndian port, address⟩

/-- `s6_addr[i] = f(s6_addr[i])`; `none` is an access outside of the array. -/
def modifyAt (s6_addr : Vector UInt8 16) (i : Nat) (f : UInt8 → UInt8) :
    Option (Vector UInt8 16) :=
  if inside : i < 16 then some (s6_addr.set i (f s6_addr[i])) else none

/-- `for (i = first; i < first + count; ++i) s6_addr[i] = value`. -/
def fill (value : UInt8) : Nat → Nat → Vector UInt8 16 → Option (Vector UInt8 16)
  | _, 0, s6_addr => some s6_addr
  | first, count + 1, s6_addr =>
      (modifyAt s6_addr first fun _ => value).bind (fill value (first + 1) count)

/-- The mask as the byte it is converted to. -/
def createMask8 (bits : Nat) : Option UInt8 := (createMask 8 bits).map UInt8.ofBitVec

section Subnets

variable (m_addr : SockaddrIn6) (prefix_len : Nat)

def broadcastAddress : Option SockaddrIn6 :=
  (createMask8 (prefix_len % 8)).bind fun mask =>
    (modifyAt m_addr.sin6_addr (prefix_len / 8) (· ||| mask)).bind fun bytes =>
      (fill 0xff (prefix_len / 8 + 1) (16 - (prefix_len / 8 + 1)) bytes).map fun bytes =>
        { m_addr with sin6_addr := bytes }

def networdAddress : Option SockaddrIn6 :=
  (createMask8 (prefix_len % 8)).bind fun mask =>
    (modifyAt m_addr.sin6_addr (prefix_len / 8) (· &&& mask)).bind fun bytes =>
      (fill 0x00 (prefix_len / 8 + 1) (16 - (prefix_len / 8 + 1)) bytes).map fun bytes =>
        { m_addr with sin6_addr := bytes }

def subnetMask : Option SockaddrIn6 :=
  (createMask8 (prefix_len % 8)).bind fun mask =>
    (modifyAt (Vector.replicate 16 0) (prefix_len / 8) fun _ => ~~~mask).bind fun bytes =>
      (fill 0xff 0 (prefix_len / 8) bytes).map fun bytes => ⟨AF_INET6, 0, bytes⟩

end Subnets

end IPv6Address

end CorReactor
