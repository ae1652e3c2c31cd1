import CorReactor.Http
import CorReactor.IPAddress

set_option autoImplicit false

/-! The text of an `IPv6Address`, and the address that a text stands for. -/

namespace CorReactor.IPv6Address

open Http
open Http.HttpRequest (decimal)

/-! ### Writing -/

/-- `std::hex << (int)v` for a value that is not negative. -/
def hexadecimal (n : Nat) : Bytes := (Nat.toDigits 16 n).map fun c => c.toNat.toUInt8

/-- `(uint16_t *)s6_addr`. -/
def groups : List UInt8 → List (BitVec 16)
  | first :: second :: rest => BitVec.ofNat 16 (fromBytes [first, second]) :: groups rest
  | _ => []

/-- `(int)byteswapOnLittleEndian(addr[i])` as it is printed. -/
def digits (v : BitVec 16) : Bytes := hexadecimal (byteswapOnLittleEndian v).toNat

/-- The rounds of the loop over the rest of `addr`: what they write, and `used_zeros` after them.
`before` is `addr[i - 1]`, if there is one. -/
def insertLoop (used_zeros : Bool) (before : Option (BitVec 16)) :
    List (BitVec 16) → Bytes × Bool
  | [] => ([], used_zeros)
  | v :: rest =>
      if v = 0 ∧ used_zeros = false then insertLoop used_zeros (some v) rest
      else
        let skipped := decide (before = some 0 ∧ used_zeros = false)
        let loop := insertLoop (used_zeros || skipped) (some v) rest
        ((if skipped then bytes ":" else []) ++ (if before.isSome then bytes ":" else []) ++
          digits v ++ loop.1, loop.2)

/-- What stands between the brackets. -/
def insertText (s6_addr : Vector UInt8 16) : Bytes :=
  let addr := groups s6_addr.toList
  let loop := insertLoop false none addr
  if loop.2 = false ∧ addr[7]? = some 0 then loop.1 ++ bytes "::" else loop.1

def insert (m_addr : SockaddrIn6) : Bytes :=
  bytes "[" ++ insertText m_addr.sin6_addr ++ bytes "]:" ++
    decimal (byteswapOnLittleEndian m_addr.sin6_port).toNat

/-! ### Reading -/

/-- With `inet_pton(AF_INET6, ...)` as the function it computes. -/
def Create (inet_pton : Bytes → Option (Vector UInt8 16)) (address : Bytes) (port : BitVec 16) :
    Option SockaddrIn6 :=
  (inet_pton address).map fun sin6_addr =>
    ⟨AF_INET6, byteswapOnLittleEndian port, sin6_addr⟩

def hexValue (c : UInt8) : Option Nat :=
  if 48 ≤ c ∧ c ≤ 57 then some (c.toNat - 48)
  else if 97 ≤ c ∧ c ≤ 102 then some (c.toNat - 87)
  else if 65 ≤ c ∧ c ≤ 70 then some (c.toNat - 55)
  else none

/-- One group: one to four hexadecimal digits. -/
def field (text : Bytes) : Option (BitVec 16) :=
  if 1 ≤ text.length ∧ text.length ≤ 4 then
    (text.mapM hexValue).map fun values => BitVec.ofNat 16 (values.foldl (fun n d => 16 * n + d) 0)
  else none

/-- Groups with colons between them. -/
def fields (text : Bytes) : Option (List (BitVec 16)) :=
  if text = [] then some [] else (text.splitOn 58).mapM field

/-- The text before the first double colon, and the text behind it. -/
def cutAtDouble : Bytes → Option (Bytes × Bytes)
  | [] => none
  | c :: rest =>
      if c = 58 ∧ rest.head? = some 58 then some ([], rest.tail)
      else (cutAtDouble rest).map fun cut => (c :: cut.1, cut.2)

/-- The eight groups that a text stands for: all of them written out, or a double colon for those
that are missing, which are zero. These are forms 1 and 2 of section 2.2 of RFC 4291; the text of
form 3 has dots. -/
def expandGroups (text : Bytes) : Option (List (BitVec 16)) :=
  match cutAtDouble text with
  | none => (fields text).bind fun all => if all.length = 8 then some all else none
  | some (front, back) =>
      (fields front).bind fun high => (fields back).bind fun low =>
        if high.length + low.length ≤ 7 then
          some (high ++ List.replicate (8 - (high.length + low.length)) 0 ++ low)
        else none

/-- The bytes of the address, those of a group with the high one first. -/
def expand (text : Bytes) : Option Bytes :=
  (expandGroups text).map fun all =>
    all.flatMap fun v => [UInt8.ofNat (v.toNat / 256), UInt8.ofNat (v.toNat % 256)]

/-- `1*4HEXDIG`. -/
def Field (text : Bytes) : Prop :=
  1 ≤ text.length ∧ text.length ≤ 4 ∧ ∀ c ∈ text, (hexValue c).isSome

def colons (texts : List Bytes) : Bytes := [58].intercalate texts

/-- The same forms as a grammar. -/
inductive WellFormed : Bytes → Prop
  | full (texts : List Bytes) (each : ∀ t ∈ texts, Field t) (eight : texts.length = 8) :
      WellFormed (colons texts)
  | compressed (front back : List Bytes) (high : ∀ t ∈ front, Field t) (low : ∀ t ∈ back, Field t)
      (few : front.length + back.length ≤ 7) :
      WellFormed (colons front ++ bytes "::" ++ colons back)

/-- The number of places with a double colon. -/
def doubles : Bytes → Nat
  | [] => 0
  | c :: rest => (if c = 58 ∧ rest.head? = some 58 then 1 else 0) + doubles rest

example : insertText #v[0x20, 0x01, 0x0d, 0xb8, 0, 0, 0, 1, 0, 0, 0, 0, 0, 0, 0, 0] =
    bytes "2001:db8::1:0:0:0:0" := by
  decide

end CorReactor.IPv6Address
