import CorReactor.ByteArray

set_option autoImplicit false

/-! The typed formats of `ByteArray`. An integer or the bit pattern of a floating-point
number is a `BitVec`; a `std::string` is a list of bytes. -/

namespace CorReactor

/-- Object representation of an unsigned `n`-byte value on the host. -/
def toBytes (n value : Nat) : List UInt8 :=
  (List.range n).map fun i => UInt8.ofNat (value / 256 ^ i)

/-- The value whose object representation is `bytes`. -/
def fromBytes : List UInt8 → Nat
  | [] => 0
  | b :: rest => b.toNat + 256 * fromBytes rest

/-- `byteswap` on an `n`-byte value. -/
def byteswap (n value : Nat) : Nat := fromBytes (toBytes n value).reverse

def EncodeZigzag (w : Nat) (v : BitVec w) : BitVec w :=
  if v.slt 0 then -v * 2 - 1 else v * 2

def DecodeZigzag (w : Nat) (v : BitVec w) : BitVec w :=
  (v >>> 1) ^^^ -(v &&& 1)

def EncodeZigzag32 : BitVec 32 → BitVec 32 := EncodeZigzag 32
def EncodeZigzag64 : BitVec 64 → BitVec 64 := EncodeZigzag 64
def DecodeZigzag32 : BitVec 32 → BitVec 32 := DecodeZigzag 32
def DecodeZigzag64 : BitVec 64 → BitVec 64 := DecodeZigzag 64

/-- The loop that fills `tmp`. A `w`-bit value is used up before `w` rounds. -/
def varintBytes (w : Nat) : Nat → BitVec w → List UInt8
  | 0, value => [UInt8.ofNat value.toNat]
  | rounds + 1, value =>
      if value.toNat ≥ 0x80 then
        (UInt8.ofNat (value.toNat &&& 0x7F) ||| 0x80) :: varintBytes w rounds (value >>> 7)
      else [UInt8.ofNat value.toNat]

/-- The largest length `std::string::resize` takes. -/
def stringMaxSize : Nat := 2 ^ 63 - 1

namespace ByteArray

/-! ### Fixed width -/

def writeFixed (n value : Nat) : Op Unit := fun s =>
  write (toBytes n (if s.m_endian ≠ SYLAR_BYTE_ORDER then byteswap n value else value)) s

/-- The body that the macro `XX(type)` gives the reads. -/
def readFixed (n : Nat) : Op Nat := do
  let v ← fromBytes <$> read n
  let s ← get
  if s.m_endian = SYLAR_BYTE_ORDER then pure v else pure (byteswap n v)

/-- The one-byte formats look at no byte order. -/
def writeFint8 (value : BitVec 8) : Op Unit := write (toBytes 1 value.toNat)
def writeFuint8 (value : BitVec 8) : Op Unit := write (toBytes 1 value.toNat)
def writeFint16 (value : BitVec 16) : Op Unit := writeFixed 2 value.toNat
def writeFuint16 (value : BitVec 16) : Op Unit := writeFixed 2 value.toNat
def writeFint32 (value : BitVec 32) : Op Unit := writeFixed 4 value.toNat
def writeFuint32 (value : BitVec 32) : Op Unit := writeFixed 4 value.toNat
def writeFint64 (value : BitVec 64) : Op Unit := writeFixed 8 value.toNat
def writeFuint64 (value : BitVec 64) : Op Unit := writeFixed 8 value.toNat

def readFint8 : Op (BitVec 8) := (fun bytes => BitVec.ofNat 8 (fromBytes bytes)) <$> read 1
def readFuint8 : Op (BitVec 8) := (fun bytes => BitVec.ofNat 8 (fromBytes bytes)) <$> read 1
def readFint16 : Op (BitVec 16) := BitVec.ofNat 16 <$> readFixed 2
def readFuint16 : Op (BitVec 16) := BitVec.ofNat 16 <$> readFixed 2
def readFint32 : Op (BitVec 32) := BitVec.ofNat 32 <$> readFixed 4
def readFuint32 : Op (BitVec 32) := BitVec.ofNat 32 <$> readFixed 4
def readFint64 : Op (BitVec 64) := BitVec.ofNat 64 <$> readFixed 8
def readFuint64 : Op (BitVec 64) := BitVec.ofNat 64 <$> readFixed 8

def writeFloat (value : BitVec 32) : Op Unit := writeFuint32 value
def writeDouble (value : BitVec 64) : Op Unit := writeFuint64 value
def readFloat : Op (BitVec 32) := readFuint32
def readDouble : Op (BitVec 64) := readFuint64

/-! ### Varints -/

def writeUint32 (value : BitVec 32) : Op Unit := write (varintBytes 32 32 value)
def writeUint64 (value : BitVec 64) : Op Unit := write (varintBytes 64 64 value)
def writeInt32 (value : BitVec 32) : Op Unit := writeUint32 (EncodeZigzag32 value)
def writeInt64 (value : BitVec 64) : Op Unit := writeUint64 (EncodeZigzag64 value)

/-- The loop of `readUint32` and `readUint64` over the shifts `i` still to come. -/
def readVarint (w : Nat) : List Nat → BitVec w → Op (BitVec w)
  | [], result => pure result
  | i :: shifts, result => do
      let b ← readFuint8
      if b.toNat < 0x80 then pure (result ||| (b.setWidth w <<< i))
      else readVarint w shifts (result ||| ((b &&& 0x7f).setWidth w <<< i))

/-- The values of `i` in `for (int i = 0; i < w; i += 7)`. -/
def varintShifts (w : Nat) : List Nat := (List.range ((w + 6) / 7)).map (7 * ·)

def readUint32 : Op (BitVec 32) := readVarint 32 (varintShifts 32) 0
def readUint64 : Op (BitVec 64) := readVarint 64 (varintShifts 64) 0
def readInt32 : Op (BitVec 32) := DecodeZigzag32 <$> readUint32
def readInt64 : Op (BitVec 64) := DecodeZigzag64 <$> readUint64

/-! ### Strings -/

def writeStringF16 (value : List UInt8) : Op Unit := do
  writeFuint16 (BitVec.ofNat 16 value.length)
  write value

def writeStringF32 (value : List UInt8) : Op Unit := do
  writeFuint32 (BitVec.ofNat 32 value.length)
  write value

def writeStringF64 (value : List UInt8) : Op Unit := do
  writeFuint64 (BitVec.ofNat 64 value.length)
  write value

def writeStringVint (value : List UInt8) : Op Unit := do
  writeUint64 (BitVec.ofNat 64 value.length)
  write value

def writeStringWithoutLength (value : List UInt8) : Op Unit := write value

/-- `buff.resize(len)` and the read into it. -/
def readResized (len : Nat) : Op (List UInt8) := fun s =>
  if len > stringMaxSize then .error .lengthError s else read len s

def readStringF16 : Op (List UInt8) := do
  let len ← readFuint16
  readResized len.toNat

def readStringF32 : Op (List UInt8) := do
  let len ← readFuint32
  readResized len.toNat

def readStringF64 : Op (List UInt8) := do
  let len ← readFuint64
  readResized len.toNat

def readStringVint : Op (List UInt8) := do
  let len ← readUint64
  readResized len.toNat

end ByteArray

end CorReactor
