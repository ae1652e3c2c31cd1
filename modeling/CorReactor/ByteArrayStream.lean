import CorReactor.ByteArrayCodec

set_option autoImplicit false

/-! Numbers written one after another are read back. -/

namespace CorReactor.ByteArray

open Streams

/-- The numeric formats. -/
inductive Format
  | Fint8
  | Fuint8
  | Fint16
  | Fuint16
  | Fint32
  | Fuint32
  | Fint64
  | Fuint64
  | Int32
  | Uint32
  | Int64
  | Uint64
  | Float
  | Double

namespace Format

/-- The size of its type in bytes. -/
def size : Format → Nat
  | Fint8 | Fuint8 => 1
  | Fint16 | Fuint16 => 2
  | Fint32 | Fuint32 | Int32 | Uint32 | Float => 4
  | Fint64 | Fuint64 | Int64 | Uint64 | Double => 8

def width : Format → Nat
  | Fint8 | Fuint8 => 8
  | Fint16 | Fuint16 => 16
  | Fint32 | Fuint32 | Int32 | Uint32 | Float => 32
  | Fint64 | Fuint64 | Int64 | Uint64 | Double => 64

def write : (format : Format) → BitVec format.width → Op Unit
  | Fint8, value => writeFint8 value
  | Fuint8, value => writeFuint8 value
  | Fint16, value => writeFint16 value
  | Fuint16, value => writeFuint16 value
  | Fint32, value => writeFint32 value
  | Fuint32, value => writeFuint32 value
  | Fint64, value => writeFint64 value
  | Fuint64, value => writeFuint64 value
  | Int32, value => writeInt32 value
  | Uint32, value => writeUint32 value
  | Int64, value => writeInt64 value
  | Uint64, value => writeUint64 value
  | Float, value => writeFloat value
  | Double, value => writeDouble value

def read : (format : Format) → Op (BitVec format.width)
  | Fint8 => readFint8
  | Fuint8 => readFuint8
  | Fint16 => readFint16
  | Fuint16 => readFuint16
  | Fint32 => readFint32
  | Fuint32 => readFuint32
  | Fint64 => readFint64
  | Fuint64 => readFuint64
  | Int32 => readInt32
  | Uint32 => readUint32
  | Int64 => readInt64
  | Uint64 => readUint64
  | Float => readFloat
  | Double => readDouble

/-- The formats whose values all take the bytes of their type. -/
def fixed : Format → Bool
  | Int32 | Uint32 | Int64 | Uint64 => false
  | _ => true

/-- The bytes that stand for a value. -/
def encode (endian : Endian) : (format : Format) → BitVec format.width → List UInt8
  | Int32, value => varintBytes 32 32 (EncodeZigzag32 value)
  | Uint32, value => varintBytes 32 32 value
  | Int64, value => varintBytes 64 64 (EncodeZigzag64 value)
  | Uint64, value => varintBytes 64 64 value
  | format, value => fixedBytes endian format.size value.toNat

variable {endian : Endian}

theorem fixedBytes_one (value : Nat) : fixedBytes endian 1 value = toBytes 1 value := by
  cases endian <;> rfl

theorem write_eq (format : Format) (value : BitVec format.width) (s : ByteArray) :
    format.write value s = ByteArray.write (format.encode s.m_endian value) s := by
  cases format with
  | Fint8 | Fuint8 =>
      change _ = ByteArray.write (fixedBytes s.m_endian 1 value.toNat) s
      rw [fixedBytes_one]
      rfl
  | Int32 | Uint32 | Int64 | Uint64 => rfl
  | Fint16 | Fuint16 => exact writeFixed_eq 2 value.toNat s
  | Fint32 | Fuint32 | Float => exact writeFixed_eq 4 value.toNat s
  | Fint64 | Fuint64 | Double => exact writeFixed_eq 8 value.toNat s

theorem emits_write (format : Format) (value : BitVec format.width) :
    Emits (sink endian) (format.write value) (format.encode endian value) := by
  intro s a t done f rel order
  rw [format.write_eq, order] at done
  exact ByteArray.emits_write _ s a t done f rel order

theorem ofNat_mod {w n : Nat} (wide : 256 ^ n = 2 ^ w) (value : BitVec w) :
    BitVec.ofNat w (value.toNat % 256 ^ n) = value := by
  rw [wide, Nat.mod_eq_of_lt value.isLt, BitVec.ofNat_toNat, BitVec.setWidth_eq]

theorem decodes_byte (value : BitVec 8) :
    Decodes (source endian) readFuint8 (fixedBytes endian 1 value.toNat) value := by
  have byte : Decodes (source endian) readFuint8 _ _ :=
    decodes_readFuint8 (UInt8.ofNat (value.toNat / 256 ^ 0))
  rw [fixedBytes_one]
  have same : BitVec.ofNat 8 (UInt8.ofNat (value.toNat / 256 ^ 0)).toNat = value := by
    rw [Nat.pow_zero, Nat.div_one, UInt8.toNat_ofNat']
    exact ofNat_mod (n := 1) rfl value
  rw [same] at byte
  exact byte

theorem decodes_fixed {w n : Nat} (positive : 0 < n) (wide : 256 ^ n = 2 ^ w)
    (value : BitVec w) : Decodes (source endian) (BitVec.ofNat w <$> readFixed n)
      (fixedBytes endian n value.toNat) value := by
  have bytes : Decodes (source endian) (BitVec.ofNat w <$> readFixed n) _ _ :=
    (decodes_readFixed positive value.toNat).map (BitVec.ofNat w)
  rw [ofNat_mod wide value] at bytes
  exact bytes

theorem decodes_zigzag {w : Nat} {read : Op (BitVec w)} {value : BitVec w} {bytes : List UInt8}
    (decodes : Decodes (source endian) read bytes (EncodeZigzag w value)) :
    Decodes (source endian) (DecodeZigzag w <$> read) bytes value := by
  have decoded := decodes.map (DecodeZigzag w)
  rw [DecodeZigzag_EncodeZigzag] at decoded
  exact decoded

/-- Each read is the inverse of its write. -/
theorem decodes_read (format : Format) (value : BitVec format.width) :
    Decodes (source endian) format.read (format.encode endian value) value := by
  cases format with
  | Fint8 | Fuint8 => exact decodes_byte value
  | Fint16 | Fuint16 => exact decodes_fixed (n := 2) (by decide) rfl value
  | Fint32 | Fuint32 | Float => exact decodes_fixed (n := 4) (by decide) rfl value
  | Fint64 | Fuint64 | Double => exact decodes_fixed (n := 8) (by decide) rfl value
  | Uint32 => exact decodes_readUint32 value
  | Uint64 => exact decodes_readUint64 value
  | Int32 => exact decodes_zigzag (decodes_readUint32 (EncodeZigzag32 value))
  | Int64 => exact decodes_zigzag (decodes_readUint64 (EncodeZigzag64 value))

end Format

/-! ### Streams -/

/-- A number with the format it is written in. -/
structure Number where
  format : Format
  value : BitVec format.width

/-- `setIsLittleEndian(flag)` and a write for each number. -/
def writeAll : List (Bool × Number) → Op Unit
  | [] => pure ()
  | (little, number) :: rest => do
      setIsLittleEndian little
      number.format.write number.value
      writeAll rest

def readAll : List (Bool × Format) → Op (List Number)
  | [] => pure []
  | (little, format) :: rest => do
      setIsLittleEndian little
      let value ← format.read
      let numbers ← readAll rest
      pure (⟨format, value⟩ :: numbers)

/-- The bytes of a number under a flag. -/
def Number.bytes (little : Bool) (number : Number) : List UInt8 :=
  number.format.encode (if little then .little else .big) number.value

def allBytes (numbers : List (Bool × Number)) : List UInt8 :=
  numbers.flatMap fun number => number.2.bytes number.1

theorem setIsLittleEndian_represents {s : ByteArray} {f : Flat} (rel : Represents s f)
    (endian : Endian) : Represents { s with m_endian := endian } f :=
  ⟨setEndian_rep rel.rep endian, rel.position, rel.data⟩

theorem writeAll_represents {numbers : List (Bool × Number)} {s t : ByteArray} {f : Flat}
    (rel : Represents s f) (done : writeAll numbers s = .ok () t) :
    Represents t (f.write (allBytes numbers)) := by
  induction numbers generalizing s f with
  | nil =>
      obtain rfl : s = t := by
        cases done
        rfl
      have same : f.write (allBytes []) = f := f.write_nil
      rw [same]
      exact rel
  | cons first rest ih =>
      obtain ⟨little, number⟩ := first
      unfold writeAll at done
      obtain ⟨⟨⟩, s', flag, done⟩ := bind_ok done
      obtain ⟨⟨⟩, u, written, later⟩ := bind_ok done
      cases flag
      have put := number.format.emits_write number.value _ _ u written f
        (setIsLittleEndian_represents rel _) rfl
      have whole := ih put.1 later
      rw [Flat.write_write] at whole
      exact whole

theorem readAll_eq {numbers : List (Bool × Number)} {s : ByteArray} (rep : Rep s)
    (next : s.unread = allBytes numbers) :
    ∃ u, readAll (numbers.map fun number => (number.1, number.2.format)) s =
      .ok (numbers.map Prod.snd) u ∧ Rep u ∧ u.unread = [] := by
  induction numbers generalizing s with
  | nil => exact ⟨s, rfl, rep, next⟩
  | cons first rest ih =>
      obtain ⟨little, number⟩ := first
      have ordered := setEndian_rep rep (if little then .little else .big)
      have split : s.unread = number.bytes little ++ allBytes rest := next
      have within : (number.bytes little).length ≤ s.unread.length := by
        rw [split, List.length_append]
        omega
      have read : number.format.read { s with m_endian := if little then .little else .big } =
          .ok number.value (ByteArray.advance
            { s with m_endian := if little then .little else .big }
            (number.bytes little).length) :=
        number.format.decodes_read number.value _ _
          ⟨⟨ordered, rfl⟩, ⟨allBytes rest, split.symm⟩, rfl⟩
      have left : (ByteArray.advance { s with m_endian := if little then .little else .big }
          (number.bytes little).length).unread = allBytes rest := by
        rw [unread_advance]
        change s.unread.drop _ = _
        rw [split, List.drop_left]
      obtain ⟨u, later, rep', none⟩ := ih (ordered.advance within) left
      refine ⟨u, ?_, rep', none⟩
      simp only [List.map_cons]
      unfold readAll
      rw [Op.bind_apply]
      change (number.format.read >>= fun value =>
        readAll (rest.map fun number => (number.1, number.2.format)) >>= fun numbers =>
          pure (⟨number.format, value⟩ :: numbers))
        { s with m_endian := if little then .little else .big } = _
      rw [Op.bind_apply, read]
      change (readAll (rest.map fun number => (number.1, number.2.format)) >>= fun numbers =>
          pure (⟨number.format, number.value⟩ :: numbers)) _ = _
      rw [Op.bind_apply, later]
      rfl

theorem Number.bytes_fixed {little : Bool} {number : Number} (fixed : number.format.fixed = true) :
    number.bytes little =
      fixedBytes (if little then .little else .big) number.format.size number.value.toNat := by
  obtain ⟨format, value⟩ := number
  cases format with
  | Int32 | Uint32 | Int64 | Uint64 => cases fixed
  | _ => rfl

/-- Whatever is written to a fresh array is read back under the same flags. In the array
the values stand one behind the other, those of a fixed width as their bytes in the order
of the flag. -/
theorem writeAll_round_trip {base_size : Nat} (positive : 0 < base_size) (heap : Nat → UInt8)
    {numbers : List (Bool × Number)} {t : ByteArray}
    (done : writeAll numbers (new base_size heap) = .ok () t) :
    (∃ u, (setPosition 0 >>= fun _ =>
        readAll (numbers.map fun number => (number.1, number.2.format))) t =
      .ok (numbers.map Prod.snd) u ∧ u.getReadSize = 0) ∧
    (∃ u, (setPosition 0 >>= fun _ => toString) t = .ok (allBytes numbers) u) ∧
    ∀ little (number : Number), number.format.fixed = true →
      number.bytes little = (if little then toBytes number.format.size number.value.toNat
        else (toBytes number.format.size number.value.toNat).reverse) ∧
      (number.bytes little).length = number.format.size := by
  have rel := writeAll_represents (Represents.new positive heap) done
  obtain ⟨r, start, rewound⟩ := rel.rewind
  have stored : r.unread = allBytes numbers := by
    rw [rewound.unread_eq, List.drop_zero, Flat.empty_write]
  refine ⟨?_, ?_, ?_⟩
  · obtain ⟨u, read, rep', none⟩ := readAll_eq rewound.rep stored
    refine ⟨u, ?_, ?_⟩
    · rw [Op.bind_apply, start]
      exact read
    · rw [rep'.getReadSize_eq, ← rep'.length_unread, none]
      rfl
  · refine ⟨r, ?_⟩
    rw [Op.bind_apply, start]
    dsimp only
    rw [rewound.toString_eq, ← rewound.unread_eq, stored]
  · intro little number fixed
    rw [Number.bytes_fixed fixed]
    refine ⟨?_, length_fixedBytes _ _ _⟩
    cases little <;> rfl

/-- A fixed width and a varint, in blocks of two bytes and in both byte orders. -/
theorem writeAll_round_trip_two :
    ∃ t u v, writeAll [(false, ⟨.Fuint32, 7#32⟩), (true, ⟨.Int32, -3#32⟩)]
        (new 2 fun _ => 0) = .ok () t ∧
      (setPosition 0 >>= fun _ => readAll [(false, .Fuint32), (true, .Int32)]) t =
        .ok [⟨.Fuint32, 7#32⟩, ⟨.Int32, -3#32⟩] u ∧
      (setPosition 0 >>= fun _ => toString) t = .ok [0, 0, 0, 7, 5] v := by
  have done : ∃ t, writeAll [(false, ⟨.Fuint32, 7#32⟩), (true, ⟨.Int32, -3#32⟩)]
      (new 2 fun _ => 0) = .ok () t := ⟨_, rfl⟩
  obtain ⟨t, done⟩ := done
  obtain ⟨⟨u, read, -⟩, ⟨v, stored⟩, -⟩ := writeAll_round_trip (by decide) _ done
  have bytes : allBytes [(false, ⟨.Fuint32, 7#32⟩), (true, ⟨.Int32, -3#32⟩)] =
      [0, 0, 0, 7, 5] := by decide
  rw [bytes] at stored
  exact ⟨t, u, v, done, read, stored⟩

end CorReactor.ByteArray
