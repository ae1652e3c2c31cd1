import CorReactor.ByteArrayFlat
import CorReactor.ByteArrayTyped
import CorReactor.Streams

set_option autoImplicit false

/-! What each typed write leaves in the flat buffer, and that the matching read gives the
value back. -/

namespace CorReactor

/-! ### Bytes of a number -/

theorem toBytes_succ (n value : Nat) :
    toBytes (n + 1) value = UInt8.ofNat value :: toBytes n (value / 256) := by
  unfold toBytes
  rw [List.range_succ_eq_map, List.map_cons, List.map_map, Nat.pow_zero, Nat.div_one]
  congr 1
  apply List.map_congr_left
  intro i _
  simp only [Function.comp_apply, Nat.pow_succ']
  rw [Nat.div_div_eq_div_mul]

@[simp] theorem length_toBytes (n value : Nat) : (toBytes n value).length = n := by
  unfold toBytes
  rw [List.length_map, List.length_range]

theorem fromBytes_toBytes (n value : Nat) : fromBytes (toBytes n value) = value % 256 ^ n := by
  induction n generalizing value with
  | zero =>
      rw [Nat.pow_zero, Nat.mod_one]
      rfl
  | succ n ih =>
      rw [toBytes_succ, fromBytes, ih, Nat.pow_succ', Nat.mod_mul]
      rfl

theorem toBytes_fromBytes (bytes : List UInt8) :
    toBytes bytes.length (fromBytes bytes) = bytes := by
  induction bytes with
  | nil => rfl
  | cons b rest ih =>
      have small := b.toNat_lt
      have low : UInt8.ofNat (b.toNat + 256 * fromBytes rest) = b := by
        apply UInt8.toNat_inj.mp
        rw [UInt8.toNat_ofNat']
        omega
      have high : (b.toNat + 256 * fromBytes rest) / 256 = fromBytes rest := by
        omega
      rw [List.length_cons, toBytes_succ, fromBytes, low, high, ih]

/-- The bytes of a swapped value are the bytes in the other order. -/
theorem toBytes_byteswap (n value : Nat) :
    toBytes n (byteswap n value) = (toBytes n value).reverse := by
  have whole := toBytes_fromBytes (toBytes n value).reverse
  rw [List.length_reverse, length_toBytes] at whole
  exact whole

theorem byteswap_fromBytes (n value : Nat) :
    byteswap n (fromBytes (toBytes n value).reverse) = value % 256 ^ n := by
  unfold byteswap
  have swapped := toBytes_byteswap n value
  unfold byteswap at swapped
  rw [swapped, List.reverse_reverse, fromBytes_toBytes]

/-! ### Zigzag -/

theorem EncodeZigzag_eq {w : Nat} (v : BitVec w) :
    EncodeZigzag w v = if v.msb then ~~~(v <<< 1) else v <<< 1 := by
  have double : v * 2#w = v <<< 1 := by
    apply BitVec.eq_of_toNat_eq
    rw [BitVec.toNat_mul, BitVec.toNat_shiftLeft, BitVec.toNat_ofNat, Nat.mul_mod_mod,
      Nat.shiftLeft_eq, Nat.pow_one]
  unfold EncodeZigzag
  change (if v.slt 0#w then -v * 2#w - 1#w else v * 2#w) = _
  rw [BitVec.slt_zero_eq_msb]
  split
  · rw [BitVec.neg_mul, double, BitVec.not_eq_neg_add]
  · exact double

theorem DecodeZigzag_eq {w : Nat} (v : BitVec w) :
    DecodeZigzag w v = if v.getLsbD 0 then ~~~(v >>> 1) else v >>> 1 := by
  unfold DecodeZigzag
  change (v >>> 1) ^^^ -(v &&& 1#w) = _
  rw [BitVec.and_one_eq_setWidth_ofBool_getLsbD]
  cases v.getLsbD 0 with
  | true =>
      have one : (BitVec.ofBool true).setWidth w = 1#w :=
        BitVec.setWidth_ofNat_one_eq_ofNat_one_of_lt (by decide : 0 < 1)
      rw [one, BitVec.neg_one_eq_allOnes, BitVec.xor_allOnes]
      rfl
  | false =>
      have zero : (BitVec.ofBool false).setWidth w = 0#w := BitVec.setWidth_zero ..
      rw [zero, BitVec.neg_zero, BitVec.xor_zero]
      rfl

/-- Also for the smallest value, whose negation is itself. -/
theorem DecodeZigzag_EncodeZigzag {w : Nat} (v : BitVec w) :
    DecodeZigzag w (EncodeZigzag w v) = v := by
  rw [EncodeZigzag_eq, DecodeZigzag_eq]
  apply BitVec.eq_of_getLsbD_eq
  intro i inside
  have positive : 0 < w := by omega
  cases negative : v.msb with
  | true =>
      have low : (~~~(v <<< 1)).getLsbD 0 = true := by
        simp only [BitVec.getLsbD_not, BitVec.getLsbD_shiftLeft, positive, zero_lt_one,
          decide_true, Bool.not_true, Bool.and_false, Bool.false_and, Bool.not_false,
          Bool.and_true]
      rw [BitVec.msb_eq_getLsbD_last] at negative
      rw [if_pos rfl, if_pos low]
      simp only [BitVec.getLsbD_not, BitVec.getLsbD_ushiftRight, BitVec.getLsbD_shiftLeft]
      grind
  | false =>
      have low : ¬ (v <<< 1).getLsbD 0 = true := by
        simp only [BitVec.getLsbD_shiftLeft, zero_lt_one, decide_true, Bool.not_true,
          Bool.and_false, Bool.false_and, Bool.false_eq_true, not_false_eq_true]
      rw [BitVec.msb_eq_getLsbD_last] at negative
      rw [if_neg Bool.false_ne_true, if_neg low]
      simp only [BitVec.getLsbD_ushiftRight, BitVec.getLsbD_shiftLeft]
      grind

namespace ByteArray

open Blocks Streams

/-! ### The array as a source -/

/-- The array when the next `count` bytes have been read. -/
def advance (s : ByteArray) (count : Nat) : ByteArray :=
  { s with
    m_position := s.m_position + count
    m_cur := nodePtr s.m_root ((s.m_position + count) / s.m_baseSize) }

/-- The stored bytes from the position on. -/
def unread (s : ByteArray) : List UInt8 := (s.content.take s.m_size).drop s.m_position

variable {s : ByteArray}

theorem Rep.length_unread (rep : Rep s) : s.unread.length = s.m_size - s.m_position := by
  have bound := rep.size_le
  unfold unread
  rw [List.length_drop, List.length_take, rep.content_length, min_eq_left bound]

theorem Represents.unread_eq {f : Flat} (rel : Represents s f) :
    s.unread = f.data.drop f.pos := by
  unfold unread
  rw [rel.data, rel.position]

theorem take_content {count : Nat} (within : count ≤ s.m_size - s.m_position) :
    (s.content.drop s.m_position).take count = s.unread.take count := by
  unfold unread
  rw [List.drop_take, List.take_take, min_eq_left within]

theorem advance_zero (rep : Rep s) : s.advance 0 = s := by
  unfold advance
  rw [Nat.add_zero, ← rep.cur]

theorem advance_advance (s : ByteArray) (first second : Nat) :
    (s.advance first).advance second = s.advance (first + second) := by
  unfold advance
  simp only [Nat.add_assoc]

theorem unread_advance (s : ByteArray) (count : Nat) :
    (s.advance count).unread = s.unread.drop count := by
  unfold unread
  rw [List.drop_drop]
  rfl

theorem Rep.advance (rep : Rep s) {count : Nat} (within : count ≤ s.unread.length) :
    Rep (s.advance count) := by
  rw [rep.length_unread] at within
  exact read_rep rep (Nat.not_lt.mpr within)

/-- In the byte order `endian`: the bytes come next, and `u` has read them. -/
def source (endian : Endian) : Source ByteArray UInt8 where
  Next s xs u := (Rep s ∧ s.m_endian = endian) ∧ xs <+: s.unread ∧ u = s.advance xs.length
  next_nil := by
    rintro s u ⟨⟨rep, -⟩, -, rfl⟩
    exact advance_zero rep
  next_append := by
    rintro s v xs ys ⟨⟨rep, order⟩, whole, rfl⟩
    obtain ⟨rest, next⟩ := whole
    have within : xs.length ≤ s.unread.length := by
      rw [← next, List.length_append, List.length_append]
      omega
    refine ⟨s.advance xs.length, ⟨⟨rep, order⟩, ⟨ys ++ rest, ?_⟩, rfl⟩, ⟨rep.advance within, order⟩,
      ?_, ?_⟩
    · rw [← next, List.append_assoc]
    · rw [unread_advance, ← next, List.append_assoc, List.drop_left]
      exact List.prefix_append ys rest
    · rw [advance_advance, List.length_append]

variable {endian : Endian}

theorem decodes_read {xs : List UInt8} (some_bytes : xs ≠ []) :
    Decodes (source endian) (read xs.length) xs xs := by
  rintro s u ⟨⟨rep, -⟩, ⟨rest, next⟩, rfl⟩
  have stored := rep.length_unread
  rw [← next, List.length_append] at stored
  have positive := List.length_pos_of_ne_nil some_bytes
  have bound := rep.size_le
  rw [read_eq rep, if_neg (by omega), if_neg (by omega), take_content (by omega), ← next,
    List.take_left]
  rfl

/-! ### The array as a sink -/

namespace Flat

theorem write_nil (f : Flat) : f.write [] = f := by
  unfold write
  simp only [splice_nil, List.length_nil, Nat.add_zero]

theorem write_write (f : Flat) (xs ys : List UInt8) :
    (f.write xs).write ys = f.write (xs ++ ys) := by
  unfold write
  simp only [splice_splice _ _ _ _ f.inside, List.length_append, Nat.add_assoc]

end Flat

/-- In the byte order `endian`: the bytes are written to the flat buffer. -/
def sink (endian : Endian) : Sink ByteArray UInt8 where
  Put s xs t := ∀ f, Represents s f → s.m_endian = endian →
    Represents t (f.write xs) ∧ t.m_endian = endian
  put_nil := by
    intro s f rel order
    rw [Flat.write_nil]
    exact ⟨rel, order⟩
  put_append := by
    intro s t u xs ys first second f rel order
    obtain ⟨middle, same⟩ := first f rel order
    rw [← Flat.write_write]
    exact second _ middle same

theorem emits_write (buf : List UInt8) : Emits (sink endian) (write buf) buf := by
  rintro s ⟨⟩ t done f rel order
  refine ⟨rel.write_sim done, ?_⟩
  by_cases empty : buf = []
  · subst empty
    have same : EStateM.Result.ok () s = EStateM.Result.ok () t := done
    cases same
    exact order
  · have spec := write_spec rel.rep empty
    split at spec
    · obtain ⟨u, same, written⟩ := spec
      rw [same] at done
      cases done
      rw [written.endian, (addCapacity_grown rel.rep buf.length).endian]
      exact order
    · rw [spec] at done
      cases done

/-! ### Fixed width -/

/-- An `n`-byte value in a byte order. -/
def fixedBytes (endian : Endian) (n value : Nat) : List UInt8 :=
  match endian with
  | .little => toBytes n value
  | .big => (toBytes n value).reverse

@[simp] theorem length_fixedBytes (endian : Endian) (n value : Nat) :
    (fixedBytes endian n value).length = n := by
  cases endian with
  | little => exact length_toBytes n value
  | big => exact List.length_reverse.trans (length_toBytes n value)

theorem writeFixed_eq (n value : Nat) (s : ByteArray) :
    writeFixed n value s = write (fixedBytes s.m_endian n value) s := by
  unfold writeFixed
  cases s.m_endian with
  | little => rfl
  | big => exact congrArg (write · s) (toBytes_byteswap n value)

theorem decodes_readFixed {n : Nat} (positive : 0 < n) (value : Nat) :
    Decodes (source endian) (readFixed n) (fixedBytes endian n value) (value % 256 ^ n) := by
  have some_bytes : fixedBytes endian n value ≠ [] := by
    apply List.ne_nil_of_length_pos
    rw [length_fixedBytes]
    exact positive
  have bytes : Decodes (source endian) _ _ _ := (decodes_read some_bytes).map fromBytes
  rw [length_fixedBytes] at bytes
  intro s u next
  have order : u.m_endian = endian := by
    obtain ⟨⟨-, order⟩, -, rfl⟩ := next
    exact order
  unfold readFixed
  rw [Op.bind_apply, bytes s u next]
  change (if u.m_endian = SYLAR_BYTE_ORDER then pure (fromBytes (fixedBytes endian n value))
    else pure (byteswap n (fromBytes (fixedBytes endian n value))) : Op Nat) u = _
  rw [order]
  cases endian with
  | little => exact congrArg (EStateM.Result.ok · u) (fromBytes_toBytes n value)
  | big => exact congrArg (EStateM.Result.ok · u) (byteswap_fromBytes n value)

/-! ### Varints -/

/-- Seven bits and the rest make up the value. -/
theorem shift_or_shift {w : Nat} (value : BitVec w) (i : Nat) :
    ((value.setWidth 7).setWidth w <<< i) ||| ((value >>> 7) <<< (i + 7)) = value <<< i := by
  apply BitVec.eq_of_getLsbD_eq
  intro j inside
  simp only [BitVec.getLsbD_or, BitVec.getLsbD_shiftLeft, BitVec.getLsbD_setWidth,
    BitVec.getLsbD_ushiftRight]
  grind

/-- The byte of a value with more to come. -/
theorem continued_toNat (value : Nat) :
    (UInt8.ofNat (value &&& 0x7F) ||| 0x80).toNat = value % 128 + 128 := by
  have low : value &&& 0x7F = value % 128 := Nat.and_two_pow_sub_one_eq_mod value 7
  have small : value % 128 < 2 ^ 7 := Nat.mod_lt _ (by decide)
  have apart : 128 + value % 128 = 128 ||| value % 128 := Nat.two_pow_add_eq_or_of_lt small 1
  rw [UInt8.toNat_or, UInt8.toNat_ofNat', low]
  change (value % 128) % 256 ||| 128 = _
  rw [Nat.mod_eq_of_lt (by omega), Nat.or_comm]
  omega

theorem decodes_readFuint8 (b : UInt8) :
    Decodes (source endian) readFuint8 [b] (BitVec.ofNat 8 b.toNat) :=
  (decodes_read (List.cons_ne_nil b [])).map _

/-- The loop from its `k`-th turn on, the bits below `7 * k` read. -/
theorem decodes_readVarint {w rounds k : Nat} (count : rounds + k = w) (turn : 7 * k < w)
    (value result : BitVec w) (small : value.toNat < 2 ^ (w - 7 * k)) :
    Decodes (source endian)
      (readVarint w ((List.range' k ((w + 6) / 7 - k)).map (7 * ·)) result)
      (varintBytes w rounds value) (result ||| value <<< (7 * k)) := by
  induction rounds generalizing k value result with
  | zero => omega
  | succ rounds ih =>
      have here : (w + 6) / 7 - k = (w + 6) / 7 - (k + 1) + 1 := by omega
      rw [here, List.range'_succ, List.map_cons]
      unfold readVarint varintBytes
      split
      · rename_i more
        have wide : 7 < w - 7 * k := by
          by_contra narrow
          have := Nat.pow_le_pow_right (by decide : 0 < 2) (Nat.le_of_not_lt narrow)
          omega
        have byte := continued_toNat value.toNat
        have rest : (value >>> 7).toNat < 2 ^ (w - 7 * (k + 1)) := by
          rw [BitVec.toNat_ushiftRight, Nat.shiftRight_eq_div_pow]
          apply Nat.div_lt_of_lt_mul
          rw [← Nat.pow_add]
          have same : 7 + (w - 7 * (k + 1)) = w - 7 * k := by omega
          rw [same]
          exact small
        apply (decodes_readFuint8 _).bind
        rw [byte]
        have again : ¬ (BitVec.ofNat 8 (value.toNat % 128 + 128)).toNat < 0x80 := by
          rw [BitVec.toNat_ofNat]
          omega
        have bits : (BitVec.ofNat 8 (value.toNat % 128 + 128) &&& 0x7f).setWidth w =
            (value.setWidth 7).setWidth w := by
          apply BitVec.eq_of_toNat_eq
          have mask : (value.toNat % 128 + 128) % 2 ^ 8 &&& 127 =
              (value.toNat % 128 + 128) % 2 ^ 8 % 128 := Nat.and_two_pow_sub_one_eq_mod _ 7
          rw [BitVec.toNat_setWidth, BitVec.toNat_and, BitVec.toNat_ofNat, BitVec.toNat_setWidth,
            BitVec.toNat_setWidth]
          change ((value.toNat % 128 + 128) % 2 ^ 8 &&& 127) % 2 ^ w = _
          rw [mask]
          congr 1
          omega
        rw [if_neg again, bits]
        have later := ih (k := k + 1) (by omega) (by omega) (value >>> 7)
          (result ||| (value.setWidth 7).setWidth w <<< (7 * k)) rest
        rw [BitVec.or_assoc, Nat.mul_add, Nat.mul_one, shift_or_shift] at later
        exact later
      · rename_i last
        have byte : (UInt8.ofNat value.toNat).toNat = value.toNat := by
          rw [UInt8.toNat_ofNat']
          omega
        have bits : (BitVec.ofNat 8 value.toNat).setWidth w = value := by
          apply BitVec.eq_of_toNat_eq
          rw [BitVec.toNat_setWidth, BitVec.toNat_ofNat, Nat.mod_eq_of_lt (by omega)]
          omega
        have done : (BitVec.ofNat 8 value.toNat).toNat < 0x80 := by
          rw [BitVec.toNat_ofNat]
          omega
        apply (decodes_readFuint8 _).bind
        rw [byte, if_pos done, bits]
        exact decodes_pure _

theorem decodes_varint {w : Nat} (positive : 0 < w) (value : BitVec w) :
    Decodes (source endian) (readVarint w (varintShifts w) 0#w) (varintBytes w w value) value := by
  have small : value.toNat < 2 ^ (w - 7 * 0) := value.isLt
  have loop : Decodes (source endian) _ _ _ :=
    decodes_readVarint (Nat.add_zero w) positive value 0#w small
  have whole : 0#w ||| value <<< (7 * 0) = value := by
    rw [Nat.mul_zero, BitVec.shiftLeft_zero, BitVec.zero_or]
  rw [whole, Nat.sub_zero, ← List.range_eq_range'] at loop
  exact loop

theorem decodes_readUint32 (value : BitVec 32) :
    Decodes (source endian) readUint32 (varintBytes 32 32 value) value :=
  decodes_varint (by decide) value

theorem decodes_readUint64 (value : BitVec 64) :
    Decodes (source endian) readUint64 (varintBytes 64 64 value) value :=
  decodes_varint (by decide) value

end ByteArray

end CorReactor
