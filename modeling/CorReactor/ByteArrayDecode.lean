import CorReactor.ByteArrayStream

set_option autoImplicit false

/-! What the typed reads do on any stored bytes, also where these end too early. -/

namespace CorReactor.ByteArray

/-! ### Numbers in front of a list of bytes -/

/-- The value of the first `n` bytes and the bytes behind them. -/
def decodeFixed (endian : Endian) (n : Nat) (bytes : List UInt8) : Option (Nat × List UInt8) :=
  if bytes.length < n then none
  else
    let v := fromBytes (bytes.take n)
    some (if endian = SYLAR_BYTE_ORDER then v else byteswap n v, bytes.drop n)

/-- The value of a varint and the bytes behind it. It ends with the first byte that has no
continuation bit, or where the shifts are used up. -/
def decodeVarint (w : Nat) : List Nat → BitVec w → List UInt8 → Option (BitVec w × List UInt8)
  | [], result, bytes => some (result, bytes)
  | _ :: _, _, [] => none
  | i :: shifts, result, b :: rest =>
      let v := BitVec.ofNat 8 b.toNat
      if v.toNat < 0x80 then some (result ||| (v.setWidth w <<< i), rest)
      else decodeVarint w shifts (result ||| ((v &&& 0x7f).setWidth w <<< i)) rest

/-- Decode and convert the value. -/
def decodeAs {α β : Type} (f : α → β) (decoded : Option (α × List UInt8)) :
    Option (β × List UInt8) :=
  decoded.map fun found => (f found.1, found.2)

def Format.decode (endian : Endian) :
    (format : Format) → List UInt8 → Option (BitVec format.width × List UInt8)
  | Fint8, bytes | Fuint8, bytes => decodeAs (BitVec.ofNat 8) (decodeFixed SYLAR_BYTE_ORDER 1 bytes)
  | Fint16, bytes | Fuint16, bytes => decodeAs (BitVec.ofNat 16) (decodeFixed endian 2 bytes)
  | Fint32, bytes | Fuint32, bytes | Float, bytes =>
      decodeAs (BitVec.ofNat 32) (decodeFixed endian 4 bytes)
  | Fint64, bytes | Fuint64, bytes | Double, bytes =>
      decodeAs (BitVec.ofNat 64) (decodeFixed endian 8 bytes)
  | Uint32, bytes => decodeVarint 32 (varintShifts 32) 0 bytes
  | Uint64, bytes => decodeVarint 64 (varintShifts 64) 0 bytes
  | Int32, bytes => decodeAs DecodeZigzag32 (decodeVarint 32 (varintShifts 32) 0 bytes)
  | Int64, bytes => decodeAs DecodeZigzag64 (decodeVarint 64 (varintShifts 64) 0 bytes)

theorem decodeFixed_behind {endian : Endian} {n value : Nat} {bytes rest : List UInt8}
    (found : decodeFixed endian n bytes = some (value, rest)) :
    rest <:+ bytes ∧ rest.length + n = bytes.length := by
  unfold decodeFixed at found
  split at found
  · cases found
  · cases found
    refine ⟨List.drop_suffix n bytes, ?_⟩
    rw [List.length_drop]
    omega

theorem decodeVarint_behind {w : Nat} {shifts : List Nat} {result value : BitVec w}
    {bytes rest : List UInt8} (found : decodeVarint w shifts result bytes = some (value, rest)) :
    rest <:+ bytes ∧ (shifts ≠ [] → rest.length < bytes.length) := by
  induction shifts generalizing result bytes with
  | nil =>
      cases found
      exact ⟨List.suffix_refl _, fun more => absurd rfl more⟩
  | cons i shifts ih =>
      cases bytes with
      | nil => cases found
      | cons b bytes =>
          simp only [decodeVarint] at found
          split at found
          · cases found
            exact ⟨List.suffix_cons b rest, fun _ => Nat.lt_succ_self _⟩
          · obtain ⟨suffix, -⟩ := ih found
            have short := suffix.length_le
            exact ⟨suffix.trans (List.suffix_cons b bytes), fun _ => Nat.lt_succ_of_le short⟩

theorem decodeAs_eq_some {α β : Type} {f : α → β} {decoded : Option (α × List UInt8)} {value : β}
    {rest : List UInt8} (found : decodeAs f decoded = some (value, rest)) :
    ∃ v, decoded = some (v, rest) := by
  obtain ⟨⟨v, behind⟩, first, same⟩ := Option.map_eq_some_iff.mp found
  cases same
  exact ⟨v, first⟩

/-- A number takes at least one byte. -/
theorem Format.decode_behind (format : Format) {endian : Endian} {value : BitVec format.width}
    {bytes rest : List UInt8} (found : format.decode endian bytes = some (value, rest)) :
    rest <:+ bytes ∧ rest.length < bytes.length := by
  have fixed : ∀ {order n v}, 0 < n → decodeFixed order n bytes = some (v, rest) →
      rest <:+ bytes ∧ rest.length < bytes.length := by
    intro order n v positive here
    have behind := decodeFixed_behind here
    exact ⟨behind.1, by omega⟩
  cases format with
  | Fint8 | Fuint8 | Fint16 | Fuint16 | Fint32 | Fuint32 | Float | Fint64 | Fuint64 | Double =>
      obtain ⟨v, here⟩ := decodeAs_eq_some found
      exact fixed (by decide) here
  | Uint32 | Uint64 =>
      have behind := decodeVarint_behind found
      exact ⟨behind.1, behind.2 (by decide)⟩
  | Int32 | Int64 =>
      obtain ⟨v, here⟩ := decodeAs_eq_some found
      have behind := decodeVarint_behind here
      exact ⟨behind.1, behind.2 (by decide)⟩

theorem Format.decode_nil (format : Format) (endian : Endian) : format.decode endian [] = none := by
  cases format <;> rfl

/-! ### The reads -/

variable {s : ByteArray}

/-- A read of some bytes gives those in front, or throws and leaves the array alone. -/
theorem read_front (rep : Rep s) {n : Nat} (positive : 0 < n) :
    ByteArray.read n s =
      if s.unread.length < n then .error .outOfRange s
      else .ok (s.unread.take n) (s.advance n) := by
  have bound := rep.size_le
  rw [read_eq rep, rep.length_unread]
  by_cases short : s.m_size - s.m_position < n
  · rw [if_pos short, if_pos short]
  · rw [if_neg short, if_neg short, if_neg (by omega), take_content (by omega)]
    rfl

/-- The operation gives what is decoded in front and moves behind it. Where the bytes end too
early it throws and leaves `t`. -/
def TakesFront {α : Type} (s t : ByteArray) (x : Op α) (decoded : Option (α × List UInt8)) :
    Prop :=
  x s = match decoded with
    | some (value, rest) => .ok value (s.advance (s.unread.length - rest.length))
    | none => .error .outOfRange t

theorem TakesFront.map {α β : Type} {t : ByteArray} {x : Op α}
    {decoded : Option (α × List UInt8)} (f : α → β) (takes : TakesFront s t x decoded) :
    TakesFront s t (f <$> x) (decodeAs f decoded) := by
  unfold TakesFront at takes ⊢
  rw [Op.map_apply, takes]
  cases decoded <;> rfl

theorem readFixed_front (rep : Rep s) {n : Nat} (positive : 0 < n) :
    TakesFront s s (readFixed n) (decodeFixed s.m_endian n s.unread) := by
  unfold TakesFront readFixed decodeFixed
  rw [Op.bind_apply, Op.map_apply, read_front rep positive]
  by_cases short : s.unread.length < n
  · simp only [short, ↓reduceIte]
  · have count : s.unread.length - (s.unread.length - n) = n := by omega
    simp only [short, ↓reduceIte, List.length_drop, count]
    change (if s.m_endian = SYLAR_BYTE_ORDER then pure _ else pure _ : Op Nat) (s.advance n) = _
    split <;> rfl

theorem readFuint8_front (rep : Rep s) :
    TakesFront s s readFuint8
      (decodeAs (BitVec.ofNat 8) (decodeFixed SYLAR_BYTE_ORDER 1 s.unread)) := by
  unfold TakesFront readFuint8 decodeFixed
  rw [Op.map_apply, read_front rep Nat.one_pos]
  by_cases short : s.unread.length < 1
  · simp only [short, ↓reduceIte]
    rfl
  · have count : s.unread.length - (s.unread.length - 1) = 1 := by omega
    simp only [short, ↓reduceIte, decodeAs, Option.map_some, List.length_drop, count]

theorem readVarint_front {w : Nat} (shifts : List Nat) (result : BitVec w) (rep : Rep s) :
    TakesFront s (s.advance s.unread.length) (readVarint w shifts result)
      (decodeVarint w shifts result s.unread) := by
  unfold TakesFront
  induction shifts generalizing result s with
  | nil =>
      simp only [decodeVarint, Nat.sub_self, advance_zero rep]
      rfl
  | cons i shifts ih =>
      have byte := read_front rep Nat.one_pos
      unfold readVarint readFuint8
      rw [Op.bind_apply, Op.map_apply, byte]
      cases stored : s.unread with
      | nil =>
          simp only [decodeVarint, List.length_nil, Nat.one_pos, ↓reduceIte, advance_zero rep]
      | cons b rest =>
          have within : 1 ≤ s.unread.length := by
            rw [stored]
            exact Nat.le_add_left 1 _
          have behind : (s.advance 1).unread = rest := by
            rw [unread_advance, stored]
            rfl
          have enough : ¬ (b :: rest).length < 1 := by
            rw [List.length_cons]
            omega
          have value : BitVec.ofNat 8 (fromBytes ((b :: rest).take 1)) =
              BitVec.ofNat 8 b.toNat := rfl
          simp only [enough, ↓reduceIte, value, decodeVarint]
          by_cases last : (BitVec.ofNat 8 b.toNat).toNat < 0x80
          · simp only [last, ↓reduceIte, List.length_cons, Nat.add_sub_cancel_left]
            rfl
          · have later := ih (result ||| ((BitVec.ofNat 8 b.toNat &&& 0x7f).setWidth w <<< i))
              (rep.advance within)
            rw [behind] at later
            simp only [last, ↓reduceIte, later, advance_advance]
            cases found : decodeVarint w shifts
                (result ||| ((BitVec.ofNat 8 b.toNat &&& 0x7f).setWidth w <<< i)) rest with
            | none => simp only [List.length_cons, Nat.add_comm 1]
            | some last =>
                have short := (decodeVarint_behind found).1.length_le
                have count : 1 + (rest.length - last.2.length) =
                    (b :: rest).length - last.2.length := by
                  rw [List.length_cons]
                  omega
                simp only [count]

/-- Where a number ends too early, the bytes of a fixed width stay unread, and those of a varint
are read. -/
theorem Format.read_front (format : Format) (rep : Rep s) :
    TakesFront s (if format.fixed then s else s.advance s.unread.length) format.read
      (format.decode s.m_endian s.unread) := by
  cases format with
  | Fint8 | Fuint8 => exact readFuint8_front rep
  | Fint16 | Fuint16 => exact (readFixed_front rep (by decide)).map _
  | Fint32 | Fuint32 | Float => exact (readFixed_front rep (by decide)).map _
  | Fint64 | Fuint64 | Double => exact (readFixed_front rep (by decide)).map _
  | Uint32 | Uint64 => exact readVarint_front _ _ rep
  | Int32 | Int64 => exact (readVarint_front _ _ rep).map _

/-- `resize` and the read of a string. -/
theorem readResized_front (rep : Rep s) (len : Nat) :
    readResized len s =
      if stringMaxSize < len then .error .lengthError s
      else if s.unread.length < len then .error .outOfRange s
      else if s.m_position = s.m_capacity then .error .nullNode s
      else .ok (s.unread.take len) (s.advance len) := by
  unfold readResized
  by_cases long : len > stringMaxSize
  · rw [if_pos long, if_pos long]
  · rw [if_neg long, if_neg long, read_eq rep, rep.length_unread]
    by_cases short : s.m_size - s.m_position < len
    · rw [if_pos short, if_pos short]
    · rw [if_neg short, if_neg short, take_content (by omega)]
      rfl

/-- Behind what was taken come the bytes that are left. -/
theorem unread_behind {rest : List UInt8} (suffix : rest <:+ s.unread) :
    (s.advance (s.unread.length - rest.length)).unread = rest := by
  rw [unread_advance]
  exact (List.suffix_iff_eq_drop.mp suffix).symm

/-! ### What the writes leave -/

/-- An array that holds exactly the bytes, all of them unread. -/
def holding (endian : Endian) (bytes : List UInt8) : ByteArray where
  m_baseSize := bytes.length
  m_position := 0
  m_capacity := bytes.length
  m_size := bytes.length
  m_endian := endian
  m_root := [⟨bytes⟩]
  m_cur := some 0
  heap := fun _ => 0

theorem holding_rep (endian : Endian) {bytes : List UInt8} (some_bytes : bytes ≠ []) :
    Rep (holding endian bytes) where
  base_pos := List.length_pos_of_ne_nil some_bytes
  chain := (chain_cons _ _ _).mpr ⟨rfl, chain_nil _⟩
  nonempty := List.cons_ne_nil _ _
  capacity := (Nat.one_mul bytes.length).symm
  position_le := Nat.zero_le _
  size_le := Nat.le_refl _
  cur := by
    show some 0 = nodePtr [⟨bytes⟩] (0 / bytes.length)
    rw [Nat.zero_div]
    rfl

theorem holding_unread (endian : Endian) (bytes : List UInt8) :
    (holding endian bytes).unread = bytes := by
  show ((CorReactor.ByteArray.bytes [⟨bytes⟩]).take bytes.length).drop 0 = bytes
  rw [bytes_cons, bytes_nil, List.append_nil, List.take_length, List.drop_zero]

theorem Format.encode_ne_nil (format : Format) (endian : Endian) (value : BitVec format.width) :
    format.encode endian value ≠ [] := by
  have fixed : ∀ n v, 0 < n → fixedBytes endian n v ≠ [] := by
    intro n v positive
    apply List.ne_nil_of_length_pos
    rw [length_fixedBytes]
    exact positive
  have varint : ∀ w rounds (v : BitVec w), varintBytes w rounds v ≠ [] := by
    intro w rounds v
    cases rounds with
    | zero => exact List.cons_ne_nil _ _
    | succ rounds =>
        unfold varintBytes
        split <;> exact List.cons_ne_nil _ _
  cases format with
  | Int32 | Uint32 | Int64 | Uint64 => exact varint _ _ _
  | Fint8 | Fuint8 | Fint16 | Fuint16 | Fint32 | Fuint32 | Float | Fint64 | Fuint64 | Double =>
      exact fixed _ _ (by decide)

/-- What a write of the value puts into the array is decoded again. -/
theorem Format.decode_encode (format : Format) (endian : Endian) (value : BitVec format.width)
    (rest : List UInt8) :
    format.decode endian (format.encode endian value ++ rest) = some (value, rest) := by
  have some_bytes : format.encode endian value ++ rest ≠ [] :=
    List.append_ne_nil_of_left_ne_nil (format.encode_ne_nil endian value) rest
  have rep := holding_rep endian some_bytes
  have unread := holding_unread endian (format.encode endian value ++ rest)
  have front := format.read_front rep
  have order : (holding endian (format.encode endian value ++ rest)).m_endian = endian := rfl
  have read := format.decodes_read value _ _ ⟨⟨rep, order⟩, ⟨rest, unread.symm⟩, rfl⟩
  unfold TakesFront at front
  rw [unread, order, read] at front
  cases found : format.decode endian (format.encode endian value ++ rest) with
  | none =>
      rw [found] at front
      cases front
  | some last =>
      obtain ⟨v, behind⟩ := last
      rw [found] at front
      obtain ⟨same, moved⟩ := EStateM.Result.ok.inj front
      have suffix := (format.decode_behind found).1
      have short := suffix.length_le
      have count : 0 + (format.encode endian value).length =
          0 + ((format.encode endian value ++ rest).length - behind.length) :=
        congrArg m_position moved
      have tail : behind = rest := by
        rw [List.suffix_iff_eq_drop.mp suffix, List.drop_left' (by omega)]
      rw [same, tail]

end CorReactor.ByteArray
