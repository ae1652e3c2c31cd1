import CorReactor.ByteArrayDecode
import CorReactor.ByteArrayString

set_option autoImplicit false

/-! When a read that fails leaves the array as it was, and when it resizes its result to no more
than there is. -/

namespace CorReactor.ByteArray

/-! ### A block size of zero -/

/-- An array without room. -/
structure Roomless (s : ByteArray) : Prop where
  base : s.m_baseSize = 0
  position : s.m_position = 0
  size : s.m_size = 0
  capacity : s.m_capacity = 0
  chain : Chain 0 s.m_root

variable {s : ByteArray}

theorem copyIn_roomless {nodes : List Node} (chain : Chain 0 nodes) (npos : Nat)
    {buf : List UInt8} (some_bytes : buf ≠ []) : copyIn nodes npos buf = none := by
  induction nodes generalizing npos buf with
  | nil =>
      cases buf with
      | nil => exact absurd rfl some_bytes
      | cons b rest => rfl
  | cons node nodes ih =>
      obtain ⟨head, tail⟩ := (chain_cons 0 node nodes).mp chain
      cases buf with
      | nil => exact absurd rfl some_bytes
      | cons b rest =>
          simp only [copyIn, head, Nat.zero_sub, List.length_cons, ge_iff_le, Nat.le_zero_eq,
            Nat.add_eq_zero_iff, one_ne_zero, and_false, ↓reduceIte, List.drop_zero, ih tail 0
            some_bytes, Option.map_none]

theorem gather_roomless {nodes : List Node} (chain : Chain 0 nodes) (cur npos : Nat) {len : Nat}
    (some_bytes : len ≠ 0) : gather nodes cur npos len = none := by
  induction nodes generalizing cur npos len with
  | nil =>
      cases len with
      | zero => exact absurd rfl some_bytes
      | succ len => rfl
  | cons node nodes ih =>
      obtain ⟨head, tail⟩ := (chain_cons 0 node nodes).mp chain
      cases len with
      | zero => exact absurd rfl some_bytes
      | succ len =>
          simp only [gather, head, Nat.zero_sub, ge_iff_le, Nat.le_zero_eq, some_bytes,
            ↓reduceIte, Nat.sub_zero, ih tail (cur + 1) 0 some_bytes, Option.map_none]

theorem addCapacity_roomless (none_left : Roomless s) (size : Nat) :
    Chain 0 (s.addCapacity size).m_root := by
  have same : ∀ count (t : ByteArray), t.m_baseSize = 0 → Chain 0 t.m_root →
      Chain 0 (appendNodes count t).m_root := by
    intro count t base chain
    obtain ⟨fresh, heap, -, added, grown⟩ := appendNodes_eq count t
    rw [grown]
    rw [base] at added
    exact (chain_append _ _ _).mpr ⟨chain, added⟩
  unfold addCapacity
  split
  · exact none_left.chain
  · dsimp only
    split
    · exact none_left.chain
    · split
      · exact same _ _ none_left.base none_left.chain
      · exact same _ _ none_left.base none_left.chain

namespace Roomless

theorem getReadSize (none_left : Roomless s) : s.getReadSize = 0 := by
  unfold ByteArray.getReadSize
  rw [none_left.size, none_left.position]
  rfl

theorem unread (none_left : Roomless s) : s.unread = [] := by
  unfold ByteArray.unread
  rw [none_left.size, List.take_zero, List.drop_nil]

theorem read_some (none_left : Roomless s) {n : Nat} (positive : 0 < n) :
    ByteArray.read n s = .error .outOfRange s := by
  unfold ByteArray.read
  rw [none_left.getReadSize, if_pos positive]

theorem new (heap : Nat → UInt8) : Roomless (new 0 heap) where
  base := rfl
  position := rfl
  size := rfl
  capacity := rfl
  chain := (chain_cons _ _ _).mpr ⟨new_size 0 heap, chain_nil _⟩

end Roomless

theorem roomless_write (buf : List UInt8) : Preserves Roomless (ByteArray.write buf) := by
  intro s none_left
  by_cases empty : buf = []
  · subst empty
    exact none_left
  · have nonzero : ¬ buf.length = 0 := by simpa using empty
    unfold ByteArray.write
    simp only [nonzero, ↓reduceIte]
    cases (s.addCapacity buf.length).m_cur with
    | none =>
        intro thrown
        cases thrown
    | some cur =>
        simp only [copyIn_roomless ((addCapacity_roomless none_left buf.length).drop cur) _ empty]
        intro thrown
        cases thrown

theorem roomless_read (size : Nat) : Preserves Roomless (ByteArray.read size) := by
  intro s none_left
  cases size with
  | succ size =>
      rw [none_left.read_some (Nat.succ_pos size)]
      exact fun _ => none_left
  | zero =>
      unfold ByteArray.read
      simp only [gt_iff_lt, Nat.not_lt_zero, ↓reduceIte, copyOut]
      cases s.m_cur with
      | none =>
          intro thrown
          cases thrown
      | some cur =>
          exact ⟨none_left.base, none_left.position, none_left.size, none_left.capacity,
            none_left.chain⟩

theorem roomless_setPosition (v : Nat) : Preserves Roomless (ByteArray.setPosition v) := by
  intro s none_left
  unfold ByteArray.setPosition
  rw [none_left.capacity]
  cases v with
  | succ v =>
      simp only [gt_iff_lt, Nat.succ_pos, ↓reduceIte]
      exact fun _ => none_left
  | zero =>
      simp only [gt_iff_lt, Nat.lt_irrefl, Nat.not_lt_zero, ↓reduceIte]
      cases seek s.m_root 0 with
      | none =>
          intro thrown
          cases thrown
      | some moved => exact ⟨none_left.base, rfl, none_left.size, rfl, none_left.chain⟩

theorem roomless_getWriteBuffers (buffers : List IoVec) (len : Nat) :
    Preserves Roomless (ByteArray.getWriteBuffers buffers len) := by
  intro s none_left
  by_cases empty : len = 0
  · subst empty
    exact none_left
  · unfold ByteArray.getWriteBuffers
    simp only [empty, ↓reduceIte]
    cases (s.addCapacity len).m_cur with
    | none =>
        intro thrown
        cases thrown
    | some cur =>
        simp only [gather_roomless ((addCapacity_roomless none_left len).drop cur) _ _ empty]
        intro thrown
        cases thrown

theorem roomless_primitives : Primitives Roomless where
  setIsLittleEndian _ _ none_left :=
    ⟨none_left.base, none_left.position, none_left.size, none_left.capacity, none_left.chain⟩
  clear _ none_left := ⟨none_left.base, rfl, rfl, none_left.base, none_left.chain.take 1⟩
  write := roomless_write
  read := roomless_read
  setPosition := roomless_setPosition
  getWriteBuffers := roomless_getWriteBuffers

/-! ### The typed reads -/

theorem Reached.rep_or_roomless {base_size : Nat} (reached : Reached base_size s) :
    Rep s ∨ Roomless s := by
  rcases Nat.eq_zero_or_pos base_size with rfl | positive
  · exact Or.inr (reached.invariant roomless_primitives Roomless.new)
  · exact Or.inl (reached.rep positive).1

/-- A number is not there in an array without room. -/
theorem Roomless.read_front (none_left : Roomless s) (format : Format) :
    format.read s = .error .outOfRange s := by
  have fixed : ∀ n, 0 < n → readFixed n s = .error .outOfRange s := by
    intro n positive
    exact Op.bind_error (Op.map_error (none_left.read_some positive))
  have byte : readFuint8 s = .error .outOfRange s :=
    Op.map_error (none_left.read_some Nat.one_pos)
  cases format with
  | Fint8 | Fuint8 => exact byte
  | Fint16 | Fuint16 | Fint32 | Fuint32 | Float | Fint64 | Fuint64 | Double =>
      exact Op.map_error (fixed _ (by decide))
  | Uint32 | Uint64 => exact Op.bind_error byte
  | Int32 | Int64 => exact Op.map_error (Op.bind_error byte)

/-- A string is not there in an array without room. -/
theorem Roomless.readString_front (none_left : Roomless s) (format : StringFormat) :
    format.read s = .error .outOfRange s := by
  rw [format.read_eq]
  exact Op.bind_error (none_left.read_front format.length)

/-- A string whose length ends too early. -/
theorem StringFormat.read_short (format : StringFormat) (rep : Rep s)
    (short : format.length.decode s.m_endian s.unread = none) :
    format.read s =
      .error .outOfRange (if format.length.fixed then s else s.advance s.unread.length) := by
  have front := format.length.read_front rep
  unfold TakesFront at front
  rw [short] at front
  rw [format.read_eq]
  exact Op.bind_error front

/-- The read of a string from the end of its length on. -/
theorem StringFormat.read_behind_length (format : StringFormat) (rep : Rep s)
    {len : BitVec format.length.width} {rest : List UInt8}
    (found : format.length.decode s.m_endian s.unread = some (len, rest)) :
    ∃ u, format.length.read s = .ok len u ∧ u.getReadSize = rest.length ∧
      s.m_position < u.m_position ∧
      format.read s =
        if stringMaxSize < len.toNat then .error .lengthError u
        else if rest.length < len.toNat then .error .outOfRange u
        else if rest = [] ∧ s.m_size = s.m_capacity then .error .nullNode u
        else .ok (rest.take len.toNat) (u.advance len.toNat) := by
  have front : format.length.read s =
      .ok len (s.advance (s.unread.length - rest.length)) := by
    have front := format.length.read_front rep
    unfold TakesFront at front
    rw [found] at front
    exact front
  obtain ⟨suffix, short⟩ := format.length.decode_behind found
  have position : (s.advance (s.unread.length - rest.length)).m_position =
      s.m_position + (s.unread.length - rest.length) := rfl
  have size : (s.advance (s.unread.length - rest.length)).m_size = s.m_size := rfl
  have capacity : (s.advance (s.unread.length - rest.length)).m_capacity = s.m_capacity := rfl
  have rep' := rep.advance (Nat.sub_le s.unread.length rest.length)
  have unread := unread_behind suffix
  revert front position size capacity rep' unread
  generalize s.advance (s.unread.length - rest.length) = u
  intro front position size capacity rep' unread
  have stored := rep'.length_unread
  have order := rep'.position_le
  have bound := rep'.size_le
  rw [unread] at stored
  have full_iff : u.m_position = u.m_capacity ↔ rest = [] ∧ s.m_size = s.m_capacity := by
    rw [← List.length_eq_zero_iff]
    omega
  refine ⟨u, front, ?_, by omega, ?_⟩
  · rw [rep'.getReadSize_eq, stored]
  · rw [format.read_eq, Op.bind_apply, front]
    simp only [readResized_front rep', unread, full_iff]

/-- The typed reads. -/
inductive Typed
  | number (format : Format)
  | string (format : StringFormat)

namespace Typed

/-- The read, its value dropped. -/
def read : Typed → Op Unit
  | number format => discard format.read
  | string format => discard format.read

/-- The bytes start with a whole value. -/
def Whole (endian : Endian) (bytes : List UInt8) : Typed → Prop
  | number format => (format.decode endian bytes).isSome
  | string format =>
      match format.length.decode endian bytes with
      | some (len, rest) => len.toNat ≤ rest.length
      | none => False

theorem whole_number (format : Format) (endian : Endian) (value : BitVec format.width)
    (rest : List UInt8) : (number format).Whole endian (format.encode endian value ++ rest) := by
  show (format.decode endian _).isSome
  rw [format.decode_encode]
  rfl

/-- A written string is whole whatever comes behind it. -/
theorem whole_string (format : StringFormat) (endian : Endian) {value : List UInt8}
    (fits : value.length ≤ format.limit) (rest : List UInt8) :
    (string format).Whole endian
      (format.lengthBytes endian value.length ++ (value ++ rest)) := by
  have narrow := ((format.le_limit_iff value.length).mp fits).1
  unfold StringFormat.lengthBytes
  simp only [Whole, format.length.decode_encode, BitVec.toNat_ofNat, narrow, List.length_append]
  omega

end Typed

/-- What a caller of a typed read relies on who appends more data and retries. -/
structure Retryable (s : ByteArray) (typed : Typed) : Prop where
  throws : (∃ t, typed.read s = .error .outOfRange t) ↔ ¬ typed.Whole s.m_endian s.unread
  returns : typed.Whole s.m_endian s.unread → ∃ t, typed.read s = .ok () t
  kept : ∀ e t, typed.read s = .error e t → e.isException = true →
    t.m_position = s.m_position ∧ t.m_size = s.m_size ∧ t.content = s.content

/-- The stored bytes do not end within a varint, nor between the length of a string and its
last byte, nor with the length of an empty string at the end of the capacity. -/
def EndsWell (s : ByteArray) : Typed → Prop
  | .number format =>
      format.fixed ∨ s.unread = [] ∨ (format.decode s.m_endian s.unread).isSome
  | .string format =>
      match format.length.decode s.m_endian s.unread with
      | none => format.length.fixed ∨ s.unread = []
      | some (len, rest) => len.toNat ≤ stringMaxSize ∧ len.toNat ≤ rest.length ∧
          (rest = [] → s.m_size ≠ s.m_capacity)

instance (s : ByteArray) (typed : Typed) : Decidable (EndsWell s typed) := by
  unfold EndsWell
  split
  · infer_instance
  · split <;> infer_instance

/-- A read that throws for want of bytes. -/
theorem retryable_short_iff {typed : Typed} {t : ByteArray}
    (failed : typed.read s = .error .outOfRange t) (short : ¬ typed.Whole s.m_endian s.unread)
    (size : t.m_size = s.m_size) (content : t.content = s.content) :
    Retryable s typed ↔ t.m_position = s.m_position := by
  constructor
  · intro retryable
    exact (retryable.kept _ _ failed rfl).1
  · intro position
    refine ⟨iff_of_true ⟨t, failed⟩ short, fun whole => absurd whole short, ?_⟩
    intro e u again _
    rw [failed] at again
    cases again
    exact ⟨position, size, content⟩

theorem retryable_of_ok {typed : Typed} {t : ByteArray} (done : typed.read s = .ok () t)
    (whole : typed.Whole s.m_endian s.unread) : Retryable s typed := by
  refine ⟨iff_of_false ?_ (not_not_intro whole), fun _ => ⟨t, done⟩, ?_⟩
  · rintro ⟨u, failed⟩
    rw [done] at failed
    cases failed
  · intro e u failed
    rw [done] at failed
    cases failed

/-- Where the bytes of a number or of the length of a string end too early. -/
theorem position_short_iff (fixed : Bool) :
    (if fixed then s else s.advance s.unread.length).m_position = s.m_position ↔
      fixed = true ∨ s.unread = [] := by
  cases fixed with
  | true => exact iff_of_true rfl (Or.inl rfl)
  | false =>
      show s.m_position + s.unread.length = s.m_position ↔ _
      rw [← List.length_eq_zero_iff]
      simp only [Bool.false_eq_true, false_or]
      omega

theorem retryable_number_iff (rep : Rep s) (format : Format) :
    Retryable s (.number format) ↔ EndsWell s (.number format) := by
  have front := format.read_front rep
  unfold TakesFront at front
  show _ ↔ format.fixed ∨ s.unread = [] ∨ (format.decode s.m_endian s.unread).isSome
  cases found : format.decode s.m_endian s.unread with
  | some last =>
      rw [found] at front
      have done : (Typed.number format).read s =
          .ok () (s.advance (s.unread.length - last.2.length)) := by
        unfold Typed.read
        change (_ <$> format.read) s = _
        rw [Op.map_apply, front]
      have whole : (Typed.number format).Whole s.m_endian s.unread := by
        show (format.decode s.m_endian s.unread).isSome
        rw [found]
        rfl
      exact iff_of_true (retryable_of_ok done whole) (Or.inr (Or.inr rfl))
  | none =>
      rw [found] at front
      have short : ¬ (Typed.number format).Whole s.m_endian s.unread := by
        show ¬ (format.decode s.m_endian s.unread).isSome
        rw [found]
        exact Bool.false_ne_true
      rw [retryable_short_iff (Op.map_error front) short (by split <;> rfl) (by split <;> rfl),
        position_short_iff]
      simp only [Option.isSome_none, Bool.false_eq_true, or_false]

theorem retryable_string_iff (rep : Rep s) (format : StringFormat) :
    Retryable s (.string format) ↔ EndsWell s (.string format) := by
  cases found : format.length.decode s.m_endian s.unread with
  | none =>
      have short : ¬ (Typed.string format).Whole s.m_endian s.unread := by
        simp only [Typed.Whole, found, not_false_eq_true]
      rw [retryable_short_iff (Op.map_error (format.read_short rep found)) short
        (by split <;> rfl) (by split <;> rfl), position_short_iff]
      simp only [EndsWell, found]
  | some last =>
      obtain ⟨len, rest⟩ := last
      obtain ⟨u, -, -, moved, read⟩ := format.read_behind_length rep found
      have whole_iff : (Typed.string format).Whole s.m_endian s.unread ↔
          len.toNat ≤ rest.length := by
        simp only [Typed.Whole, found]
      have ends_iff : EndsWell s (.string format) ↔ len.toNat ≤ stringMaxSize ∧
          len.toNat ≤ rest.length ∧ (rest = [] → s.m_size ≠ s.m_capacity) := by
        simp only [EndsWell, found]
      have thrown : ∀ e, e.isException = true → format.read s = .error e u →
          ¬ Retryable s (.string format) := by
        intro e exception failed retryable
        have := (retryable.kept e u (Op.map_error failed) exception).1
        omega
      rw [ends_iff]
      by_cases long : stringMaxSize < len.toNat
      · rw [if_pos long] at read
        exact iff_of_false (thrown _ rfl read) (by omega)
      · rw [if_neg long] at read
        by_cases short : rest.length < len.toNat
        · rw [if_pos short] at read
          exact iff_of_false (thrown _ rfl read) (by omega)
        · rw [if_neg short] at read
          have whole := whole_iff.mpr (Nat.le_of_not_lt short)
          by_cases full : rest = [] ∧ s.m_size = s.m_capacity
          · rw [if_pos full] at read
            refine iff_of_false ?_ fun ends => ends.2.2 full.1 full.2
            intro retryable
            obtain ⟨t, done⟩ := retryable.returns whole
            rw [show (Typed.string format).read s = .error .nullNode u from Op.map_error read]
              at done
            cases done
          · rw [if_neg full] at read
            have done : (Typed.string format).read s = .ok () (u.advance len.toNat) := by
              change (_ <$> format.read) s = _
              rw [Op.map_apply, read]
            exact iff_of_true (retryable_of_ok done whole)
              ⟨by omega, by omega, fun empty at_end => full ⟨empty, at_end⟩⟩

/-- In every state exactly the reads that end well leave the rest to be appended. -/
theorem retryable_iff {base_size : Nat} (reached : Reached base_size s) (typed : Typed) :
    Retryable s typed ↔ EndsWell s typed := by
  rcases reached.rep_or_roomless with rep | none_left
  · cases typed with
    | number format => exact retryable_number_iff rep format
    | string format => exact retryable_string_iff rep format
  · have unread := none_left.unread
    cases typed with
    | number format =>
        have failed : (Typed.number format).read s = .error .outOfRange s :=
          Op.map_error (none_left.read_front format)
        have short : ¬ (Typed.number format).Whole s.m_endian s.unread := by
          simp only [Typed.Whole, unread, format.decode_nil, Option.isSome_none,
            Bool.false_eq_true, not_false_eq_true]
        exact iff_of_true ((retryable_short_iff failed short rfl rfl).mpr rfl)
          (Or.inr (Or.inl unread))
    | string format =>
        have failed : (Typed.string format).read s = .error .outOfRange s :=
          Op.map_error (none_left.readString_front format)
        have short : ¬ (Typed.string format).Whole s.m_endian s.unread := by
          simp only [Typed.Whole, unread, format.length.decode_nil, not_false_eq_true]
        refine iff_of_true ((retryable_short_iff failed short rfl rfl).mpr rfl) ?_
        simp only [EndsWell, unread, format.length.decode_nil, or_true]

/-- One byte of a two-byte number. -/
theorem retryable_one :
    ∃ outs s, Transition.run Call.step (new 4 fun _ => 0) [.write [7], .setPosition 0] =
        some (outs, s) ∧
      readFuint16 s = .error .outOfRange s ∧ Retryable s (.number .Fuint16) :=
  ⟨_, _, rfl, rfl, (retryable_iff (show Reached 4 _ from
    ⟨fun _ => 0, [.write [7], .setPosition 0], _, rfl⟩) _).mpr (by decide)⟩

/-- The first byte of a varint, the length of a string and one of its five bytes, and a length
that `resize` does not take: what was read of them is lost. -/
theorem not_retryable :
    (∃ outs s t, Transition.run Call.step (new 4 fun _ => 0) [.write [0x80], .setPosition 0] =
        some (outs, s) ∧
      s.m_position = 0 ∧ readUint32 s = .error .outOfRange t ∧ t.m_position = 1 ∧
      ¬ Retryable s (.number .Uint32)) ∧
    (∃ outs s t, Transition.run Call.step (new 4 fun _ => 0) [.write [0, 5, 65], .setPosition 0] =
        some (outs, s) ∧
      s.m_position = 0 ∧ readStringF16 s = .error .outOfRange t ∧ t.m_position = 2 ∧
      ¬ Retryable s (.string .F16)) ∧
    ∃ outs s t, Transition.run Call.step (new 8 fun _ => 0)
        [.write [0x80, 0, 0, 0, 0, 0, 0, 0], .setPosition 0] = some (outs, s) ∧
      readStringF64 s = .error .lengthError t ∧ ¬ Retryable s (.string .F64) := by
  refine ⟨⟨_, _, _, rfl, rfl, rfl, rfl, ?_⟩, ⟨_, _, _, rfl, rfl, rfl, rfl, ?_⟩,
    ⟨_, _, _, rfl, rfl, ?_⟩⟩
  · intro retryable
    cases (retryable.kept _ _ rfl rfl).1
  · intro retryable
    cases (retryable.kept _ _ rfl rfl).1
  · intro retryable
    cases (retryable.kept _ _ rfl rfl).1

/-! ### The length of a string -/

/-- The length that `buff` is resized to, with the state behind it; `none` where the length
itself is not read. -/
def StringFormat.resized (format : StringFormat) (s : ByteArray) : Option (Nat × ByteArray) :=
  match format.length.read s with
  | .ok len u => some (len.toNat, u)
  | .error _ _ => none

/-- What a server relies on that reads a string it was sent. -/
structure Bounded (s : ByteArray) (format : StringFormat) : Prop where
  resizes : ∀ len u, format.resized s = some (len, u) → len ≤ u.getReadSize
  throws : ∀ e t, format.read s = .error e t → e.isException = true → e = .outOfRange

/-- A length in front says no more than the number of bytes behind it. -/
def Honest (s : ByteArray) (format : StringFormat) : Prop :=
  match format.length.decode s.m_endian s.unread with
  | some (len, rest) => len.toNat ≤ rest.length ∧ len.toNat ≤ stringMaxSize
  | none => True

instance (s : ByteArray) (format : StringFormat) : Decidable (Honest s format) := by
  unfold Honest
  split <;> infer_instance

/-- Where the length itself is not there nothing is resized. -/
theorem bounded_of_short {format : StringFormat} {t : ByteArray}
    (failed : format.length.read s = .error .outOfRange t) : Bounded s format := by
  refine ⟨?_, ?_⟩
  · intro len u found
    unfold StringFormat.resized at found
    rw [failed] at found
    cases found
  · intro e u again _
    rw [format.read_eq, Op.bind_error failed] at again
    cases again
    rfl

end CorReactor.ByteArray
