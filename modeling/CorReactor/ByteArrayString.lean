import CorReactor.ByteArrayCapacity
import CorReactor.ByteArrayStream

set_option autoImplicit false

/-! When a string with its length in front is read back. -/

namespace CorReactor.ByteArray

open Streams

/-- The formats of a string with its length in front. -/
inductive StringFormat
  | F16
  | F32
  | F64
  | Vint

namespace StringFormat

def write : StringFormat → List UInt8 → Op Unit
  | F16, value => writeStringF16 value
  | F32, value => writeStringF32 value
  | F64, value => writeStringF64 value
  | Vint, value => writeStringVint value

def read : StringFormat → Op (List UInt8)
  | F16 => readStringF16
  | F32 => readStringF32
  | F64 => readStringF64
  | Vint => readStringVint

/-- The format of the length. -/
def length : StringFormat → Format
  | F16 => .Fuint16
  | F32 => .Fuint32
  | F64 => .Fuint64
  | Vint => .Uint64

/-- The longest string whose length is written in full and can be resized to. -/
def limit : StringFormat → Nat
  | F16 => 2 ^ 16 - 1
  | F32 => 2 ^ 32 - 1
  | F64 | Vint => stringMaxSize

/-- The bytes that the length of an empty string takes. -/
def emptySize : StringFormat → Nat
  | F16 => 2
  | F32 => 4
  | F64 => 8
  | Vint => 1

theorem write_eq (format : StringFormat) (value : List UInt8) :
    format.write value = (do
      format.length.write (BitVec.ofNat _ value.length)
      ByteArray.write value) := by
  cases format <;> rfl

theorem read_eq (format : StringFormat) :
    format.read = (do
      let len ← format.length.read
      readResized len.toNat) := by
  cases format <;> rfl

/-- The bytes of a length. -/
def lengthBytes (format : StringFormat) (endian : Endian) (n : Nat) : List UInt8 :=
  format.length.encode endian (BitVec.ofNat _ n)

theorem length_empty (format : StringFormat) (endian : Endian) :
    (format.lengthBytes endian 0).length = format.emptySize := by
  cases format with
  | F16 | F32 | F64 => exact length_fixedBytes ..
  | Vint => rfl

theorem le_limit_iff (format : StringFormat) (n : Nat) :
    n ≤ format.limit ↔ n % 2 ^ format.length.width = n ∧ n ≤ stringMaxSize := by
  unfold stringMaxSize
  cases format with
  | F16 =>
      change n ≤ 2 ^ 16 - 1 ↔ n % 2 ^ 16 = n ∧ _
      omega
  | F32 =>
      change n ≤ 2 ^ 32 - 1 ↔ n % 2 ^ 32 = n ∧ _
      omega
  | F64 | Vint =>
      change n ≤ 2 ^ 63 - 1 ↔ n % 2 ^ 64 = n ∧ _
      omega

variable {endian : Endian}

theorem emits_write (format : StringFormat) (value : List UInt8) :
    Emits (sink endian) (format.write value)
      (format.lengthBytes endian value.length ++ value) := by
  rw [write_eq]
  exact (format.length.emits_write _).bind fun _ => ByteArray.emits_write value

/-- The read from the end of the length on. -/
theorem read_behind (format : StringFormat) {n : Nat} {s u : ByteArray}
    (next : (source endian).Next s (format.lengthBytes endian n) u) :
    format.read s = readResized (n % 2 ^ format.length.width) u := by
  rw [read_eq, Op.bind_apply, format.length.decodes_read _ s u next]
  dsimp only
  rw [BitVec.toNat_ofNat]

end StringFormat

/-! ### Reading a length -/

variable {s t u : ByteArray}

theorem read_zero (rep : Rep s) :
    ByteArray.read 0 s = if s.m_position = s.m_capacity then .error .nullNode s else .ok [] s := by
  rw [ByteArray.read_eq rep, if_neg (Nat.not_lt_zero _)]
  split
  · rfl
  · exact congrArg (EStateM.Result.ok ([] : List UInt8)) (advance_zero rep)

/-- What `read` returns has the length asked for. -/
theorem length_read (rep : Rep s) {n : Nat} {bytes : List UInt8}
    (done : ByteArray.read n s = .ok bytes u) : bytes.length = n := by
  rw [ByteArray.read_eq rep] at done
  split at done
  · cases done
  · split at done
    · cases done
    · rename_i enough _
      cases done
      have bound := rep.size_le
      rw [List.length_take, List.length_drop, rep.content_length]
      omega

/-- The blocks that `addCapacity` adds are used up exactly where the range ends at the end
of a block, at or behind the old capacity. -/
theorem addCapacity_full_iff (rep : Rep s) (n : Nat) :
    s.m_position + n = (s.addCapacity n).m_capacity ↔
      s.m_capacity ≤ s.m_position + n ∧ s.m_baseSize ∣ s.m_position + n := by
  have grown := addCapacity_grown rep n
  have whole : s.m_baseSize ∣ s.m_capacity := ⟨_, rep.capacity.trans (Nat.mul_comm _ _)⟩
  rw [grown.capacity]
  constructor
  · intro full
    refine ⟨by omega, ?_⟩
    rw [full]
    exact Nat.dvd_add whole (Nat.dvd_mul_left _ _)
  · rintro ⟨past, multiple⟩
    have least := rep.position_le_capacity
    unfold addedBlocks
    split
    · omega
    · -- whole blocks are missing, so no block is added for a remainder
      have missing : s.m_baseSize ∣ s.m_position + n - s.m_capacity :=
        Nat.dvd_sub multiple whole
      have same : n - (s.m_capacity - s.m_position) = s.m_position + n - s.m_capacity := by omega
      have none_left : (s.m_position + n - s.m_capacity) % s.m_baseSize = 0 :=
        Nat.mod_eq_zero_of_dvd missing
      unfold growCount
      rw [same, none_left, if_neg (Nat.not_lt_zero _), Nat.add_zero, Nat.div_mul_cancel missing]
      omega

/-- The flat buffer of a well-formed array. -/
def flat (s : ByteArray) (rep : Rep s) : Flat where
  data := s.content.take s.m_size
  pos := s.m_position
  inside := by
    have bound := rep.size_le
    rw [List.length_take, rep.content_length, min_eq_left bound]
    exact rep.position_le

/-- `bytes` have been written to `s`, which gave `t`; `r` is back at the start of them. -/
structure Back (s t r : ByteArray) (bytes : List UInt8) : Prop where
  back : setPosition s.m_position t = .ok () r
  position : t.m_position = s.m_position + bytes.length
  rep : Rep r
  endian : r.m_endian = s.m_endian
  next : bytes <+: r.unread
  advance : r.advance bytes.length = t

theorem emits_back (rep : Rep s) {x : Op Unit} {bytes : List UInt8}
    (emits : Emits (sink s.m_endian) x bytes) (done : x s = .ok () t) :
    Rep t ∧ ∃ r, Back s t r bytes := by
  obtain ⟨rel, order⟩ := emits s () t done (s.flat rep) ⟨rep, rfl, rfl⟩ rfl
  have position : t.m_position = s.m_position + bytes.length := rel.position
  have bound := rel.rep.position_le
  have room := rel.rep.size_le
  have inside : ¬ t.m_capacity < s.m_position := by omega
  have size : max t.m_size s.m_position = t.m_size := by omega
  refine ⟨rel.rep, _, ⟨?_, position, setPosition_rep rel.rep inside, order, ?_, ?_⟩⟩
  · rw [setPosition_eq rel.rep, if_neg inside]
  · rw [size]
    have stored := (s.flat rep).write_drop bytes
    rw [← rel.data] at stored
    exact ⟨_, stored.symm⟩
  · have cur := rel.rep.cur
    rw [position] at cur
    unfold advance
    rw [size, ← cur, ← position]

/-! ### The round trip -/

namespace Back

variable {r : ByteArray} {bytes : List UInt8}

theorem start {α : Type} (back : Back s t r bytes) (x : Op α) :
    (setPosition s.m_position >>= fun _ => x) t = x r := by
  rw [Op.bind_apply, back.back]

/-- Behind the first part of what was written, the second comes next. -/
theorem split {front rest : List UInt8} (back : Back s t r (front ++ rest)) :
    ∃ u, (source s.m_endian).Next r front u ∧ (source s.m_endian).Next u rest t :=
  (source s.m_endian).next_append ⟨⟨back.rep, back.endian⟩, back.next, back.advance.symm⟩

end Back

/-- Writing an empty string writes its length. -/
theorem StringFormat.write_empty (format : StringFormat) (s : ByteArray) :
    format.write [] s = ByteArray.write (format.lengthBytes s.m_endian 0) s := by
  rw [StringFormat.write_eq, Op.bind_apply, format.length.write_eq, List.length_nil]
  unfold StringFormat.lengthBytes
  cases ByteArray.write (format.length.encode s.m_endian (BitVec.ofNat _ 0)) s <;> rfl

theorem write_capacity (rep : Rep s) {buf : List UInt8} (some_bytes : buf ≠ [])
    (done : ByteArray.write buf s = .ok () t) :
    t.m_position = s.m_position + buf.length ∧
      t.m_capacity = (s.addCapacity buf.length).m_capacity := by
  have spec := write_spec rep some_bytes
  split at spec
  · obtain ⟨u, same, written⟩ := spec
    rw [same] at done
    cases done
    rw [written.position, written.capacity, (addCapacity_grown rep buf.length).position]
    exact ⟨rfl, rfl⟩
  · rw [spec] at done
    cases done

theorem StringFormat.emptySize_pos (format : StringFormat) : 0 < format.emptySize := by
  cases format <;> decide

/-- Behind an empty string the array is full exactly where its length ends at the end of
the capacity. -/
theorem write_empty_full_iff (rep : Rep s) (format : StringFormat)
    (done : format.write [] s = .ok () t) :
    t.m_position = t.m_capacity ↔
      s.m_capacity ≤ s.m_position + format.emptySize ∧
        s.m_baseSize ∣ s.m_position + format.emptySize := by
  rw [format.write_empty] at done
  have size := format.length_empty s.m_endian
  have some_bytes : format.lengthBytes s.m_endian 0 ≠ [] := by
    apply List.ne_nil_of_length_pos
    rw [size]
    exact format.emptySize_pos
  obtain ⟨position, capacity⟩ := write_capacity rep some_bytes done
  rw [position, capacity, size]
  exact addCapacity_full_iff rep format.emptySize

/-- Between an empty string and the bytes `behind` it, a read of no bytes follows the null
pointer exactly where there are none and the length ends at the end of the capacity. -/
theorem behind_full_iff (rep : Rep s) (format : StringFormat) {v : ByteArray}
    {behind : List UInt8} {endian : Endian} (done : format.write [] s = .ok () t)
    (more : ByteArray.write behind t = .ok () u) (next : (source endian).Next v behind u)
    (position : v.m_position = t.m_position) :
    v.m_position = v.m_capacity ↔ behind = [] ∧
      (s.m_capacity ≤ s.m_position + format.emptySize ∧
        s.m_baseSize ∣ s.m_position + format.emptySize) := by
  by_cases none : behind = []
  · subst none
    have same : EStateM.Result.ok () t = EStateM.Result.ok () u := more
    cases same
    obtain rfl := (source endian).next_nil next
    rw [write_empty_full_iff rep format done]
    exact ⟨fun at_end => ⟨rfl, at_end⟩, And.right⟩
  · have some_bytes := List.length_pos_of_ne_nil none
    obtain ⟨⟨repv, -⟩, ⟨rest, stored⟩, -⟩ := next
    have left := repv.length_unread
    have bound := repv.size_le
    rw [← stored, List.length_append] at left
    constructor
    · omega
    · exact fun both => absurd both.1 none

/-- The length fits its format, and that of an empty string with nothing written behind
it does not end where the capacity ends. -/
def Readable (s : ByteArray) (format : StringFormat) (value behind : List UInt8) : Prop :=
  value.length ≤ format.limit ∧
    (value = [] → behind = [] → ¬ (s.m_capacity ≤ s.m_position + format.emptySize ∧
      s.m_baseSize ∣ s.m_position + format.emptySize))

/-- A string is written, which gives `t`, and then the bytes `behind`, which gives `u`.
Both are read back exactly where the string is `Readable`. -/
theorem readString_iff {base_size : Nat} (positive : 0 < base_size)
    (reached : Reached base_size s) (format : StringFormat) (value behind : List UInt8)
    (done : format.write value s = .ok () t) (more : ByteArray.write behind t = .ok () u) :
    (∃ v, (setPosition s.m_position >>= fun _ => format.read) u = .ok value v ∧
      v.m_position = t.m_position ∧
      (behind ≠ [] → ByteArray.read behind.length v = .ok behind u)) ↔
    s.Readable format value behind := by
  obtain ⟨rep, -⟩ := reached.rep positive
  obtain ⟨-, _, string⟩ := emits_back rep (format.emits_write value) done
  have both : (format.write value >>= fun _ => ByteArray.write behind) s = .ok () u := by
    rw [Op.bind_apply, done]
    exact more
  obtain ⟨rep', r, back⟩ := emits_back rep
    ((format.emits_write value).bind fun _ => ByteArray.emits_write behind) both
  obtain ⟨v, string_next, behind_next⟩ := back.split
  obtain ⟨w, length_next, value_next⟩ := (source s.m_endian).next_append string_next
  have last : u = v.advance behind.length := behind_next.2.2
  have repv : Rep v := behind_next.1.1
  have position : v.m_position = t.m_position := by
    have whole := back.position
    have advanced : u.m_position = v.m_position + behind.length := congrArg m_position last
    rw [List.length_append] at whole
    rw [string.position]
    omega
  have full := fun (none : value = []) =>
    behind_full_iff rep format (none ▸ done) more behind_next position
  rw [back.start, format.read_behind length_next]
  unfold Readable readResized
  constructor
  · rintro ⟨x, read, -, -⟩
    split at read
    · cases read
    · have same := length_read value_next.1.1 read
      have small : value.length ≤ format.limit := (format.le_limit_iff _).mpr (by omega)
      refine ⟨small, ?_⟩
      rintro rfl none at_end
      obtain rfl := (source s.m_endian).next_nil value_next
      rw [List.length_nil, Nat.zero_mod, read_zero repv, if_pos ((full rfl).mpr ⟨none, at_end⟩)]
        at read
      cases read
  · rintro ⟨small, apart⟩
    obtain ⟨narrow, resizable⟩ := (format.le_limit_iff _).mp small
    rw [narrow, if_neg (Nat.not_lt.mpr resizable)]
    refine ⟨v, ?_, position, fun some_bytes => decodes_read some_bytes v u behind_next⟩
    by_cases empty : value = []
    · subst empty
      obtain rfl := (source s.m_endian).next_nil value_next
      have room : ¬ v.m_position = v.m_capacity := fun at_end =>
        apart rfl ((full rfl).mp at_end).1 ((full rfl).mp at_end).2
      rw [List.length_nil, read_zero repv, if_neg room]
    · exact decodes_read empty w v value_next

/-- One byte in a block of four. -/
theorem readString_iff_one :
    ∃ t v, StringFormat.F16.write [65] (new 4 fun _ => 0) = .ok () t ∧
      (setPosition 0 >>= fun _ => StringFormat.F16.read) t = .ok [65] v := by
  have done : ∃ t, StringFormat.F16.write [65] (new 4 fun _ => 0) = .ok () t := ⟨_, rfl⟩
  obtain ⟨t, done⟩ := done
  have reached : Reached 4 (new 4 fun _ => 0) := ⟨_, Transition.Reachable.refl _ _⟩
  have readable : Readable (new 4 fun _ => 0) .F16 [65] [] := by
    unfold Readable
    decide
  have positive : 0 < 4 := by decide
  obtain ⟨v, read, -⟩ := (readString_iff positive reached .F16 [65] [] done rfl).mpr readable
  exact ⟨t, v, done, read⟩

/-- An empty string whose length fills the only block. -/
theorem readString_empty :
    ∃ t v, StringFormat.F16.write [] (new 2 fun _ => 0) = .ok () t ∧
      (setPosition 0 >>= fun _ => StringFormat.F16.read) t = .error .nullNode v :=
  ⟨_, _, rfl, rfl⟩

end CorReactor.ByteArray
