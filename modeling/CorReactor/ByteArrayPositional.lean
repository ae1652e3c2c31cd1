import CorReactor.ByteArrayCalls

set_option autoImplicit false

/-! When a read at a given position reads there. -/

namespace CorReactor.ByteArray

variable {s : ByteArray}

/-- Where the walk for a position starts: in the current block, at the offset that the
position has in its own block. -/
def walkStart (s : ByteArray) (position : Nat) : Nat :=
  s.m_position / s.m_baseSize * s.m_baseSize + position % s.m_baseSize

/-- For positions in the current block that is the right place. -/
theorem walkStart_eq_iff (rep : Rep s) (position : Nat) :
    s.walkStart position = position ↔ position / s.m_baseSize = s.m_position / s.m_baseSize := by
  have split := block_add_offset position s.m_baseSize
  unfold walkStart
  constructor
  · intro same
    apply Nat.eq_of_mul_eq_mul_right rep.base_pos
    omega
  · intro same
    rw [← same, split]

theorem readAt_eq (rep : Rep s) (size position : Nat) :
    readAt size position s =
      if sizeSub s.m_size position < size then .error .outOfRange s
      else if s.m_position = s.m_capacity then .error .nullNode s
      else if size = 0 ∨ s.walkStart position + size ≤ s.m_capacity then
        .ok ((s.content.drop (s.walkStart position)).take size) s
      else .error .nullNode s := by
  have room := rep.position_le_capacity
  unfold readAt
  by_cases long : sizeSub s.m_size position < size
  · simp only [gt_iff_lt, long, ↓reduceIte]
  · simp only [gt_iff_lt, long, ↓reduceIte]
    by_cases full : s.m_position = s.m_capacity
    · rw [if_pos full, rep.cur_of_full full]
    · have block := Nat.div_mul_le_self s.m_position s.m_baseSize
      have fits : size = 0 ∨ position % s.m_baseSize + size ≤
          s.m_capacity - s.m_position / s.m_baseSize * s.m_baseSize ↔
          size = 0 ∨ s.walkStart position + size ≤ s.m_capacity := by
        unfold walkStart
        omega
      rw [if_neg full, rep.cur_of_lt (by omega)]
      simp only [copyOut_eq (rep.chain.drop _) (rep.offset_lt position), rep.from_block_length,
        fits]
      by_cases inside : size = 0 ∨ s.walkStart position + size ≤ s.m_capacity
      · simp only [inside, ↓reduceIte, rep.bytes_from_block, List.drop_drop]
        rfl
      · simp only [inside, ↓reduceIte]

/-- What a caller of `read(buf, size, position)` relies on. -/
structure ReadsAt (s : ByteArray) (size position : UInt64) : Prop where
  throws : readAt size.toNat position.toNat s = .error .outOfRange s ↔
    s.m_size < position.toNat + size.toNat
  reads : position.toNat + size.toNat ≤ s.m_size →
    readAt size.toNat position.toNat s =
      .ok (((s.content.take s.m_size).drop position.toNat).take size.toNat) s

/-- Inside the size there is a current block, and the bytes at the position are the ones from
the start of the walk on; past the size the position itself is not, or the subtraction wraps to
less than what is asked for. -/
def Aimed (s : ByteArray) (size position : UInt64) : Prop :=
  if position.toNat + size.toNat ≤ s.m_size then
    s.m_position < s.m_capacity ∧
      (s.content.drop (s.walkStart position.toNat)).take size.toNat =
        (s.content.drop position.toNat).take size.toNat
  else position.toNat ≤ s.m_size ∨ s.m_size + 2 ^ 64 < position.toNat + size.toNat

instance (s : ByteArray) (size position : UInt64) : Decidable (Aimed s size position) := by
  unfold Aimed
  infer_instance

/-- A position in the current block is aimed at. -/
theorem aimed_of_block (rep : Rep s) {size position : UInt64}
    (within : position.toNat + size.toNat ≤ s.m_size) (left : s.m_position < s.m_capacity)
    (block : position.toNat / s.m_baseSize = s.m_position / s.m_baseSize) :
    Aimed s size position := by
  unfold Aimed
  rw [if_pos within, (walkStart_eq_iff rep _).mpr block]
  exact ⟨left, rfl⟩

theorem readsAt_iff_of_within (rep : Rep s) {size position : UInt64}
    (within : position.toNat + size.toNat ≤ s.m_size) :
    ReadsAt s size position ↔
      s.m_position < s.m_capacity ∧
        (s.content.drop (s.walkStart position.toNat)).take size.toNat =
          (s.content.drop position.toNat).take size.toNat := by
  have room := rep.position_le_capacity
  have bound := rep.size_le
  have length := rep.content_length
  have enough : ¬ sizeSub s.m_size position.toNat < size.toNat := by
    rw [sizeSub_of_le (by omega)]
    omega
  have stored : ((s.content.take s.m_size).drop position.toNat).take size.toNat =
      (s.content.drop position.toNat).take size.toNat := by
    rw [List.drop_take, List.take_take, min_eq_left (by omega)]
  have value := readAt_eq rep size.toNat position.toNat
  rw [if_neg enough] at value
  constructor
  · intro reads
    have read := reads.reads within
    rw [value, stored] at read
    split at read
    · cases read
    · rename_i left
      split at read
      · exact ⟨by omega, (EStateM.Result.ok.inj read).1⟩
      · cases read
  · rintro ⟨left, same⟩
    have copied := congrArg List.length same
    rw [List.length_take, List.length_take, List.length_drop, List.length_drop, length] at copied
    rw [if_neg (by omega), if_pos (by omega), same] at value
    refine ⟨?_, fun _ => by rw [value, stored]⟩
    rw [value]
    simp only [reduceCtorEq, false_iff]
    omega

theorem readsAt_iff_of_past (rep : Rep s) {size position : UInt64}
    (past : s.m_size < position.toNat + size.toNat) :
    ReadsAt s size position ↔
      position.toNat ≤ s.m_size ∨ s.m_size + 2 ^ 64 < position.toNat + size.toNat := by
  have small := position.toNat_lt
  have subtraction : sizeSub s.m_size position.toNat < size.toNat ↔
      position.toNat ≤ s.m_size ∨ s.m_size + 2 ^ 64 < position.toNat + size.toNat := by
    unfold sizeSub
    split <;> omega
  have value := readAt_eq rep size.toNat position.toNat
  rw [← subtraction]
  constructor
  · intro reads
    have thrown := reads.throws.mpr past
    by_contra enough
    rw [value, if_neg enough] at thrown
    split at thrown
    · cases thrown
    · split at thrown <;> cases thrown
  · intro long
    rw [if_pos long] at value
    exact ⟨iff_of_true value past, fun within => absurd within (Nat.not_le.mpr past)⟩

/-- Six bytes in blocks of four, the position in the second one. -/
def sixBytes (position : Nat) : List Call :=
  [.write [1, 2, 3, 4], .write [5, 6], .setPosition position]

end CorReactor.ByteArray
