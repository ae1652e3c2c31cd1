import CorReactor.ByteArrayGather

set_option autoImplicit false

/-! When `addCapacity` makes enough room. -/

namespace CorReactor.ByteArray

/-- What a caller of `addCapacity(n)` relies on. -/
structure Suffices (s : ByteArray) (n : Nat) : Prop where
  capacity : n ≤ (s.addCapacity n).m_capacity - (s.addCapacity n).m_position
  blocks : ∃ cur, (s.addCapacity n).m_cur = some cur ∧
    n ≤ (bytes ((s.addCapacity n).m_root.drop cur)).length -
      (s.addCapacity n).m_position % (s.addCapacity n).m_baseSize
  stored : (s.addCapacity n).content.take s.m_capacity = s.content
  write : ∀ buf : List UInt8, buf.length = n → ∃ t, write buf s = .ok () t
  getWriteBuffers : ∀ buffers, ∃ iovs t, getWriteBuffers buffers n s = .ok iovs t

/-- The missing bytes fill whole blocks, or they overhang by more than what is left. -/
def Fits (s : ByteArray) (n : Nat) : Prop :=
  n ≤ s.getCapacity ∨ (n - s.getCapacity) % s.m_baseSize = 0 ∨
    s.getCapacity < (n - s.getCapacity) % s.m_baseSize

instance (s : ByteArray) (n : Nat) : Decidable (Fits s n) := by
  unfold Fits
  infer_instance

/-- The blocks that are added hold the missing bytes unless the remainder is dropped. -/
theorem growCount_enough_iff {width : Nat} (positive : 0 < width) (left n : Nat) :
    n - left ≤ growCount width left n * width ↔
      (n - left) % width = 0 ∨ left < (n - left) % width := by
  have split := block_add_offset (n - left) width
  have small := Nat.mod_lt (n - left) positive
  unfold growCount
  by_cases past : (n - left) % width > left
  · simp only [past, ↓reduceIte, Nat.add_mul, Nat.one_mul, or_true, iff_true]
    omega
  · simp only [past, ↓reduceIte, Nat.add_zero, or_false]
    omega

variable {s : ByteArray}

/-- The capacity after `addCapacity(n)` reaches `n` bytes behind the position exactly
under `Fits`. -/
theorem addCapacity_enough_iff (rep : Rep s) (n : Nat) :
    s.m_position + n ≤ (s.addCapacity n).m_capacity ↔ Fits s n := by
  have grown := addCapacity_grown rep n
  have count := growCount_enough_iff rep.base_pos (s.m_capacity - s.m_position) n
  have room := rep.position_le_capacity
  rw [grown.capacity, addedBlocks, Fits, rep.getCapacity_eq]
  split
  · omega
  · rw [← count]
    omega

theorem addCapacity_suffices_iff {base_size : Nat} (positive : 0 < base_size)
    (reached : Reached base_size s) {n : Nat} (some_bytes : 0 < n) :
    Suffices s n ↔ Fits s n := by
  obtain ⟨rep, -⟩ := reached.rep positive
  have grown := addCapacity_grown rep n
  have grep := grown.rep
  rw [← addCapacity_enough_iff rep n]
  constructor
  · intro suffices_n
    have capacity := suffices_n.capacity
    rw [grown.position] at capacity
    omega
  · intro room
    have cur := grep.cur_of_lt (by rw [grown.position]; omega)
    refine ⟨?_, ⟨_, cur, ?_⟩, grown.content_take rep, ?_, ?_⟩
    · rw [grown.position]
      omega
    · have split := block_add_offset (s.addCapacity n).m_position (s.addCapacity n).m_baseSize
      have position := grown.position
      rw [grep.from_block_length]
      omega
    · rintro buf rfl
      have spec := write_spec rep (List.ne_nil_of_length_pos some_bytes)
      rw [if_pos room] at spec
      obtain ⟨t, done, -⟩ := spec
      exact ⟨t, done⟩
    · intro buffers
      have spec := getWriteBuffers_spec rep some_bytes buffers
      rw [if_pos room] at spec
      obtain ⟨iovs, done, -⟩ := spec
      exact ⟨_, _, done⟩

/-- Five bytes more than a fresh 4-byte array holds: the one missing byte leaves a
remainder of 1, which is not more than the 4 bytes left, so no block is added. -/
theorem addCapacity_five_short :
    Reached 4 (new 4 fun _ => 0) ∧ ¬ Suffices (new 4 fun _ => 0) 5 ∧
      ∃ t, write [1, 2, 3, 4, 5] (new 4 fun _ => 0) = .error .nullNode t := by
  refine ⟨⟨_, Transition.Reachable.refl _ _⟩, ?_, ⟨_, rfl⟩⟩
  intro suffices_five
  exact absurd suffices_five.capacity (by decide)

/-- Eight bytes fill one more block. -/
theorem addCapacity_suffices_eight : Suffices (new 4 fun _ => 0) 8 := by
  have positive : 0 < 4 := by decide
  exact (addCapacity_suffices_iff positive ⟨_, Transition.Reachable.refl _ _⟩ (by decide)).mpr
    (by decide)

end CorReactor.ByteArray
