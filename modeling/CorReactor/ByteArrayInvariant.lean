import CorReactor.ByteArrayLoops

set_option autoImplicit false

namespace CorReactor.ByteArray

open Blocks

/-- The representation invariant: a non-empty chain of equal blocks makes up the
capacity, and the cached pointer is the block that holds the position. -/
structure Rep (s : ByteArray) : Prop where
  base_pos : 0 < s.m_baseSize
  chain : Chain s.m_baseSize s.m_root
  nonempty : s.m_root ≠ []
  capacity : s.m_capacity = s.m_root.length * s.m_baseSize
  position_le : s.m_position ≤ s.m_size
  size_le : s.m_size ≤ s.m_capacity
  cur : s.m_cur = nodePtr s.m_root (s.m_position / s.m_baseSize)

/-- The bytes of all blocks, stored or not. -/
def content (s : ByteArray) : List UInt8 := bytes s.m_root

theorem nodePtr_of_lt {nodes : List Node} {i : Nat} (inside : i < nodes.length) :
    nodePtr nodes i = some i := if_pos inside

theorem nodePtr_of_le {nodes : List Node} {i : Nat} (past : nodes.length ≤ i) :
    nodePtr nodes i = none := if_neg (by omega)

namespace Rep

variable {s : ByteArray}

theorem content_length (rep : Rep s) : s.content.length = s.m_capacity :=
  rep.chain.bytes_length.trans rep.capacity.symm

theorem position_le_capacity (rep : Rep s) : s.m_position ≤ s.m_capacity :=
  rep.position_le.trans rep.size_le

/-- The position is inside block `position / base`, or at the end of the chain. -/
theorem block_lt_iff (rep : Rep s) (position : Nat) :
    position / s.m_baseSize < s.m_root.length ↔ position < s.m_capacity := by
  rw [rep.capacity, Nat.div_lt_iff_lt_mul rep.base_pos]

theorem cur_of_lt (rep : Rep s) (room : s.m_position < s.m_capacity) :
    s.m_cur = some (s.m_position / s.m_baseSize) := by
  rw [rep.cur, nodePtr_of_lt ((rep.block_lt_iff _).mpr room)]

theorem cur_of_full (rep : Rep s) (full : s.m_position = s.m_capacity) : s.m_cur = none := by
  rw [rep.cur, nodePtr_of_le]
  exact Nat.le_of_not_lt fun inside => by
    have := (rep.block_lt_iff _).mp inside
    omega

theorem getReadSize_eq (rep : Rep s) : s.getReadSize = s.m_size - s.m_position :=
  sizeSub_of_le rep.position_le

theorem getCapacity_eq (rep : Rep s) : s.getCapacity = s.m_capacity - s.m_position :=
  sizeSub_of_le rep.position_le_capacity

/-- The bytes from `m_cur` on, as far as the offset in the block reaches back. -/
theorem bytes_from_block (rep : Rep s) (position : Nat) :
    bytes (s.m_root.drop (position / s.m_baseSize)) =
      s.content.drop (position / s.m_baseSize * s.m_baseSize) :=
  rep.chain.bytes_drop _

theorem offset_lt (rep : Rep s) (position : Nat) : position % s.m_baseSize < s.m_baseSize :=
  Nat.mod_lt _ rep.base_pos

theorem from_block_length (rep : Rep s) (position : Nat) :
    (bytes (s.m_root.drop (position / s.m_baseSize))).length =
      s.m_capacity - position / s.m_baseSize * s.m_baseSize := by
  rw [rep.bytes_from_block, List.length_drop, rep.content_length]

end Rep

/-- Division with remainder, in the form the offsets use. -/
theorem block_add_offset (position width : Nat) :
    position / width * width + position % width = position := by
  rw [Nat.mul_comm]
  exact Nat.div_add_mod position width

theorem block_advance {width : Nat} (positive : 0 < width) (position count : Nat) :
    position / width + (position % width + count) / width = (position + count) / width := by
  rw [← Nat.mul_add_div positive]
  congr 1
  have := Nat.div_add_mod position width
  omega

theorem new_rep {base_size : Nat} (positive : 0 < base_size) (heap : Nat → UInt8) :
    Rep (new base_size heap) where
  base_pos := positive
  chain := (chain_cons _ _ _).mpr ⟨new_size base_size heap, chain_nil _⟩
  nonempty := List.cons_ne_nil _ _
  capacity := (Nat.one_mul base_size).symm
  position_le := Nat.le_refl 0
  size_le := Nat.zero_le base_size
  cur := by
    change some 0 = nodePtr [Node.new base_size heap] (0 / base_size)
    rw [Nat.zero_div]
    rfl

/-! ### Growing -/

/-- `t` is `s` with `count` new blocks behind its chain; only the cached pointer may
have moved, and it is where the representation wants it. -/
structure Grown (s t : ByteArray) (count : Nat) : Prop where
  rep : Rep t
  blocks : ∃ fresh, fresh.length = count ∧ Chain s.m_baseSize fresh ∧ t.m_root = s.m_root ++ fresh
  capacity : t.m_capacity = s.m_capacity + count * s.m_baseSize
  base : t.m_baseSize = s.m_baseSize
  position : t.m_position = s.m_position
  size : t.m_size = s.m_size
  endian : t.m_endian = s.m_endian

theorem appendNodes_eq (count : Nat) (s : ByteArray) :
    ∃ fresh heap, fresh.length = count ∧ Chain s.m_baseSize fresh ∧
      appendNodes count s = { s with
        m_root := s.m_root ++ fresh
        m_capacity := s.m_capacity + count * s.m_baseSize
        heap := heap } := by
  induction count generalizing s with
  | zero =>
      refine ⟨[], s.heap, rfl, chain_nil _, ?_⟩
      simp only [appendNodes, List.append_nil, Nat.zero_mul, Nat.add_zero]
  | succ count ih =>
      obtain ⟨fresh, heap, length, chain, same⟩ := ih s.appendNode
      refine ⟨Node.new s.m_baseSize s.heap :: fresh, heap, ?_, ?_, ?_⟩
      · rw [List.length_cons, length]
      · exact (chain_cons _ _ _).mpr ⟨new_size _ _, chain⟩
      · rw [appendNodes, same]
        simp only [appendNode, List.append_assoc, List.singleton_append, Nat.add_mul, Nat.one_mul,
          Nat.add_assoc, Nat.add_comm s.m_baseSize]

/-- The number of blocks `addCapacity` adds, also when it returns early. -/
def addedBlocks (s : ByteArray) (size : Nat) : Nat :=
  if s.m_capacity - s.m_position ≥ size then 0
  else growCount s.m_baseSize (s.m_capacity - s.m_position) size

theorem addCapacity_grown {s : ByteArray} (rep : Rep s) (size : Nat) :
    Grown s (s.addCapacity size) (s.addedBlocks size) := by
  have stays : Grown s s 0 :=
    ⟨rep, ⟨[], rfl, chain_nil _, (List.append_nil _).symm⟩, by omega, rfl, rfl, rfl, rfl⟩
  unfold addCapacity addedBlocks
  rw [rep.getCapacity_eq]
  by_cases empty : size = 0
  · rw [if_pos empty, if_pos (show s.m_capacity - s.m_position ≥ size by omega)]
    exact stays
  · rw [if_neg empty]
    by_cases enough : s.m_capacity - s.m_position ≥ size
    · simp only [enough, ↓reduceIte]
      exact stays
    · simp only [enough, ↓reduceIte]
      generalize growCount s.m_baseSize (s.m_capacity - s.m_position) size = count
      obtain ⟨fresh, heap, length, chain, same⟩ := appendNodes_eq count s
      have long : s.m_capacity + count * s.m_baseSize =
          (s.m_root ++ fresh).length * s.m_baseSize := by
        rw [List.length_append, length, rep.capacity, Nat.add_mul]
      have wider := rep.size_le
      have room := rep.position_le_capacity
      rw [same]
      split
      · rename_i full
        -- the position is at the end of the old chain: its block is the first new one
        have at_end : s.m_position / s.m_baseSize = s.m_root.length := by
          rw [show s.m_position = s.m_root.length * s.m_baseSize by rw [← rep.capacity]; omega,
            Nat.mul_div_cancel _ rep.base_pos]
        refine ⟨⟨rep.base_pos, (chain_append _ _ _).mpr ⟨rep.chain, chain⟩, ?_, long,
          rep.position_le, Nat.le_add_right_of_le wider, ?_⟩, ⟨fresh, length, chain, rfl⟩,
          rfl, rfl, rfl, rfl, rfl⟩
        · simp [rep.nonempty]
        · simp only [at_end]
      · rename_i left
        have inside : s.m_position / s.m_baseSize < s.m_root.length :=
          (rep.block_lt_iff _).mpr (by omega)
        refine ⟨⟨rep.base_pos, (chain_append _ _ _).mpr ⟨rep.chain, chain⟩, ?_, long,
          rep.position_le, Nat.le_add_right_of_le wider, ?_⟩, ⟨fresh, length, chain, rfl⟩,
          rfl, rfl, rfl, rfl, rfl⟩
        · simp [rep.nonempty]
        · simp only
          rw [rep.cur, nodePtr_of_lt inside, nodePtr_of_lt (by rw [List.length_append]; omega)]

namespace Grown

variable {s t : ByteArray} {count : Nat}

/-- Growing keeps every byte of the old chain in place. -/
theorem content_eq (grown : Grown s t count) : ∃ fresh, t.content = s.content ++ fresh := by
  obtain ⟨fresh, -, -, root⟩ := grown.blocks
  exact ⟨bytes fresh, by rw [content, root, bytes_append, content]⟩

theorem content_take (grown : Grown s t count) (rep : Rep s) :
    t.content.take s.m_capacity = s.content := by
  obtain ⟨fresh, same⟩ := grown.content_eq
  rw [same, ← rep.content_length, List.take_left]

end Grown

/-! ### Raw access -/

/-- `write` on a chain that has room: the bytes go to the position, which moves behind
them. The fields left out stay as they are. -/
structure Written (s t : ByteArray) (buf : List UInt8) : Prop where
  rep : Rep t
  content : t.content = splice s.content s.m_position buf
  base : t.m_baseSize = s.m_baseSize
  position : t.m_position = s.m_position + buf.length
  size : t.m_size = max s.m_size (s.m_position + buf.length)
  capacity : t.m_capacity = s.m_capacity
  endian : t.m_endian = s.m_endian

/-- The copying part of `write`, on the chain that `addCapacity` leaves. -/
theorem write_spec {s : ByteArray} (rep : Rep s) {buf : List UInt8} (some_bytes : buf ≠ []) :
    if s.m_position + buf.length ≤ (s.addCapacity buf.length).m_capacity then
      ∃ t, write buf s = .ok () t ∧ Written (s.addCapacity buf.length) t buf
    else write buf s = .error .nullNode (s.addCapacity buf.length) := by
  have grown := addCapacity_grown rep buf.length
  have nonzero : ¬ buf.length = 0 := by simpa using some_bytes
  have some_length : 0 < buf.length := by omega
  unfold write
  simp only [nonzero, ↓reduceIte]
  rw [← grown.position]
  revert grown
  generalize s.addCapacity buf.length = g
  intro grown
  have grep := grown.rep
  by_cases full : g.m_position = g.m_capacity
  · rw [if_neg (by omega), grep.cur_of_full full]
  · have below : g.m_position < g.m_capacity := by
      have := grep.position_le_capacity
      omega
    have block := (grep.block_lt_iff _).mpr below
    rw [grep.cur_of_lt below]
    have loop := copyIn_spec (grep.chain.drop (g.m_position / g.m_baseSize))
      (grep.offset_lt g.m_position) buf
    rw [grep.from_block_length] at loop
    have split := block_add_offset g.m_position g.m_baseSize
    by_cases fits : g.m_position + buf.length ≤ g.m_capacity
    · rw [if_pos fits]
      rw [if_pos (Or.inr (by omega))] at loop
      obtain ⟨out, taken, chain, length, copied⟩ := loop
      simp only [taken]
      refine ⟨_, rfl, ?_⟩
      have whole : (g.m_root.take (g.m_position / g.m_baseSize) ++ out).length =
          g.m_root.length := by
        rw [List.length_append, length, List.length_take, List.length_drop]
        omega
      have front : (bytes (g.m_root.take (g.m_position / g.m_baseSize))).length =
          g.m_position / g.m_baseSize * g.m_baseSize := by
        rw [(grep.chain.take _).bytes_length, List.length_take]
        congr 1
        omega
      have laid : bytes (g.m_root.take (g.m_position / g.m_baseSize) ++ out) =
          splice g.content g.m_position buf := by
        have cut : g.content = bytes (g.m_root.take (g.m_position / g.m_baseSize)) ++
            bytes (g.m_root.drop (g.m_position / g.m_baseSize)) := by
          rw [← bytes_append, List.take_append_drop]
          rfl
        calc
          _ = bytes (g.m_root.take (g.m_position / g.m_baseSize)) ++
              splice (bytes (g.m_root.drop (g.m_position / g.m_baseSize)))
                (g.m_position % g.m_baseSize) buf := by rw [bytes_append, copied]
          _ = splice g.content
              ((bytes (g.m_root.take (g.m_position / g.m_baseSize))).length +
                g.m_position % g.m_baseSize) buf := by rw [cut, splice_append_right]
          _ = splice g.content g.m_position buf := by rw [front, split]
      have larger : max g.m_size (g.m_position + buf.length) =
          if g.m_position + buf.length > g.m_size then g.m_position + buf.length
          else g.m_size := by
        split <;> omega
      refine ⟨⟨grep.base_pos, ?_, ?_, ?_, ?_, ?_, ?_⟩, laid, rfl, rfl, ?_, rfl, rfl⟩
      · exact (chain_append _ _ _).mpr ⟨grep.chain.take _, chain⟩
      · intro none_left
        have empty := congrArg List.length none_left
        rw [whole, List.length_nil] at empty
        rw [empty] at block
        exact Nat.not_lt_zero _ block
      · rw [whole]
        exact grep.capacity
      · simp only
        split <;> omega
      · simp only
        have := grep.size_le
        split <;> omega
      · simp only [nodePtr, whole, block_advance grep.base_pos]
      · simp only [larger]
    · rw [if_neg fits]
      rw [if_neg (by simp only [some_bytes, false_or]; omega)] at loop
      simp only [loop]

/-- `read` throws past the size, follows the null `m_cur` at the end of the chain, and
otherwise gives the bytes from the position on. -/
theorem read_eq {s : ByteArray} (rep : Rep s) (size : Nat) :
    read size s =
      if s.m_size - s.m_position < size then .error .outOfRange s
      else if s.m_position = s.m_capacity then .error .nullNode s
      else .ok ((s.content.drop s.m_position).take size)
        { s with
          m_position := s.m_position + size
          m_cur := nodePtr s.m_root ((s.m_position + size) / s.m_baseSize) } := by
  unfold read
  rw [rep.getReadSize_eq]
  have room := rep.position_le_capacity
  have bound := rep.size_le
  by_cases long : s.m_size - s.m_position < size
  · simp only [gt_iff_lt, long, ↓reduceIte]
  · simp only [gt_iff_lt, long, ↓reduceIte]
    by_cases full : s.m_position = s.m_capacity
    · rw [if_pos full, rep.cur_of_full full]
    · have split := block_add_offset s.m_position s.m_baseSize
      rw [if_neg full, rep.cur_of_lt (by omega)]
      simp only [copyOut_eq (rep.chain.drop _) (rep.offset_lt s.m_position), rep.from_block_length]
      have fits : size = 0 ∨ s.m_position % s.m_baseSize + size ≤
          s.m_capacity - s.m_position / s.m_baseSize * s.m_baseSize := by
        have := Nat.div_mul_le_self s.m_position s.m_baseSize
        omega
      simp only [fits, ↓reduceIte, rep.bytes_from_block, List.drop_drop, split,
        block_advance rep.base_pos]

theorem read_rep {s : ByteArray} (rep : Rep s) {size : Nat}
    (enough : ¬ s.m_size - s.m_position < size) :
    Rep { s with
      m_position := s.m_position + size
      m_cur := nodePtr s.m_root ((s.m_position + size) / s.m_baseSize) } := by
  refine ⟨rep.base_pos, rep.chain, rep.nonempty, rep.capacity, ?_, rep.size_le, rfl⟩
  have := rep.position_le
  simp only
  omega

/-- `toString` never follows a null node: it reads only when something is left. -/
theorem toString_eq {s : ByteArray} (rep : Rep s) :
    toString s = .ok ((s.content.take s.m_size).drop s.m_position) s := by
  have room := rep.position_le_capacity
  have bound := rep.size_le
  unfold toString readAt
  rw [rep.getReadSize_eq]
  by_cases empty : s.m_size - s.m_position = 0
  · rw [if_pos empty, List.drop_eq_nil_of_le]
    rw [List.length_take]
    omega
  · have split := block_add_offset s.m_position s.m_baseSize
    rw [if_neg empty, sizeSub_of_le rep.position_le, if_neg (Nat.lt_irrefl _),
      rep.cur_of_lt (by omega)]
    simp only [copyOut_eq (rep.chain.drop _) (rep.offset_lt s.m_position), rep.from_block_length]
    have fits : s.m_size - s.m_position = 0 ∨
        s.m_position % s.m_baseSize + (s.m_size - s.m_position) ≤
          s.m_capacity - s.m_position / s.m_baseSize * s.m_baseSize := by
      have := Nat.div_mul_le_self s.m_position s.m_baseSize
      omega
    simp only [fits, ↓reduceIte, rep.bytes_from_block, List.drop_drop, split, List.drop_take]

theorem setPosition_eq {s : ByteArray} (rep : Rep s) (v : Nat) :
    setPosition v s =
      if s.m_capacity < v then .error .outOfRange s
      else .ok () { s with
        m_position := v
        m_size := max s.m_size v
        m_cur := nodePtr s.m_root (v / s.m_baseSize) } := by
  unfold setPosition
  by_cases past : s.m_capacity < v
  · simp only [gt_iff_lt, past, ↓reduceIte]
  · have found := seek_eq rep.chain rep.base_pos rep.nonempty v
      (by have := rep.content_length; unfold content at this; omega)
    have larger : (if s.m_size < v then v else s.m_size) = max s.m_size v := by
      split <;> omega
    simp only [gt_iff_lt, past, ↓reduceIte, found, larger]

theorem setPosition_rep {s : ByteArray} (rep : Rep s) {v : Nat} (inside : ¬ s.m_capacity < v) :
    Rep { s with
      m_position := v
      m_size := max s.m_size v
      m_cur := nodePtr s.m_root (v / s.m_baseSize) } := by
  refine ⟨rep.base_pos, rep.chain, rep.nonempty, rep.capacity, Nat.le_max_right _ _, ?_, rfl⟩
  have := rep.size_le
  simp only
  omega

theorem setEndian_rep {s : ByteArray} (rep : Rep s) (endian : Endian) :
    Rep { s with m_endian := endian } :=
  ⟨rep.base_pos, rep.chain, rep.nonempty, rep.capacity, rep.position_le, rep.size_le, rep.cur⟩

theorem clear_rep {s : ByteArray} (rep : Rep s) :
    Rep { s with
      m_position := 0
      m_size := 0
      m_capacity := s.m_baseSize
      m_root := s.m_root.take 1
      m_cur := some 0 } := by
  have one : (s.m_root.take 1).length = 1 := by
    rw [List.length_take]
    have := List.length_pos_of_ne_nil rep.nonempty
    omega
  refine ⟨rep.base_pos, rep.chain.take 1, ?_, ?_, Nat.le_refl 0, Nat.zero_le _, ?_⟩
  · exact List.ne_nil_of_length_eq_add_one one
  · rw [one, Nat.one_mul]
  · simp only [Nat.zero_div]
    rw [nodePtr_of_lt (by omega)]

end CorReactor.ByteArray
