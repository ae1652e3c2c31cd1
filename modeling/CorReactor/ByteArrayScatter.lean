import CorReactor.ByteArrayString

set_option autoImplicit false

/-! When filling the segments of `getWriteBuffers` is a `write`. -/

namespace CorReactor.ByteArray

open Blocks

/-- What the kernel does with the segments: they are filled in order, as far as the data
reaches. -/
def fill : List IoVec → List UInt8 → List Node → List Node
  | [], _, nodes => nodes
  | iov :: rest, data, nodes =>
      fill rest (data.drop iov.iov_len)
        (nodes.modify iov.node fun node => node.memcpy iov.npos (data.take iov.iov_len))

variable {width start stop : Nat} {iovs : List IoVec} {nodes : List Node}

/-- One `memcpy` into a block of the chain. -/
theorem memcpy_spec (chain : Chain width nodes) {i npos : Nat} (there : i < nodes.length)
    (buf : List UInt8) (inside : npos + buf.length ≤ width) :
    Chain width (nodes.modify i fun node => node.memcpy npos buf) ∧
      bytes (nodes.modify i fun node => node.memcpy npos buf) =
        splice (bytes nodes) (i * width + npos) buf := by
  induction nodes generalizing i with
  | nil => exact absurd there (Nat.not_lt_zero i)
  | cons node rest ih =>
      obtain ⟨head, tail⟩ := (chain_cons width node rest).mp chain
      have length : node.ptr.length = width := head
      cases i with
      | zero =>
          have kept : (node.memcpy npos buf).size = width := by
            show (splice node.ptr npos buf).length = width
            rw [length_splice_of_fits _ _ _ (by omega), length]
          rw [List.modify_zero_cons, chain_cons, bytes_cons, bytes_cons, memcpy_ptr]
          refine ⟨⟨kept, tail⟩, ?_⟩
          rw [Nat.zero_mul, Nat.zero_add, splice_append_left _ _ _ _ (by omega)]
      | succ i =>
          obtain ⟨after, laid⟩ := ih tail (Nat.lt_of_succ_lt_succ there)
          have offset : (i + 1) * width + npos = node.ptr.length + (i * width + npos) := by
            rw [length]
            ring
          rw [List.modify_succ_cons, chain_cons, bytes_cons, bytes_cons, laid, offset,
            splice_append_right]
          exact ⟨⟨head, after⟩, rfl⟩

/-- Filled segments overwrite the range from `start` on and keep the blocks' sizes. -/
theorem fill_spec (chain : Chain width nodes) (tiles : Tiles width start iovs stop)
    (bound : stop ≤ (bytes nodes).length) (data : List UInt8)
    (short : start + data.length ≤ stop) :
    Chain width (fill iovs data nodes) ∧ (fill iovs data nodes).length = nodes.length ∧
      bytes (fill iovs data nodes) = splice (bytes nodes) start data := by
  induction iovs generalizing start data nodes with
  | nil =>
      have same : start = stop := tiles
      have empty : data = [] := List.eq_nil_of_length_eq_zero (by omega)
      rw [empty, splice_nil]
      exact ⟨chain, rfl, rfl⟩
  | cons iov rest ih =>
      have last := tiles.mem List.mem_cons_self
      have there := tiles.node_lt chain bound List.mem_cons_self
      obtain ⟨here, positive, inside, later⟩ := tiles
      have part : (data.take iov.iov_len).length ≤ iov.iov_len := List.length_take_le _ _
      obtain ⟨copied, laid⟩ := memcpy_spec chain there (data.take iov.iov_len)
        (show iov.npos + (data.take iov.iov_len).length ≤ width by omega)
      rw [here] at laid
      have room : start + (data.take iov.iov_len).length ≤ (bytes nodes).length := by omega
      have left : (data.drop iov.iov_len).length = data.length - iov.iov_len := List.length_drop
      obtain ⟨after, length, filled⟩ := ih copied later
        (by rw [laid, length_splice_of_fits _ _ _ room]; exact bound) (data.drop iov.iov_len)
        (by have := later.le; omega)
      refine ⟨after, by rw [fill, length, List.length_modify], ?_⟩
      rw [fill, filled, laid]
      by_cases whole : iov.iov_len ≤ data.length
      · have taken : (data.take iov.iov_len).length = iov.iov_len := List.length_take_of_le whole
        have next : start + iov.iov_len = start + (data.take iov.iov_len).length := by rw [taken]
        rw [next, splice_splice _ _ _ _ (by omega), List.take_append_drop]
      · rw [List.drop_eq_nil_of_le (by omega), splice_nil, List.take_of_length_le (by omega)]

variable {s g : ByteArray}

/-- The chain with its segments filled is well-formed. -/
theorem fill_rep (rep : Rep g) {start stop : Nat} {iovs : List IoVec}
    (tiles : Tiles g.m_baseSize start iovs stop) (bound : stop ≤ g.m_capacity)
    (data : List UInt8) (short : start + data.length ≤ stop) :
    Rep { g with m_root := fill iovs data g.m_root } ∧
      content { g with m_root := fill iovs data g.m_root } = splice g.content start data := by
  have whole : (bytes g.m_root).length = g.m_capacity := rep.content_length
  obtain ⟨chain, length, filled⟩ := fill_spec rep.chain tiles (by omega) data short
  refine ⟨⟨rep.base_pos, chain, ?_, ?_, rep.position_le, rep.size_le, ?_⟩, filled⟩
  · intro empty
    have none_left : (fill iovs data g.m_root).length = 0 := by
      rw [show fill iovs data g.m_root = [] from empty, List.length_nil]
    rw [length] at none_left
    exact rep.nonempty (List.eq_nil_of_length_eq_zero none_left)
  · rw [length]
    exact rep.capacity
  · rw [rep.cur]
    unfold nodePtr
    rw [length]

/-- Segments behind the position, filled and passed over, are a `write` to the flat buffer. -/
theorem fill_sim (rep : Rep s) {len : Nat} {iovs : List IoVec}
    (room : s.m_position + len ≤ (s.addCapacity len).m_capacity)
    (tiles : Tiles s.m_baseSize s.m_position iovs (s.m_position + len)) (data : List UInt8)
    (short : data.length ≤ len) :
    ∃ u, setPosition (s.m_position + data.length)
        { s.addCapacity len with m_root := fill iovs data (s.addCapacity len).m_root } = .ok () u ∧
      Represents u ((s.flat rep).write data) := by
  have grown := addCapacity_grown rep len
  have kept := grown.content_take rep
  have bound := rep.size_le
  rw [← grown.base] at tiles
  have long := grown.rep.content_length
  have capacity := grown.capacity
  obtain ⟨filled, laid⟩ := fill_rep grown.rep tiles room data (by omega)
  have inside : ¬ (s.addCapacity len).m_capacity < s.m_position + data.length := by omega
  refine ⟨_, by rw [setPosition_eq filled, if_neg inside], setPosition_rep filled inside, rfl, ?_⟩
  show (content { s.addCapacity len with
      m_root := fill iovs data (s.addCapacity len).m_root }).take
        (max (s.addCapacity len).m_size (s.m_position + data.length)) =
    splice (s.content.take s.m_size) s.m_position data
  rw [laid, grown.size, take_splice _ _ _ _ rep.position_le (by omega), ← kept, List.take_take,
    min_eq_left bound]

/-- What a caller of `getWriteBuffers` relies on who fills the segments and then sets the
position. -/
structure Scatters (s g : ByteArray) (len : Nat) (iovs : List IoVec) (data : List UInt8) :
    Prop where
  sum : (iovs.map IoVec.iov_len).sum = len
  apart : iovs.Pairwise IoVec.Apart
  behind : ∀ iov ∈ iovs, s.m_position ≤ iov.node * s.m_baseSize + iov.npos
  position : g.m_position = s.m_position
  size : g.m_size = s.m_size
  writes : ∃ u v, setPosition (s.m_position + data.length)
      { g with m_root := fill iovs data g.m_root } = .ok () u ∧ write data s = .ok () v ∧
    u.content.take u.m_size = v.content.take v.m_size ∧ u.m_position = v.m_position ∧
    u.m_size = v.m_size

/-- Both ways agree exactly where the chain grows enough for a `write` of the data alone. -/
theorem scatters_iff {base_size : Nat} (positive : 0 < base_size) (reached : Reached base_size s)
    {buffers out : List IoVec} {len r : Nat} (some_bytes : 0 < len)
    (done : getWriteBuffers buffers len s = .ok (out, r) g) {data : List UInt8}
    (short : data.length ≤ len) :
    (∃ iovs, out = buffers ++ iovs ∧ r = len ∧ Scatters s g len iovs data) ↔
      data = [] ∨ Fits s data.length := by
  obtain ⟨rep, -⟩ := reached.rep positive
  have grown := addCapacity_grown rep len
  have spec := getWriteBuffers_spec rep some_bytes buffers
  by_cases room : s.m_position + len ≤ (s.addCapacity len).m_capacity
  case neg =>
    rw [if_neg room, done] at spec
    cases spec
  rw [if_pos room] at spec
  obtain ⟨iovs, made, tiles⟩ := spec
  rw [made] at done
  cases done
  have room_iff := addCapacity_enough_iff rep data.length
  constructor
  · rintro ⟨_, -, -, scatters⟩
    obtain ⟨-, v, -, written, -⟩ := scatters.writes
    by_cases empty : data = []
    · exact Or.inl empty
    · right
      have spec := write_spec rep empty
      rw [← room_iff]
      by_contra full
      rw [if_neg full, written] at spec
      cases spec
  · intro enough
    obtain ⟨u, set, filled⟩ := fill_sim rep room tiles data short
    have writes : ∃ v, write data s = .ok () v := by
      by_cases empty : data = []
      · exact ⟨s, by rw [empty]; rfl⟩
      · have spec := write_spec rep empty
        rw [if_pos (room_iff.mpr (enough.resolve_left empty))] at spec
        obtain ⟨v, written, -⟩ := spec
        exact ⟨v, written⟩
    obtain ⟨v, written⟩ := writes
    have same : Represents s (s.flat rep) := ⟨rep, rfl, rfl⟩
    have copied := same.write_sim written
    refine ⟨iovs, rfl, rfl, ?_, tiles.apart, fun iov member => (tiles.mem member).1,
      grown.position, grown.size, u, v, set, written, ?_, ?_, ?_⟩
    · have := tiles.length
      omega
    · rw [filled.data, copied.data]
    · rw [filled.position, copied.position]
    · rw [filled.size, copied.size]

/-- Two bytes in a block of four; the space for six more is there. -/
theorem scatters_two :
    ∃ outs s g, Transition.run Call.step (new 4 fun _ => 0) [.write [1, 2]] = some (outs, s) ∧
      getWriteBuffers [] 6 s = .ok ([⟨0, 2, 2⟩, ⟨1, 0, 4⟩], 6) g ∧
      ∃ iovs, [⟨0, 2, 2⟩, ⟨1, 0, 4⟩] = [] ++ iovs ∧ 6 = 6 ∧ Scatters s g 6 iovs [3, 4] := by
  refine ⟨_, _, _, rfl, rfl, ?_⟩
  refine Iff.mpr (scatters_iff (show 0 < 4 by decide) ⟨fun _ => 0, [.write [1, 2]], _, rfl⟩
    (show 0 < 6 by decide)
    (show getWriteBuffers [] 6 _ = .ok ([⟨0, 2, 2⟩, ⟨1, 0, 4⟩], 6) _ from rfl) ?_) (Or.inr ?_)
  · decide
  · decide

/-- With three bytes of data: the filled array takes them, but a `write` of three adds no block
for the one byte that is missing and follows the null pointer. -/
theorem not_scatters :
    ∃ outs s g, Transition.run Call.step (new 4 fun _ => 0) [.write [1, 2]] = some (outs, s) ∧
      getWriteBuffers [] 6 s = .ok ([⟨0, 2, 2⟩, ⟨1, 0, 4⟩], 6) g ∧
      (∃ u, setPosition 5
        { g with m_root := fill [⟨0, 2, 2⟩, ⟨1, 0, 4⟩] [3, 4, 5] g.m_root } = .ok () u ∧
        u.content.take u.m_size = [1, 2, 3, 4, 5]) ∧
      (∃ t, write [3, 4, 5] s = .error .nullNode t) ∧
      ∀ iovs, ¬ Scatters s g 6 iovs [3, 4, 5] := by
  refine ⟨_, _, _, rfl, rfl, ⟨_, rfl, rfl⟩, ⟨_, rfl⟩, ?_⟩
  intro iovs scatters
  obtain ⟨-, v, -, written, -⟩ := scatters.writes
  cases written

end CorReactor.ByteArray
