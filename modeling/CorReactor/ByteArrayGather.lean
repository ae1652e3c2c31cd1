import CorReactor.ByteArrayCalls

set_option autoImplicit false

/-! The segments that the buffer lists are made of, and when `getReadBuffers` hands out what
is stored. -/

namespace CorReactor

open CorReactor.ByteArray Blocks

/-! ### Segments -/

/-- The bytes of a segment. -/
def IoVec.bytes (nodes : List Node) (iov : IoVec) : List UInt8 :=
  match nodes[iov.node]? with
  | some node => (node.ptr.drop iov.npos).take iov.iov_len
  | none => []

/-- No byte of one segment belongs to the other. -/
def IoVec.Apart (a b : IoVec) : Prop :=
  a.node = b.node → a.npos + a.iov_len ≤ b.npos ∨ b.npos + b.iov_len ≤ a.npos

/-- The segments lie one behind the other in blocks of one width, from `start` up to `stop`,
none of them empty or over the end of its block. -/
def Tiles (width : Nat) : Nat → List IoVec → Nat → Prop
  | start, [], stop => start = stop
  | start, iov :: rest, stop =>
      iov.node * width + iov.npos = start ∧ 0 < iov.iov_len ∧ iov.npos + iov.iov_len ≤ width ∧
        Tiles width (start + iov.iov_len) rest stop

variable {width start stop : Nat} {iovs : List IoVec} {nodes : List Node}

theorem Tiles.le (tiles : Tiles width start iovs stop) : start ≤ stop := by
  induction iovs generalizing start with
  | nil => exact Nat.le_of_eq tiles
  | cons iov rest ih =>
      obtain ⟨-, positive, -, later⟩ := tiles
      have := ih later
      omega

theorem Tiles.length (tiles : Tiles width start iovs stop) :
    start + (iovs.map IoVec.iov_len).sum = stop := by
  induction iovs generalizing start with
  | nil => exact tiles
  | cons iov rest ih =>
      obtain ⟨-, -, -, later⟩ := tiles
      rw [List.map_cons, List.sum_cons, ← Nat.add_assoc]
      exact ih later

/-- Every segment lies between `start` and `stop`. -/
theorem Tiles.mem (tiles : Tiles width start iovs stop) {iov : IoVec} (member : iov ∈ iovs) :
    start ≤ iov.node * width + iov.npos ∧ 0 < iov.iov_len ∧ iov.npos + iov.iov_len ≤ width ∧
      iov.node * width + iov.npos + iov.iov_len ≤ stop := by
  induction iovs generalizing start with
  | nil => cases member
  | cons first rest ih =>
      obtain ⟨here, positive, inside, later⟩ := tiles
      rcases List.mem_cons.mp member with rfl | behind
      · have := later.le
        omega
      · have := ih later behind
        omega

/-- Every segment lies in a block. -/
theorem Tiles.node_lt (chain : Chain width nodes) (tiles : Tiles width start iovs stop)
    (bound : stop ≤ (ByteArray.bytes nodes).length) {iov : IoVec} (member : iov ∈ iovs) :
    iov.node < nodes.length := by
  have last := tiles.mem member
  rw [chain.bytes_length] at bound
  by_contra past
  have := Nat.mul_le_mul_right width (Nat.le_of_not_lt past)
  omega

theorem Tiles.apart (tiles : Tiles width start iovs stop) : iovs.Pairwise IoVec.Apart := by
  induction iovs generalizing start with
  | nil => exact List.Pairwise.nil
  | cons iov rest ih =>
      obtain ⟨here, -, -, later⟩ := tiles
      refine List.pairwise_cons.mpr ⟨?_, ih later⟩
      intro other member same
      have behind := (later.mem member).1
      rw [← same] at behind
      omega

/-- What a segment inside of its block holds. -/
theorem IoVec.bytes_eq (chain : Chain width nodes) {iov : IoVec}
    (inside : iov.npos + iov.iov_len ≤ width) (there : iov.node < nodes.length) :
    iov.bytes nodes =
      ((ByteArray.bytes nodes).drop (iov.node * width + iov.npos)).take iov.iov_len := by
  have size : (nodes[iov.node]).ptr.length = width :=
    chain _ (List.mem_map.mpr ⟨_, List.getElem_mem there, rfl⟩)
  unfold IoVec.bytes
  rw [List.getElem?_eq_getElem there, ← List.drop_drop, ← chain.bytes_drop,
    List.drop_eq_getElem_cons there, bytes_cons, List.drop_append_of_le_length (by omega),
    List.take_append_of_le_length (by rw [List.length_drop]; omega)]

/-- The segments together hold the range. -/
theorem Tiles.bytes (chain : Chain width nodes) (tiles : Tiles width start iovs stop)
    (bound : stop ≤ (ByteArray.bytes nodes).length) :
    iovs.flatMap (IoVec.bytes nodes) =
      ((ByteArray.bytes nodes).drop start).take (stop - start) := by
  induction iovs generalizing start with
  | nil =>
      rw [show stop - start = 0 by rw [show start = stop from tiles]; omega, List.take_zero]
      rfl
  | cons iov rest ih =>
      have there := tiles.node_lt chain bound List.mem_cons_self
      obtain ⟨here, positive, inside, later⟩ := tiles
      have split : stop - start = iov.iov_len + (stop - (start + iov.iov_len)) := by
        have := later.le
        omega
      rw [List.flatMap_cons, ih later, IoVec.bytes_eq chain inside there, here, split,
        List.take_add, List.drop_drop]

/-- The loop of the buffer lists makes segments for exactly the range. -/
theorem gather_tiles (chain : Chain width nodes) {npos : Nat} (inside : npos < width)
    (cur len : Nat) (made : gather nodes cur npos len = some iovs) :
    Tiles width (cur * width + npos) iovs (cur * width + npos + len) := by
  induction nodes generalizing npos cur len iovs with
  | nil =>
      cases len with
      | zero =>
          cases made
          rfl
      | succ len => cases made
  | cons node rest ih =>
      obtain ⟨head, tail⟩ := (chain_cons width node rest).mp chain
      cases len with
      | zero =>
          cases made
          rfl
      | succ len =>
          simp only [gather, head] at made
          split at made
          · cases made
            refine ⟨rfl, Nat.succ_pos len, ?_, rfl⟩
            dsimp only
            omega
          · obtain ⟨behind, later, rfl⟩ := Option.map_eq_some_iff.mp made
            have rest_tiles := ih tail (show 0 < width by omega) (cur + 1) _ later
            have next : (cur + 1) * width + 0 = cur * width + npos + (width - npos) := by
              rw [Nat.add_mul]
              omega
            have last : (cur + 1) * width + 0 + (len + 1 - (width - npos)) =
                cur * width + npos + (len + 1) := by
              rw [next]
              omega
            rw [last, next] at rest_tiles
            refine ⟨rfl, ?_, ?_, rest_tiles⟩
            · dsimp only
              omega
            · dsimp only
              omega

namespace ByteArray

/-! ### The buffer lists for reading -/

variable {s : ByteArray}

/-- The bytes that the buffer lists for reading give at most. -/
def clamp (s : ByteArray) (len : Nat) : Nat := min len s.getReadSize

theorem clamp_eq (s : ByteArray) (len : Nat) :
    (if len > s.getReadSize then s.getReadSize else len) = s.clamp len := by
  unfold clamp
  split <;> omega

/-- The list that starts at a position, as long as the range lies in the chain. -/
theorem getReadBuffersAt_spec (rep : Rep s) (buffers : List IoVec) (len position : Nat)
    (fits : position + s.clamp len ≤ s.m_capacity) :
    ∃ iovs, getReadBuffersAt buffers len position s = .ok (buffers ++ iovs, s.clamp len) s ∧
      Tiles s.m_baseSize position iovs (position + s.clamp len) := by
  have split := block_add_offset position s.m_baseSize
  unfold getReadBuffersAt
  simp only [clamp_eq]
  generalize s.clamp len = size at fits
  by_cases none_left : size = 0
  · rw [if_pos none_left, none_left]
    refine ⟨[], ?_, rfl⟩
    rw [List.append_nil]
  · have block := (rep.block_lt_iff position).mpr (by omega)
    simp only [none_left, block, ↓reduceIte]
    cases made : gather (s.m_root.drop (position / s.m_baseSize)) (position / s.m_baseSize)
        (position % s.m_baseSize) size with
    | none =>
        have short := (gather_eq_none_iff (rep.chain.drop _) (rep.offset_lt _) _ _).mp made
        rw [rep.from_block_length] at short
        omega
    | some iovs =>
        have tiles := gather_tiles (rep.chain.drop _) (rep.offset_lt position) _ _ made
        rw [split] at tiles
        exact ⟨iovs, rfl, tiles⟩

/-- At the position of the array both lists are one. -/
theorem getReadBuffersAt_position (rep : Rep s) (buffers : List IoVec) (len : Nat) :
    getReadBuffersAt buffers len s.m_position s = getReadBuffers buffers len s := by
  have bound := rep.size_le
  have small : s.clamp len ≤ s.m_size - s.m_position := by
    rw [← rep.getReadSize_eq]
    exact Nat.min_le_right _ _
  unfold getReadBuffersAt getReadBuffers
  simp only [clamp_eq]
  generalize s.clamp len = size at small
  by_cases none_left : size = 0
  · simp only [none_left, ↓reduceIte]
  · have block := (rep.block_lt_iff s.m_position).mpr (by omega)
    have cur := rep.cur_of_lt (show s.m_position < s.m_capacity by omega)
    simp only [none_left, block, ↓reduceIte, cur]

theorem getReadBuffers_spec (rep : Rep s) (buffers : List IoVec) (len : Nat) :
    ∃ iovs, getReadBuffers buffers len s = .ok (buffers ++ iovs, s.clamp len) s ∧
      Tiles s.m_baseSize s.m_position iovs (s.m_position + s.clamp len) := by
  have bound := rep.size_le
  have order := rep.position_le
  have small : s.clamp len ≤ s.m_size - s.m_position := by
    rw [← rep.getReadSize_eq]
    exact Nat.min_le_right _ _
  rw [← getReadBuffersAt_position rep]
  exact getReadBuffersAt_spec rep buffers len s.m_position (by omega)

/-- `getWriteBuffers` makes segments for the bytes behind the position where the chain that
`addCapacity` leaves has room for them. -/
theorem getWriteBuffers_spec (rep : Rep s) {len : Nat} (some_bytes : 0 < len)
    (buffers : List IoVec) :
    if s.m_position + len ≤ (s.addCapacity len).m_capacity then
      ∃ iovs, getWriteBuffers buffers len s = .ok (buffers ++ iovs, len) (s.addCapacity len) ∧
        Tiles s.m_baseSize s.m_position iovs (s.m_position + len)
    else getWriteBuffers buffers len s = .error .nullNode (s.addCapacity len) := by
  have grown := addCapacity_grown rep len
  have nonzero : ¬ len = 0 := by omega
  unfold getWriteBuffers
  simp only [nonzero, ↓reduceIte]
  rw [← grown.position, ← grown.base]
  revert grown
  generalize s.addCapacity len = g
  intro grown
  have grep := grown.rep
  have order := grep.position_le_capacity
  by_cases full : g.m_position = g.m_capacity
  · rw [if_neg (by omega), grep.cur_of_full full]
  · have split := block_add_offset g.m_position g.m_baseSize
    have length := grep.from_block_length g.m_position
    have none_iff := gather_eq_none_iff (grep.chain.drop (g.m_position / g.m_baseSize))
      (grep.offset_lt g.m_position) (g.m_position / g.m_baseSize) len
    rw [grep.cur_of_lt (by omega)]
    simp only
    cases made : gather (g.m_root.drop (g.m_position / g.m_baseSize))
        (g.m_position / g.m_baseSize) (g.m_position % g.m_baseSize) len with
    | none =>
        have past := none_iff.mp made
        rw [if_neg (by omega)]
    | some iovs =>
        have room : ¬ (bytes (g.m_root.drop (g.m_position / g.m_baseSize))).length <
            g.m_position % g.m_baseSize + len := by
          intro past
          rw [none_iff.mpr ⟨nonzero, past⟩] at made
          cases made
        have tiles := gather_tiles (grep.chain.drop _) (grep.offset_lt g.m_position) _ _ made
        rw [split] at tiles
        rw [if_pos (by omega)]
        exact ⟨iovs, rfl, tiles⟩

/-- What the segments of a stored range hold. -/
theorem stored_of_tiles (rep : Rep s) {position size : Nat} {iovs : List IoVec}
    (tiles : Tiles s.m_baseSize position iovs (position + size))
    (within : position + size ≤ s.m_size) :
    iovs.flatMap (IoVec.bytes s.m_root) = ((s.content.take s.m_size).drop position).take size := by
  have bound := rep.size_le
  have length := rep.content_length
  rw [tiles.bytes rep.chain (show _ ≤ s.content.length by omega), Nat.add_sub_cancel_left,
    List.drop_take, List.take_take, min_eq_left (by omega)]
  rfl

/-! ### From a given position -/

/-- What a caller of `getReadBuffers(buffers, len, position)` relies on. -/
def GathersAt (s : ByteArray) (buffers : List IoVec) (len position : Nat) : Prop :=
  ∃ iovs r, getReadBuffersAt buffers len position s = .ok (buffers ++ iovs, r) s ∧
    r = min len (min s.getReadSize (s.m_size - position)) ∧
    iovs.flatMap (IoVec.bytes s.m_root) = ((s.content.take s.m_size).drop position).take r ∧
    (∀ iov ∈ iovs, iov.node * s.m_baseSize + iov.npos + iov.iov_len ≤ s.m_size) ∧
    (position = s.m_position → getReadBuffers buffers len s = .ok (buffers ++ iovs, r) s)

/-- It gives what is stored exactly where as many bytes as are left behind the array's own
position are also there behind the given one. -/
theorem gathersAt_iff {base_size : Nat} (positive : 0 < base_size)
    (reached : Reached base_size s) (buffers : List IoVec) {len position : Nat}
    (inside : position ≤ s.m_size) :
    GathersAt s buffers len position ↔ position + min len s.getReadSize ≤ s.m_size := by
  obtain ⟨rep, -⟩ := reached.rep positive
  have bound := rep.size_le
  constructor
  · rintro ⟨iovs, r, done, value, -⟩
    have given : r = s.clamp len := by
      unfold getReadBuffersAt at done
      simp only [clamp_eq] at done
      split at done
      · rename_i none_left
        have same := (EStateM.Result.ok.inj done).1
        rw [← (Prod.mk.inj same).2, none_left]
      · split at done
        · split at done
          · cases done
          · have same := (EStateM.Result.ok.inj done).1
            exact (Prod.mk.inj same).2.symm
        · cases done
    unfold clamp at given
    omega
  · intro enough
    have size : s.clamp len = min len s.getReadSize := rfl
    obtain ⟨iovs, done, tiles⟩ := getReadBuffersAt_spec rep buffers len position (by omega)
    refine ⟨iovs, s.clamp len, done, by omega, stored_of_tiles rep tiles (by omega), ?_, ?_⟩
    · intro iov member
      have last := (tiles.mem member).2.2.2
      omega
    · rintro rfl
      rw [← getReadBuffersAt_position rep]
      exact done

/-- Six bytes in blocks of four, and the position among them. -/
def sixStored (position : Nat) : List Call :=
  [.write [1, 2, 3, 4], .write [5, 6], .setPosition position]

/-- From in front of the array's own position. -/
theorem gathersAt_front :
    ∃ outs s, Transition.run Call.step (new 4 fun _ => 0) (sixStored 3) = some (outs, s) ∧
      getReadBuffersAt [] 9 2 s = .ok ([⟨0, 2, 2⟩, ⟨1, 0, 1⟩], 3) s ∧ GathersAt s [] 9 2 :=
  ⟨_, _, rfl, rfl, (gathersAt_iff (show 0 < 4 by decide)
    ⟨fun _ => 0, sixStored 3, _, rfl⟩ [] (by decide)).mpr (by decide)⟩

/-- From behind the array's own position: the last segment runs over the size into a byte that
was never written. -/
theorem not_gathersAt :
    ∃ outs s, Transition.run Call.step (new 4 fun _ => 0) (sixStored 3) = some (outs, s) ∧
      s.m_size = 6 ∧ getReadBuffersAt [] 9 4 s = .ok ([⟨1, 0, 3⟩], 3) s ∧ ¬ GathersAt s [] 9 4 := by
  refine ⟨_, _, rfl, rfl, rfl, ?_⟩
  intro gathers
  have enough := (gathersAt_iff (show 0 < 4 by decide)
    ⟨fun _ => 0, sixStored 3, _, rfl⟩ [] (by decide)).mp gathers
  revert enough
  decide

/-! ### From the position of the array -/

/-- The buffer list, `toString` and `read` give the same bytes, in segments that are not empty
and do not overlap. -/
def Agrees (s : ByteArray) (buffers : List IoVec) (len : Nat) : Prop :=
  ∃ iovs str t, getReadBuffers buffers len s = .ok (buffers ++ iovs, min len s.getReadSize) s ∧
    iovs.Pairwise IoVec.Apart ∧ (∀ iov ∈ iovs, 0 < iov.iov_len) ∧
    toString s = .ok str s ∧
    iovs.flatMap (IoVec.bytes s.m_root) = str.take (min len s.getReadSize) ∧
    read s.getReadSize s = .ok str t

/-- They agree exactly where the position is not at the end of the capacity. -/
theorem agrees_iff {base_size : Nat} (positive : 0 < base_size) (reached : Reached base_size s)
    (buffers : List IoVec) (len : Nat) :
    Agrees s buffers len ↔ s.m_position ≠ s.m_capacity := by
  obtain ⟨rep, -⟩ := reached.rep positive
  have readSize := rep.getReadSize_eq
  have enough : ¬ s.m_size - s.m_position < s.getReadSize := by omega
  have value := read_eq rep s.getReadSize
  rw [if_neg enough] at value
  constructor
  · rintro ⟨iovs, str, t, -, -, -, -, -, done⟩ full
    rw [value, if_pos full] at done
    cases done
  · intro left
    obtain ⟨iovs, done, tiles⟩ := getReadBuffers_spec rep buffers len
    have size : s.clamp len = min len s.getReadSize := rfl
    have order := rep.position_le
    have stored : (s.content.drop s.m_position).take s.getReadSize =
        (s.content.take s.m_size).drop s.m_position := by
      rw [List.drop_take, readSize]
    rw [if_neg left, stored] at value
    refine ⟨iovs, _, _, done, tiles.apart, ?_, toString_eq rep, ?_, value⟩
    · intro iov member
      exact (tiles.mem member).2.1
    · exact stored_of_tiles rep tiles (by omega)

/-- Across a block boundary. -/
theorem agrees_three :
    ∃ outs s, Transition.run Call.step (new 4 fun _ => 0) (sixStored 3) = some (outs, s) ∧
      getReadBuffers [] 2 s = .ok ([⟨0, 3, 1⟩, ⟨1, 0, 1⟩], 2) s ∧ Agrees s [] 2 :=
  ⟨_, _, rfl, rfl, (agrees_iff (show 0 < 4 by decide)
    ⟨fun _ => 0, sixStored 3, _, rfl⟩ [] 2).mpr (by decide)⟩

/-- Behind the last byte of a full block: nothing is left, and `read` follows the null pointer. -/
theorem not_agrees :
    ∃ outs s, Transition.run Call.step (new 4 fun _ => 0) [.write [1, 2, 3, 4]] = some (outs, s) ∧
      getReadBuffers [] 2 s = .ok ([], 0) s ∧ toString s = .ok [] s ∧ s.getReadSize = 0 ∧
      read 0 s = .error .nullNode s ∧ ¬ Agrees s [] 2 := by
  refine ⟨_, _, rfl, rfl, rfl, rfl, rfl, ?_⟩
  rintro ⟨iovs, str, t, -, -, -, -, -, done⟩
  cases done

end ByteArray

end CorReactor
