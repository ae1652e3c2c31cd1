import CorReactor.ByteArrayCapacity
import CorReactor.ByteArrayCodec

set_option autoImplicit false

/-! When a file that `writeToFile` has written holds what is unread, and that
`readFromFile` takes in any file. -/

namespace CorReactor.ByteArray

open Blocks

variable {s t : ByteArray} {f : Flat}

/-! ### The loop of `writeToFile` -/

section WriteToFile

variable {width n pos : Nat} {node : Node} {rest : List Node}

theorem map_append_ok {x : Except Fault (List UInt8)} {front file : List UInt8}
    (done : x.map (front ++ ·) = .ok file) : ∃ tail, x = .ok tail ∧ file = front ++ tail := by
  cases x with
  | error e => cases done
  | ok tail =>
      cases done
      exact ⟨tail, rfl, rfl⟩

/-- The offset in a block as an `int`. -/
theorem offset_eq (small : pos % width < 2 ^ 31) :
    ((pos : Int) % width).bmod (2 ^ 32) = (pos % width : Nat) := by
  rw [← Int.natCast_emod]
  apply Int.bmod_eq_of_le <;> omega

theorem writeToFileLoop_done (width : Nat) (nodes : List Node) (pos : Int) :
    writeToFileLoop width nodes 0 pos = .ok [] := by
  unfold writeToFileLoop
  exact if_pos (Int.le_refl 0)

theorem writeToFileLoop_cons (size : node.size = width) (some_left : 0 < n)
    (small : pos % width < 2 ^ 31) (enough : pos % width ≤ min width n) :
    writeToFileLoop width (node :: rest) n pos =
      (writeToFileLoop width rest (n - (min width n - pos % width) : Nat)
        (pos + (min width n - pos % width) : Nat)).map
          ((node.ptr.drop (pos % width)).take (min width n - pos % width) ++ ·) := by
  have length : (if (n : Int) > width then (width : Int) else n) - (pos % width : Nat) =
      (min width n - pos % width : Nat) := by
    split <;> omega
  have taken : min width n - pos % width ≤ n := by omega
  rw [writeToFileLoop, if_neg (by omega)]
  dsimp only
  rw [offset_eq small, length, if_neg (by omega), Int.toNat_natCast, Int.toNat_natCast,
    Nat.cast_sub taken, Nat.cast_add]

theorem writeToFileLoop_negative (small : pos % width < 2 ^ 31) (some_left : 0 < n)
    (short : n < pos % width) (below : n ≤ width) :
    writeToFileLoop width (node :: rest) n pos = .error .outsideBlock := by
  rw [writeToFileLoop, if_neg (by omega)]
  dsimp only
  rw [offset_eq small, if_neg (by omega : ¬ (n : Int) > width), if_pos (by omega)]

/-- From the start of a block on the loop writes block by block. -/
theorem writeToFileLoop_aligned (positive : 0 < width) {nodes : List Node}
    (chain : Chain width nodes) (aligned : pos % width = 0) (stored : n ≤ (bytes nodes).length) :
    writeToFileLoop width nodes n pos = .ok ((bytes nodes).take n) := by
  induction nodes generalizing n pos with
  | nil =>
      obtain rfl : n = 0 := Nat.le_zero.mp stored
      exact writeToFileLoop_done ..
  | cons node rest ih =>
      obtain ⟨size, tail⟩ := (chain_cons width node rest).mp chain
      by_cases none_left : n = 0
      · subst none_left
        exact writeToFileLoop_done ..
      · rw [bytes_cons, List.length_append] at stored
        have length : node.ptr.length = width := size
        rw [writeToFileLoop_cons size (by omega) (by omega) (by omega), aligned, Nat.sub_zero,
          List.drop_zero, bytes_cons]
        by_cases last : n ≤ width
        · rw [min_eq_right last, Nat.sub_self, Nat.cast_zero, writeToFileLoop_done,
            List.take_append_of_le_length (by omega)]
          exact congrArg Except.ok (List.append_nil _)
        · have next : (pos + width) % width = 0 := by rw [Nat.add_mod_right, aligned]
          have whole : node.ptr.take width = node.ptr := List.take_of_length_le (by omega)
          have within : node.ptr.take n = node.ptr := List.take_of_length_le (by omega)
          rw [min_eq_left (by omega), ih tail next (by omega), whole, List.take_append, within,
            length]
          rfl

/-- From inside a block on, with at least a whole block left. -/
theorem writeToFileLoop_offset (positive : 0 < width) {nodes : List Node}
    (chain : Chain width nodes) (small : pos % width < 2 ^ 31) (long : width ≤ n)
    (stored : n ≤ ((bytes nodes).drop (pos % width)).length) :
    writeToFileLoop width nodes n pos = .ok (((bytes nodes).drop (pos % width)).take n) := by
  have inside := Nat.mod_lt pos positive
  cases nodes with
  | nil =>
      rw [bytes_nil, List.drop_nil, List.length_nil] at stored
      omega
  | cons node rest =>
      obtain ⟨size, tail⟩ := (chain_cons width node rest).mp chain
      have length : node.ptr.length = width := size
      rw [bytes_cons, List.length_drop, List.length_append] at stored
      have next : (pos + (width - pos % width)) % width = 0 := by
        have whole := Nat.div_add_mod pos width
        have start : pos + (width - pos % width) = width * (pos / width + 1) := by
          rw [Nat.mul_add, Nat.mul_one]
          omega
        rw [start]
        exact Nat.mul_mod_right _ _
      have left : (node.ptr.drop (pos % width)).length = width - pos % width := by
        rw [List.length_drop, length]
      have whole : (node.ptr.drop (pos % width)).take (width - pos % width) =
          node.ptr.drop (pos % width) := List.take_of_length_le (by omega)
      have within : (node.ptr.drop (pos % width)).take n = node.ptr.drop (pos % width) :=
        List.take_of_length_le (by omega)
      rw [writeToFileLoop_cons size (by omega) small (by omega), min_eq_left long,
        writeToFileLoop_aligned positive tail next (by omega), whole, bytes_cons,
        List.drop_append_of_le_length (by omega), List.take_append, within, left]
      rfl

/-- From inside a block on, with less than a whole block left: the offset in the next block
is what was left, and what is left then is the offset before. -/
theorem writeToFileLoop_fails (narrow : width ≤ 2 ^ 31) {nodes : List Node}
    (chain : Chain width nodes) (inside : pos % width ≠ 0) (some_left : 0 < n) (short : n < width)
    (file : List UInt8) : writeToFileLoop width nodes n pos ≠ .ok file := by
  intro done
  have bound : pos % width < width := Nat.mod_lt pos (by omega)
  induction nodes generalizing n pos file with
  | nil =>
      rw [writeToFileLoop, if_neg (by omega)] at done
      cases done
  | cons node rest ih =>
      obtain ⟨size, tail⟩ := (chain_cons width node rest).mp chain
      by_cases negative : n < pos % width
      · rw [writeToFileLoop_negative (by omega) some_left negative short.le] at done
        cases done
      · rw [writeToFileLoop_cons size some_left (by omega) (by omega), min_eq_right short.le]
          at done
        have left : n - (n - pos % width) = pos % width := by omega
        have next : (pos + (n - pos % width)) % width = n := by
          have whole := Nat.div_add_mod pos width
          have start : pos + (n - pos % width) = n + width * (pos / width) := by omega
          rw [start, Nat.add_mul_mod_self_left, Nat.mod_eq_of_lt short]
        rw [left] at done
        obtain ⟨written, later, -⟩ := map_append_ok done
        exact ih tail (by omega) (Nat.pos_of_ne_zero inside) bound written later (by omega)

/-- Where nothing is written from one block the loop runs off the chain. -/
theorem writeToFileLoop_stuck {read_size start : Int} (some_left : 0 < read_size)
    (stuck : (if read_size > width then (width : Int) else read_size) -
      (start % width).bmod (2 ^ 32) = 0) (nodes : List Node) (file : List UInt8) :
    writeToFileLoop width nodes read_size start ≠ .ok file := by
  intro done
  induction nodes generalizing file with
  | nil =>
      rw [writeToFileLoop, if_neg (by omega)] at done
      cases done
  | cons node rest ih =>
      rw [writeToFileLoop, if_neg (by omega)] at done
      dsimp only at done
      rw [stuck, Int.sub_zero, Int.add_zero, Int.add_zero] at done
      split at done
      · cases done
      · obtain ⟨tail, later, -⟩ := map_append_ok done
        exact ih tail later

/-- The first byte written comes from the first block, at the offset the `int` gives. -/
theorem writeToFileLoop_head (some_left : 0 < n) {file : List UInt8}
    (done : writeToFileLoop width (node :: rest) n pos = .ok file) :
    file[0]? = node.ptr[(((pos : Int) % width).bmod (2 ^ 32)).toNat]? := by
  have stuck : (if (n : Int) > width then (width : Int) else n) -
      ((pos : Int) % width).bmod (2 ^ 32) = 0 →
      ∀ nodes file, writeToFileLoop width nodes n pos ≠ .ok file :=
    writeToFileLoop_stuck (Int.natCast_pos.mpr some_left)
  rw [writeToFileLoop, if_neg (by omega)] at done
  revert done stuck
  dsimp only
  generalize ((pos : Int) % width).bmod (2 ^ 32) = diff
  generalize (if (n : Int) > width then (width : Int) else n) - diff = len
  intro done stuck
  split at done
  · cases done
  · have length : node.ptr.length = node.size := rfl
    obtain ⟨tail, later, rfl⟩ := map_append_ok done
    have some_bytes : len ≠ 0 := by
      rintro rfl
      rw [Int.sub_zero, Int.add_zero] at later
      exact stuck rfl rest tail later
    have front : 0 < ((node.ptr.drop diff.toNat).take len.toNat).length := by
      rw [List.length_take, List.length_drop]
      omega
    rw [List.getElem?_append_left front, List.getElem?_take_of_lt (by omega), List.getElem?_drop,
      Nat.add_zero]

/-- Where the loop goes wrong, one byte that it should write has no effect on the byte that
it writes instead. -/
theorem writeToFileLoop_blind (positive : 0 < width) (some_left : 0 < n)
    (inside : pos % width ≠ 0) (wrong : 2 ^ 31 ≤ pos % width ∨ n < width) (rest : List Node) :
    ∃ i < n, pos % width + i < width ∧ ∀ node other : Node, node.size = width →
      other.size = width →
      (∀ k, k ≠ pos % width + i → other.ptr[k]? = node.ptr[k]?) →
      ∀ file file', writeToFileLoop width (node :: rest) n pos = .ok file →
        writeToFileLoop width (other :: rest) n pos = .ok file' → file[i]? = file'[i]? := by
  have bound := Nat.mod_lt pos positive
  by_cases large : 2 ^ 31 ≤ pos % width
  · refine ⟨0, some_left, bound, ?_⟩
    intro node other _ _ same file file' done done'
    have high : ((pos : Int) % width).bmod (2 ^ 32) < _ := Int.bmod_lt (by decide)
    rw [writeToFileLoop_head some_left done, writeToFileLoop_head some_left done', same]
    omega
  · by_cases long : n < pos % width
    · refine ⟨0, some_left, bound, ?_⟩
      intro node other _ _ _ file _ done _
      rw [writeToFileLoop_negative (by omega) some_left long (by omega)] at done
      cases done
    · have short : n < width := wrong.resolve_left large
      refine ⟨n - pos % width, by omega, by omega, ?_⟩
      intro node other size size' _ file file' done done'
      rw [writeToFileLoop_cons size some_left (by omega) (by omega), min_eq_right (by omega)]
          at done
      rw [writeToFileLoop_cons size' some_left (by omega) (by omega), min_eq_right (by omega)]
        at done'
      -- both continue with the same later blocks
      obtain ⟨tail, later, rfl⟩ := map_append_ok done
      obtain ⟨tail', later', rfl⟩ := map_append_ok done'
      obtain rfl : tail = tail' := Except.ok.inj (later.symm.trans later')
      have front : ∀ block : Node, block.size = width →
          ((block.ptr.drop (pos % width)).take (n - pos % width)).length = n - pos % width := by
        intro block whole
        have length : block.ptr.length = width := whole
        rw [List.length_take, List.length_drop]
        omega
      rw [List.getElem?_append_right (front node size).le, front node size,
        List.getElem?_append_right (front other size').le, front other size']

end WriteToFile

/-- The blocks from `m_cur` on. -/
def fromCur (s : ByteArray) : List Node := s.m_root.drop (s.m_position / s.m_baseSize)

theorem fromCur_size (rep : Rep s) {node : Node} {rest : List Node}
    (block : s.fromCur = node :: rest) : node.size = s.m_baseSize := by
  have chain : Chain s.m_baseSize s.fromCur := rep.chain.drop _
  rw [block] at chain
  exact ((chain_cons _ _ _).mp chain).1

theorem writeToFile_iff (rep : Rep s) (file : List UInt8) :
    writeToFile true s = .ok (some file) s ↔
      writeToFileLoop s.m_baseSize s.fromCur (s.m_size - s.m_position : Nat) s.m_position =
        .ok file := by
  unfold writeToFile fromCur
  rw [if_pos rfl, rep.getReadSize_eq]
  by_cases room : s.m_position < s.m_capacity
  · rw [rep.cur_of_lt room]
    dsimp only
    cases writeToFileLoop s.m_baseSize (s.m_root.drop (s.m_position / s.m_baseSize))
      (s.m_size - s.m_position : Nat) s.m_position <;>
      simp only [reduceCtorEq, EStateM.Result.ok.injEq, Option.some.injEq, Except.ok.injEq,
        and_true]
  · have past := mt (rep.block_lt_iff s.m_position).mp room
    have full : s.m_position = s.m_capacity := by
      have := rep.position_le_capacity
      omega
    rw [rep.cur_of_full full, List.drop_eq_nil_of_le (by omega)]
    dsimp only
    cases writeToFileLoop s.m_baseSize [] (s.m_size - s.m_position : Nat) s.m_position <;>
      simp only [reduceCtorEq, EStateM.Result.ok.injEq, Option.some.injEq, Except.ok.injEq,
        and_true]

theorem unread_eq (rep : Rep s) :
    s.unread =
      ((bytes s.fromCur).drop (s.m_position % s.m_baseSize)).take (s.m_size - s.m_position) := by
  unfold unread fromCur
  rw [rep.bytes_from_block, List.drop_drop, block_add_offset, List.drop_take]

/-- Nothing is left, or the position is at the start of a block, or its offset fits an
`int` and a whole block is left. -/
def Savable (s : ByteArray) : Prop :=
  s.m_position = s.m_size ∨ s.m_position % s.m_baseSize = 0 ∨
    (s.m_position % s.m_baseSize < 2 ^ 31 ∧ s.m_baseSize ≤ s.m_size - s.m_position)

theorem writeToFile_of_savable (rep : Rep s) (savable : s.Savable) :
    writeToFile true s = .ok (some s.unread) s := by
  have loop : writeToFileLoop s.m_baseSize s.fromCur (s.m_size - s.m_position : Nat) s.m_position =
      .ok s.unread := by
    have stored : s.m_size - s.m_position ≤
        ((bytes s.fromCur).drop (s.m_position % s.m_baseSize)).length := by
      have split := block_add_offset s.m_position s.m_baseSize
      have bound := rep.size_le
      unfold fromCur
      rw [List.length_drop, rep.from_block_length]
      omega
    have chain : Chain s.m_baseSize s.fromCur := rep.chain.drop _
    rw [unread_eq rep]
    rcases savable with none_left | aligned | ⟨small, long⟩
    · rw [none_left, Nat.sub_self, Nat.cast_zero, writeToFileLoop_done, List.take_zero]
    · rw [aligned, List.drop_zero] at stored ⊢
      exact writeToFileLoop_aligned rep.base_pos chain aligned stored
    · exact writeToFileLoop_offset rep.base_pos chain small long stored
  exact (writeToFile_iff rep s.unread).mpr loop

theorem memcpy_byte (node : Node) {offset : Nat} (inside : offset < node.size) (b : UInt8) :
    (node.memcpy offset [b]).size = node.size ∧
      (node.memcpy offset [b]).ptr[offset]? = some b ∧
      ∀ k, k ≠ offset → (node.memcpy offset [b]).ptr[k]? = node.ptr[k]? := by
  have length : node.ptr.length = node.size := rfl
  refine ⟨length_splice_of_fits node.ptr offset [b] inside, ?_, ?_⟩
  · exact getElem?_splice_of_inside node.ptr offset [b] inside.le (by decide : 0 < 1)
  · intro k other
    rw [memcpy_ptr]
    apply getElem?_splice_of_outside _ _ _ inside.le
    rw [List.length_singleton]
    omega

/-- The two arrays differ at most in the bytes they hold. -/
structure SameCounters (s t : ByteArray) : Prop where
  position : t.m_position = s.m_position
  size : t.m_size = s.m_size
  capacity : t.m_capacity = s.m_capacity

theorem write_byte (rep : Rep s) (room : s.m_position < s.m_capacity) {node : Node}
    {rest : List Node} (block : s.fromCur = node :: rest) (b : UInt8) :
    ∃ t, write [b] s = .ok () t ∧
      t.m_root = s.m_root.take (s.m_position / s.m_baseSize) ++
        node.memcpy (s.m_position % s.m_baseSize) [b] :: rest ∧
      t.m_size = max s.m_size (s.m_position + 1) ∧ t.m_capacity = s.m_capacity := by
  have size := fromCur_size rep block
  have inside := rep.offset_lt s.m_position
  have stays : s.addCapacity [b].length = s := by
    unfold addCapacity
    rw [rep.getCapacity_eq, List.length_singleton, if_neg one_ne_zero]
    exact if_pos (by omega)
  have copied : ∃ moved, copyIn (node :: rest) (s.m_position % s.m_baseSize) [b] =
      some (node.memcpy (s.m_position % s.m_baseSize) [b] :: rest, moved) :=
    ⟨_, if_pos (by
      rw [List.length_singleton]
      omega)⟩
  obtain ⟨moved, copied⟩ := copied
  unfold fromCur at block
  unfold write
  rw [List.length_singleton, if_neg one_ne_zero, ← List.length_singleton (a := b), stays]
  dsimp only
  rw [rep.cur_of_lt room]
  dsimp only
  rw [block, copied]
  refine ⟨_, rfl, rfl, ?_, rfl⟩
  dsimp only
  rw [List.length_singleton]
  split <;> omega

theorem Reached.call {base_size : Nat} (reached : Reached base_size s) (call : Call)
    (done : call.exec s = .ok () t) : Reached base_size t := by
  obtain ⟨heap, calls⟩ := reached
  refine ⟨heap, calls.step (a := call) (o := none) ?_⟩
  unfold Call.step
  rw [done]

/-- A stored byte of the current block can be overwritten, and the position set back. -/
theorem overwrite {base_size : Nat} (positive : 0 < base_size) (reached : Reached base_size s)
    {i : Nat} (stored : s.m_position + i < s.m_size)
    (inside : s.m_position % s.m_baseSize + i < s.m_baseSize) {node : Node} {rest : List Node}
    (block : s.fromCur = node :: rest) (b : UInt8) :
    ∃ t, Reached base_size t ∧ SameCounters s t ∧
      t.fromCur = node.memcpy (s.m_position % s.m_baseSize + i) [b] :: rest := by
  obtain ⟨rep, base⟩ := reached.rep positive
  have bound := rep.size_le
  have split := block_add_offset s.m_position s.m_baseSize
  have start : s.m_position + i =
      s.m_position % s.m_baseSize + i + s.m_baseSize * (s.m_position / s.m_baseSize) := by
    rw [Nat.mul_comm]
    omega
  have number : (s.m_position + i) / s.m_baseSize = s.m_position / s.m_baseSize := by
    rw [start, Nat.add_mul_div_left _ _ rep.base_pos, Nat.div_eq_of_lt inside, Nat.zero_add]
  have offset : (s.m_position + i) % s.m_baseSize = s.m_position % s.m_baseSize + i := by
    rw [start, Nat.add_mul_mod_self_left, Nat.mod_eq_of_lt inside]
  have there := setPosition_eq rep (s.m_position + i)
  have rep_there := setPosition_rep rep (v := s.m_position + i) (by omega)
  rw [if_neg (by omega)] at there
  have reached_there := reached.call (.setPosition (s.m_position + i)) there
  obtain ⟨p, written, root, size, capacity⟩ := write_byte rep_there
    (show s.m_position + i < s.m_capacity by omega)
    (show List.drop ((s.m_position + i) / s.m_baseSize) s.m_root = node :: rest by
      rw [number]
      exact block) b
  have reached_p := reached_there.call (.write [b]) written
  obtain ⟨rep_p, base_p⟩ := reached_p.rep positive
  dsimp only at root size capacity
  have back := setPosition_eq rep_p s.m_position
  rw [if_neg (by omega)] at back
  refine ⟨_, reached_p.call (.setPosition s.m_position) back, ⟨rfl, ?_, capacity⟩, ?_⟩
  · dsimp only
    omega
  · have front : (s.m_root.take (s.m_position / s.m_baseSize)).length =
        s.m_position / s.m_baseSize := by
      have inside := (rep.block_lt_iff s.m_position).mpr (by omega)
      rw [List.length_take]
      omega
    unfold fromCur
    dsimp only
    rw [base_p, ← base, root, number, offset, List.drop_left' front]

/-! ### The loop of `readFromFile` -/

theorem fits_of_aligned (rep : Rep s) (aligned : s.m_baseSize ∣ s.m_position) {n : Nat}
    (small : n ≤ s.m_baseSize) : Fits s n := by
  have whole : s.m_baseSize ∣ s.m_capacity := ⟨_, rep.capacity.trans (Nat.mul_comm _ _)⟩
  have left : s.m_baseSize ∣ s.getCapacity := by
    rw [rep.getCapacity_eq]
    exact Nat.dvd_sub whole aligned
  unfold Fits
  by_cases full : s.getCapacity = 0
  · rw [full]
    omega
  · have := Nat.le_of_dvd (Nat.pos_of_ne_zero full) left
    omega

theorem write_of_fits (rel : Represents s f) {buf : List UInt8} (fits : Fits s buf.length) :
    ∃ t, ByteArray.write buf s = .ok () t ∧ Represents t (f.write buf) ∧
      t.m_baseSize = s.m_baseSize := by
  have completes : ∃ t, ByteArray.write buf s = .ok () t := by
    by_cases empty : buf = []
    · subst empty
      exact ⟨s, rfl⟩
    · have spec := write_spec rel.rep empty
      rw [if_pos ((addCapacity_enough_iff rel.rep _).mpr fits)] at spec
      obtain ⟨t, done, -⟩ := spec
      exact ⟨t, done⟩
  obtain ⟨t, done⟩ := completes
  have keeps := keeps_write buf s rel.rep
  rw [done] at keeps
  exact ⟨t, done, rel.write_sim done, keeps.2⟩

theorem readFromFileLoop_succ (rounds : Nat) {file : List UInt8}
    (done : ByteArray.write (file.take s.m_baseSize) s = .ok () t) :
    readFromFileLoop (rounds + 1) file s =
      if (file.take s.m_baseSize).length < s.m_baseSize then .ok () t
      else readFromFileLoop rounds (file.drop s.m_baseSize) t := by
  rw [readFromFileLoop]
  dsimp only
  rw [done]

/-- From the start of a block on the whole file is written, and rounds beyond the end of
the file are not run. -/
theorem readFromFileLoop_represents {rounds : Nat} {file : List UInt8} (rel : Represents s f)
    (aligned : s.m_baseSize ∣ s.m_position) (enough : file.length < rounds * s.m_baseSize) :
    ∃ t, (∀ more, readFromFileLoop (rounds + more) file s = .ok () t) ∧
      Represents t (f.write file) := by
  induction rounds generalizing s f file with
  | zero =>
      rw [Nat.zero_mul] at enough
      exact absurd enough (Nat.not_lt_zero _)
  | succ rounds ih =>
      have chunk : (file.take s.m_baseSize).length ≤ s.m_baseSize := List.length_take_le _ _
      obtain ⟨t, done, rel', base⟩ := write_of_fits rel (fits_of_aligned rel.rep aligned chunk)
      have round : ∀ more, readFromFileLoop (rounds + 1 + more) file s =
          if (file.take s.m_baseSize).length < s.m_baseSize then .ok () t
          else readFromFileLoop (rounds + more) (file.drop s.m_baseSize) t := by
        intro more
        rw [Nat.add_right_comm]
        exact readFromFileLoop_succ (rounds + more) done
      by_cases last : (file.take s.m_baseSize).length < s.m_baseSize
      · have all : file.take s.m_baseSize = file := by
          rw [List.length_take] at last
          exact List.take_of_length_le (by omega)
        refine ⟨t, fun more => (round more).trans (if_pos last), ?_⟩
        rw [← all]
        exact rel'
      · have full : (file.take s.m_baseSize).length = s.m_baseSize := by omega
        have next : t.m_baseSize ∣ t.m_position := by
          rw [base, rel'.position]
          change _ ∣ f.pos + (file.take s.m_baseSize).length
          rw [full, ← rel.position]
          exact Nat.dvd_add aligned (Nat.dvd_refl _)
        have left : (file.drop s.m_baseSize).length < rounds * t.m_baseSize := by
          rw [List.length_take] at full
          rw [Nat.add_mul, Nat.one_mul] at enough
          rw [base, List.length_drop]
          omega
        obtain ⟨u, rest, rel_u⟩ := ih rel' next left
        refine ⟨u, fun more => ((round more).trans (if_neg last)).trans (rest more), ?_⟩
        rw [Flat.write_write, List.take_append_drop] at rel_u
        exact rel_u

/-- Any file is read into a fresh array, whatever its block size. -/
theorem readFromFile_represents {base_size : Nat} (positive : 0 < base_size)
    (heap : Nat → UInt8) (file : List UInt8) :
    ∃ t, readFromFile (some file) (new base_size heap) = .ok true t ∧
      Represents t (Flat.empty.write file) := by
  have enough : file.length < (file.length + 1) * base_size := by
    have := Nat.le_mul_of_pos_right (file.length + 1) positive
    omega
  obtain ⟨t, done, rel⟩ := readFromFileLoop_represents (Represents.new positive heap)
    (Nat.dvd_zero base_size) enough
  refine ⟨t, ?_, rel⟩
  change (readFromFileLoop (file.length + 1) file >>= fun _ => pure true) _ = _
  rw [Op.bind_apply, done 0]
  rfl

/-! ### The round trip -/

/-- The file holds what is unread, and every array that reads it holds the same. -/
def RoundTrips (s : ByteArray) : Prop :=
  ∃ file, writeToFile true s = .ok (some file) s ∧ toString s = .ok file s ∧
    ∀ base_size heap, 0 < base_size → ∃ t u,
      readFromFile (some file) (new base_size heap) = .ok true t ∧
      (setPosition 0 >>= fun _ => toString) t = .ok file u

theorem roundTrips_of_savable (rep : Rep s) (savable : s.Savable) : s.RoundTrips := by
  refine ⟨s.unread, writeToFile_of_savable rep savable, toString_eq rep, ?_⟩
  intro base_size heap positive
  obtain ⟨t, read, rel⟩ := readFromFile_represents positive heap s.unread
  obtain ⟨u, start, rewound⟩ := rel.rewind
  refine ⟨t, u, read, ?_⟩
  rw [Op.bind_apply, start]
  dsimp only
  rw [rewound.toString_eq, List.drop_zero, Flat.empty_write]

theorem RoundTrips.file (rep : Rep s) (trips : s.RoundTrips) :
    writeToFileLoop s.m_baseSize s.fromCur (s.m_size - s.m_position : Nat) s.m_position =
      .ok s.unread := by
  obtain ⟨file, written, shown, -⟩ := trips
  rw [toString_eq rep] at shown
  cases shown
  exact (writeToFile_iff rep _).mp written

/-- The byte at an offset in the block that the position is in. -/
theorem unread_getElem (rep : Rep s) {node : Node} {rest : List Node}
    (block : s.fromCur = node :: rest) {i : Nat} (stored : i < s.m_size - s.m_position)
    (inside : s.m_position % s.m_baseSize + i < s.m_baseSize) :
    s.unread[i]? = node.ptr[s.m_position % s.m_baseSize + i]? := by
  have length : node.ptr.length = s.m_baseSize := fromCur_size rep block
  rw [unread_eq rep, block, bytes_cons, List.getElem?_take_of_lt stored, List.getElem?_drop,
    List.getElem?_append_left (by omega)]

/-- Where the counters are not `Savable`, changing one unread byte does not change the
byte in its place in the file. -/
theorem savable_of_trips {base_size : Nat} (positive : 0 < base_size)
    (reached : Reached base_size s)
    (trips : ∀ t, Reached base_size t → SameCounters s t → t.RoundTrips) : s.Savable := by
  obtain ⟨rep, base⟩ := reached.rep positive
  by_contra wrong
  unfold Savable at wrong
  push Not at wrong
  obtain ⟨left, inside, short⟩ := wrong
  have some_left : 0 < s.m_size - s.m_position := by
    have := rep.position_le
    omega
  have long : 2 ^ 31 ≤ s.m_position % s.m_baseSize ∨ s.m_size - s.m_position < s.m_baseSize := by
    by_contra both
    push Not at both
    exact absurd both.2 (Nat.not_le.mpr (short both.1))
  cases block : s.fromCur with
  | nil =>
      have bound := rep.size_le
      have none_left := List.drop_eq_nil_iff.mp block
      have room := (rep.block_lt_iff s.m_position).mpr (by omega)
      omega
  | cons node rest =>
      have size := fromCur_size rep block
      obtain ⟨i, stored, offset, blind⟩ :=
        writeToFileLoop_blind rep.base_pos some_left inside long rest
      obtain ⟨b, differs⟩ : ∃ b, node.ptr[s.m_position % s.m_baseSize + i]? ≠ some b := by
        by_cases zero : node.ptr[s.m_position % s.m_baseSize + i]? = some 0
        · exact ⟨1, by rw [zero]; decide⟩
        · exact ⟨0, zero⟩
      obtain ⟨t, reached_t, same, block_t⟩ := overwrite positive reached (by omega) offset block b
      obtain ⟨rep_t, base_t⟩ := reached_t.rep positive
      obtain ⟨whole, changed, others⟩ := memcpy_byte node (offset.trans_eq size.symm) b
      have here := (trips s reached ⟨rfl, rfl, rfl⟩).file rep
      have there := (trips t reached_t same).file rep_t
      have read := unread_getElem rep block stored offset
      have read_t := unread_getElem rep_t (i := i) block_t
      rw [same.position, same.size, base_t, ← base, changed] at read_t
      rw [block] at here
      rw [block_t, same.position, same.size, base_t, ← base] at there
      have equal := blind _ _ size (whole.trans size) others _ _ here there
      rw [read, read_t stored offset] at equal
      exact differs equal

theorem savable_of_narrow (rep : Rep s) (narrow : s.m_baseSize ≤ 2 ^ 31) (trips : s.RoundTrips) :
    s.Savable := by
  have bound := rep.position_le
  have offset := rep.offset_lt s.m_position
  unfold Savable
  by_contra wrong
  exact writeToFileLoop_fails narrow (rep.chain.drop _) (by omega) (by omega) (by omega) _
    (trips.file rep)

/-- The arrays of these counters all come through a file unchanged exactly where the
counters are `Savable`. With blocks of up to 2 GiB that holds of each array by itself. -/
theorem roundTrips_iff {base_size : Nat} (positive : 0 < base_size)
    (reached : Reached base_size s) :
    ((∀ t, Reached base_size t → SameCounters s t → t.RoundTrips) ↔ s.Savable) ∧
    (base_size ≤ 2 ^ 31 → (s.RoundTrips ↔ s.Savable)) := by
  obtain ⟨rep, base⟩ := reached.rep positive
  refine ⟨⟨savable_of_trips positive reached, ?_⟩, ?_⟩
  · intro savable t reached_t same
    obtain ⟨rep_t, base_t⟩ := reached_t.rep positive
    apply roundTrips_of_savable rep_t
    unfold Savable
    rw [same.position, same.size, base_t, ← base]
    exact savable
  · intro narrow
    exact ⟨savable_of_narrow rep (base.trans_le narrow), roundTrips_of_savable rep⟩

/-- From inside the first of two blocks. -/
theorem roundTrips_iff_two :
    ∃ s, Reached 2 s ∧ s.m_position = 1 ∧ s.m_size = 4 ∧ s.RoundTrips := by
  have reached : ∃ s, Reached 2 s ∧ s.m_position = 1 ∧ s.m_size = 4 ∧ s.m_baseSize = 2 :=
    ⟨_, ⟨fun _ => 0, [.write [1, 2, 3, 4], .setPosition 1], _, rfl⟩, rfl, rfl, rfl⟩
  obtain ⟨s, reached, position, size, base⟩ := reached
  have savable : s.Savable := by
    unfold Savable
    rw [position, size, base]
    decide
  have positive : 0 < 2 := by decide
  have trips := ((roundTrips_iff positive reached).2 (by decide)).mpr savable
  exact ⟨s, reached, position, size, trips⟩

/-- Three bytes in a block of four: from the second on a null node is followed, from the
third on the length is negative. -/
theorem writeToFile_within_block :
    (∃ s, Reached 4 s ∧ s.m_position = 1 ∧ s.m_size = 3 ∧
      writeToFile true s = .error .nullNode s) ∧
    ∃ s, Reached 4 s ∧ s.m_position = 2 ∧ s.m_size = 3 ∧
      writeToFile true s = .error .outsideBlock s :=
  ⟨⟨_, ⟨fun _ => 0, [.write [1, 2, 3], .setPosition 1], _, rfl⟩, rfl, rfl, rfl⟩,
    ⟨_, ⟨fun _ => 0, [.write [1, 2, 3], .setPosition 2], _, rfl⟩, rfl, rfl, rfl⟩⟩

end CorReactor.ByteArray
