import CorReactor.ByteArrayTyped
import CorReactor.ByteArrayInvariant
import CorReactor.Transition

set_option autoImplicit false

/-! Every public operation keeps the representation invariant. -/

namespace CorReactor

/-- What the caller can catch; the other faults are undefined behaviour. -/
def Fault.isException : Fault → Bool
  | .outOfRange => true
  | .lengthError => true
  | .nullNode => false
  | .outsideBlock => false

namespace ByteArray

/-- Where the operation returns or throws, the invariant still holds; nothing is said where it
does not complete. -/
def Preserves {α : Type} (I : ByteArray → Prop) (x : Op α) : Prop :=
  ∀ s, I s → match x s with
    | .ok _ t => I t
    | .error e t => e.isException = true → I t

/-- The operation returned or threw, and left a well-formed array of the same block
size; nothing is said where it did not complete. -/
def Sound {α : Type} (s : ByteArray) : EStateM.Result Fault ByteArray α → Prop
  | .ok _ t => Rep t ∧ t.m_baseSize = s.m_baseSize
  | .error e t => e.isException = true → Rep t ∧ t.m_baseSize = s.m_baseSize

def Keeps {α : Type} (x : Op α) : Prop := ∀ s, Rep s → Sound s (x s)

/-- An operation that leaves the array as it found it keeps the invariant. -/
def Reads {α : Type} (x : Op α) : Prop :=
  ∀ s, (∃ a, x s = .ok a s) ∨ ∃ e, x s = .error e s

section Rules

variable {α β : Type} {I : ByteArray → Prop}

theorem Reads.preserves {x : Op α} (reads : Reads x) : Preserves I x := by
  intro s holds
  rcases reads s with ⟨a, same⟩ | ⟨e, same⟩
  · rw [same]
    exact holds
  · rw [same]
    exact fun _ => holds

theorem preserves_pure (a : α) : Preserves I (pure a : Op α) :=
  Reads.preserves fun _ => Or.inl ⟨a, rfl⟩

theorem preserves_get : Preserves I (get : Op ByteArray) :=
  Reads.preserves fun s => Or.inl ⟨s, rfl⟩

theorem Preserves.bind {x : Op α} {f : α → Op β} (first : Preserves I x)
    (next : ∀ a, Preserves I (f a)) : Preserves I (x >>= f) := by
  intro s holds
  have before := first s holds
  rw [Op.bind_apply]
  cases done : x s with
  | ok a t =>
      rw [done] at before
      exact next a t before
  | error e t =>
      rw [done] at before
      exact before

theorem Preserves.map {x : Op α} (f : α → β) (keeps : Preserves I x) : Preserves I (f <$> x) := by
  have same : f <$> x = x >>= fun a => pure (f a) := (bind_pure_comp f x).symm
  rw [same]
  exact keeps.bind fun a => preserves_pure (f a)

theorem Keeps.preserves {x : Op α} (keeps : Keeps x) (base_size : Nat) :
    Preserves (fun s => Rep s ∧ s.m_baseSize = base_size) x := by
  rintro s ⟨rep, rfl⟩
  have sound := keeps s rep
  cases done : x s with
  | ok a t =>
      rw [done] at sound
      exact sound
  | error e t =>
      rw [done] at sound
      exact sound

end Rules

/-! ### Raw access -/

theorem keeps_setIsLittleEndian (val : Bool) : Keeps (setIsLittleEndian val) := fun _ rep =>
  ⟨setEndian_rep rep _, rfl⟩

theorem keeps_clear : Keeps clear := fun _ rep => ⟨clear_rep rep, rfl⟩

theorem keeps_write (buf : List UInt8) : Keeps (write buf) := by
  intro s rep
  by_cases empty : buf = []
  · subst empty
    exact ⟨rep, rfl⟩
  · have spec := write_spec rep empty
    by_cases fits : s.m_position + buf.length ≤ (s.addCapacity buf.length).m_capacity
    · rw [if_pos fits] at spec
      obtain ⟨t, done, written⟩ := spec
      rw [done]
      exact ⟨written.rep, written.base.trans (addCapacity_grown rep _).base⟩
    · rw [if_neg fits] at spec
      rw [spec]
      intro thrown
      cases thrown

theorem keeps_read (size : Nat) : Keeps (read size) := by
  intro s rep
  rw [read_eq rep]
  by_cases long : s.m_size - s.m_position < size
  · rw [if_pos long]
    exact fun _ => ⟨rep, rfl⟩
  · rw [if_neg long]
    by_cases full : s.m_position = s.m_capacity
    · rw [if_pos full]
      intro thrown
      cases thrown
    · rw [if_neg full]
      exact ⟨read_rep rep long, rfl⟩

theorem keeps_setPosition (v : Nat) : Keeps (setPosition v) := by
  intro s rep
  rw [setPosition_eq rep]
  by_cases past : s.m_capacity < v
  · rw [if_pos past]
    exact fun _ => ⟨rep, rfl⟩
  · rw [if_neg past]
    exact ⟨setPosition_rep rep past, rfl⟩

theorem reads_readAt (size position : Nat) : Reads (readAt size position) := by
  intro s
  unfold readAt
  split
  · exact Or.inr ⟨_, rfl⟩
  · split
    · exact Or.inr ⟨_, rfl⟩
    · split
      · exact Or.inr ⟨_, rfl⟩
      · exact Or.inl ⟨_, rfl⟩

theorem reads_toString : Reads toString := by
  intro s
  unfold toString
  split
  · exact Or.inl ⟨_, rfl⟩
  · exact reads_readAt _ _ s

theorem reads_getReadBuffers (buffers : List IoVec) (len : Nat) :
    Reads (getReadBuffers buffers len) := by
  intro s
  unfold getReadBuffers
  dsimp only
  generalize (if len > s.getReadSize then s.getReadSize else len) = clamped
  split
  · exact Or.inl ⟨_, rfl⟩
  · split
    · exact Or.inr ⟨_, rfl⟩
    · split
      · exact Or.inr ⟨_, rfl⟩
      · exact Or.inl ⟨_, rfl⟩

theorem reads_getReadBuffersAt (buffers : List IoVec) (len position : Nat) :
    Reads (getReadBuffersAt buffers len position) := by
  intro s
  unfold getReadBuffersAt
  dsimp only
  generalize (if len > s.getReadSize then s.getReadSize else len) = clamped
  split
  · exact Or.inl ⟨_, rfl⟩
  · split
    · split
      · exact Or.inr ⟨_, rfl⟩
      · exact Or.inl ⟨_, rfl⟩
    · exact Or.inr ⟨_, rfl⟩

theorem reads_writeToFile (opens : Bool) : Reads (writeToFile opens) := by
  intro s
  unfold writeToFile
  split
  · dsimp only
    split
    · exact Or.inr ⟨_, rfl⟩
    · exact Or.inl ⟨_, rfl⟩
  · exact Or.inl ⟨_, rfl⟩

theorem keeps_getWriteBuffers (buffers : List IoVec) (len : Nat) :
    Keeps (getWriteBuffers buffers len) := by
  intro s rep
  have grown := addCapacity_grown rep len
  unfold getWriteBuffers
  dsimp only
  split
  · exact ⟨rep, rfl⟩
  · split
    · intro thrown
      cases thrown
    · split
      · intro thrown
        cases thrown
      · exact ⟨grown.rep, grown.base⟩

/-- The accesses that the others are made of keep the invariant. -/
structure Primitives (I : ByteArray → Prop) : Prop where
  setIsLittleEndian : ∀ val, Preserves I (ByteArray.setIsLittleEndian val)
  clear : Preserves I ByteArray.clear
  write : ∀ buf, Preserves I (ByteArray.write buf)
  read : ∀ size, Preserves I (ByteArray.read size)
  setPosition : ∀ v, Preserves I (ByteArray.setPosition v)
  getWriteBuffers : ∀ buffers len, Preserves I (ByteArray.getWriteBuffers buffers len)

theorem keeps_primitives (base_size : Nat) :
    Primitives fun s => Rep s ∧ s.m_baseSize = base_size where
  setIsLittleEndian val := (keeps_setIsLittleEndian val).preserves base_size
  clear := keeps_clear.preserves base_size
  write buf := (keeps_write buf).preserves base_size
  read size := (keeps_read size).preserves base_size
  setPosition v := (keeps_setPosition v).preserves base_size
  getWriteBuffers buffers len := (keeps_getWriteBuffers buffers len).preserves base_size

namespace Primitives

variable {I : ByteArray → Prop} (kept : Primitives I)

include kept

theorem readFromFileLoop (rounds : Nat) (file : List UInt8) :
    Preserves I (ByteArray.readFromFileLoop rounds file) := by
  induction rounds generalizing file with
  | zero => exact preserves_pure ()
  | succ rounds ih =>
      intro s holds
      have chunk := kept.write (file.take s.m_baseSize) s holds
      unfold ByteArray.readFromFileLoop
      dsimp only
      cases done : ByteArray.write (file.take s.m_baseSize) s with
      | error e t =>
          rw [done] at chunk
          exact chunk
      | ok a t =>
          rw [done] at chunk
          simp only
          by_cases short : (file.take s.m_baseSize).length < s.m_baseSize
          · rw [if_pos short]
            exact chunk
          · rw [if_neg short]
            exact ih _ t chunk

theorem readFromFile (file : Option (List UInt8)) : Preserves I (ByteArray.readFromFile file) := by
  cases file with
  | none => exact preserves_pure false
  | some file => exact (kept.readFromFileLoop _ file).bind fun _ => preserves_pure true

/-! ### Typed formats -/

theorem writeFixed (n value : Nat) : Preserves I (ByteArray.writeFixed n value) :=
  fun s holds => kept.write _ s holds

theorem readFixed (n : Nat) : Preserves I (ByteArray.readFixed n) := by
  unfold ByteArray.readFixed
  refine ((kept.read n).map fromBytes).bind fun v => preserves_get.bind fun s => ?_
  split
  · exact preserves_pure v
  · exact preserves_pure _

theorem readFuint8 : Preserves I ByteArray.readFuint8 := (kept.read 1).map _

theorem readVarint (w : Nat) (shifts : List Nat) (result : BitVec w) :
    Preserves I (ByteArray.readVarint w shifts result) := by
  induction shifts generalizing result with
  | nil => exact preserves_pure result
  | cons i shifts ih =>
      unfold ByteArray.readVarint
      refine kept.readFuint8.bind fun b => ?_
      split
      · exact preserves_pure _
      · exact ih _

theorem readResized (len : Nat) : Preserves I (ByteArray.readResized len) := by
  intro s holds
  unfold ByteArray.readResized
  by_cases long : len > stringMaxSize
  · rw [if_pos long]
    exact fun _ => holds
  · rw [if_neg long]
    exact kept.read len s holds

end Primitives

/-! ### Calls -/

/-- A call of a public operation that has an effect or can fail. -/
inductive Call
  | setIsLittleEndian (val : Bool)
  | clear
  | write (buf : List UInt8)
  | read (size : Nat)
  | readAt (size position : Nat)
  | setPosition (v : Nat)
  | toString
  | toHexString
  | getReadBuffers (len : Nat)
  | getReadBuffersAt (len position : Nat)
  | getWriteBuffers (len : Nat)
  | writeToFile (opens : Bool)
  | readFromFile (file : Option (List UInt8))
  | writeFint8 (value : BitVec 8)
  | writeFuint8 (value : BitVec 8)
  | writeFint16 (value : BitVec 16)
  | writeFuint16 (value : BitVec 16)
  | writeFint32 (value : BitVec 32)
  | writeFuint32 (value : BitVec 32)
  | writeFint64 (value : BitVec 64)
  | writeFuint64 (value : BitVec 64)
  | writeInt32 (value : BitVec 32)
  | writeUint32 (value : BitVec 32)
  | writeInt64 (value : BitVec 64)
  | writeUint64 (value : BitVec 64)
  | writeFloat (value : BitVec 32)
  | writeDouble (value : BitVec 64)
  | writeStringF16 (value : List UInt8)
  | writeStringF32 (value : List UInt8)
  | writeStringF64 (value : List UInt8)
  | writeStringVint (value : List UInt8)
  | writeStringWithoutLength (value : List UInt8)
  | readFint8
  | readFuint8
  | readFint16
  | readFuint16
  | readFint32
  | readFuint32
  | readFint64
  | readFuint64
  | readInt32
  | readUint32
  | readInt64
  | readUint64
  | readFloat
  | readDouble
  | readStringF16
  | readStringF32
  | readStringF64
  | readStringVint
  deriving DecidableEq, Repr

/-- The operation a call runs, its value dropped. -/
def Call.exec : Call → Op Unit
  | .setIsLittleEndian val => ByteArray.setIsLittleEndian val
  | .clear => ByteArray.clear
  | .write buf => ByteArray.write buf
  | .read size => discard (ByteArray.read size)
  | .readAt size position => discard (ByteArray.readAt size position)
  | .setPosition v => ByteArray.setPosition v
  | .toString => discard ByteArray.toString
  | .toHexString => discard ByteArray.toHexString
  | .getReadBuffers len => discard (ByteArray.getReadBuffers [] len)
  | .getReadBuffersAt len position => discard (ByteArray.getReadBuffersAt [] len position)
  | .getWriteBuffers len => discard (ByteArray.getWriteBuffers [] len)
  | .writeToFile opens => discard (ByteArray.writeToFile opens)
  | .readFromFile file => discard (ByteArray.readFromFile file)
  | .writeFint8 value => ByteArray.writeFint8 value
  | .writeFuint8 value => ByteArray.writeFuint8 value
  | .writeFint16 value => ByteArray.writeFint16 value
  | .writeFuint16 value => ByteArray.writeFuint16 value
  | .writeFint32 value => ByteArray.writeFint32 value
  | .writeFuint32 value => ByteArray.writeFuint32 value
  | .writeFint64 value => ByteArray.writeFint64 value
  | .writeFuint64 value => ByteArray.writeFuint64 value
  | .writeInt32 value => ByteArray.writeInt32 value
  | .writeUint32 value => ByteArray.writeUint32 value
  | .writeInt64 value => ByteArray.writeInt64 value
  | .writeUint64 value => ByteArray.writeUint64 value
  | .writeFloat value => ByteArray.writeFloat value
  | .writeDouble value => ByteArray.writeDouble value
  | .writeStringF16 value => ByteArray.writeStringF16 value
  | .writeStringF32 value => ByteArray.writeStringF32 value
  | .writeStringF64 value => ByteArray.writeStringF64 value
  | .writeStringVint value => ByteArray.writeStringVint value
  | .writeStringWithoutLength value => ByteArray.writeStringWithoutLength value
  | .readFint8 => discard ByteArray.readFint8
  | .readFuint8 => discard ByteArray.readFuint8
  | .readFint16 => discard ByteArray.readFint16
  | .readFuint16 => discard ByteArray.readFuint16
  | .readFint32 => discard ByteArray.readFint32
  | .readFuint32 => discard ByteArray.readFuint32
  | .readFint64 => discard ByteArray.readFint64
  | .readFuint64 => discard ByteArray.readFuint64
  | .readInt32 => discard ByteArray.readInt32
  | .readUint32 => discard ByteArray.readUint32
  | .readInt64 => discard ByteArray.readInt64
  | .readUint64 => discard ByteArray.readUint64
  | .readFloat => discard ByteArray.readFloat
  | .readDouble => discard ByteArray.readDouble
  | .readStringF16 => discard ByteArray.readStringF16
  | .readStringF32 => discard ByteArray.readStringF32
  | .readStringF64 => discard ByteArray.readStringF64
  | .readStringVint => discard ByteArray.readStringVint

/-- One call that runs to completion, with the exception it threw, if any. -/
def Call.step : Transition.Step ByteArray Call (Option Fault) := fun s call =>
  match call.exec s with
  | .ok _ t => some (none, t)
  | .error e t => if e.isException then some (some e, t) else none

/-- What the accesses keep, every call keeps. -/
theorem Call.exec_preserves {I : ByteArray → Prop} (kept : Primitives I) (call : Call) :
    Preserves I call.exec := by
  cases call with
  | setIsLittleEndian val => exact kept.setIsLittleEndian val
  | clear => exact kept.clear
  | write buf => exact kept.write buf
  | setPosition v => exact kept.setPosition v
  | read size => exact (kept.read size).map _
  | readAt size position => exact (reads_readAt size position).preserves.map _
  | toString => exact reads_toString.preserves.map _
  | toHexString => exact (reads_toString.preserves.map _).map _
  | getReadBuffers len => exact (reads_getReadBuffers [] len).preserves.map _
  | getReadBuffersAt len position =>
      exact (reads_getReadBuffersAt [] len position).preserves.map _
  | getWriteBuffers len => exact (kept.getWriteBuffers [] len).map _
  | writeToFile opens => exact (reads_writeToFile opens).preserves.map _
  | readFromFile file => exact (kept.readFromFile file).map _
  | writeFint8 value | writeFuint8 value => exact kept.write (toBytes 1 value.toNat)
  | writeFint16 value | writeFuint16 value => exact kept.writeFixed 2 value.toNat
  | writeFint32 value | writeFuint32 value | writeFloat value =>
      exact kept.writeFixed 4 value.toNat
  | writeFint64 value | writeFuint64 value | writeDouble value =>
      exact kept.writeFixed 8 value.toNat
  | writeInt32 | writeUint32 | writeInt64 | writeUint64 => exact kept.write _
  | writeStringWithoutLength value => exact kept.write value
  | writeStringF16 value | writeStringF32 value | writeStringF64 value =>
      exact (kept.writeFixed _ _).bind fun _ => kept.write value
  | writeStringVint value => exact (kept.write _).bind fun _ => kept.write value
  | readFint8 | readFuint8 => exact kept.readFuint8.map _
  | readFint16 | readFuint16 | readFint32 | readFuint32 | readFint64 | readFuint64
  | readFloat | readDouble => exact ((kept.readFixed _).map _).map _
  | readUint32 | readUint64 => exact (kept.readVarint _ _ _).map _
  | readInt32 | readInt64 => exact ((kept.readVarint _ _ _).map _).map _
  | readStringF16 | readStringF32 | readStringF64 =>
      exact (((kept.readFixed _).map _).bind fun _ => kept.readResized _).map _
  | readStringVint => exact ((kept.readVarint _ _ _).bind fun _ => kept.readResized _).map _

theorem Call.step_preserves {I : ByteArray → Prop} (kept : Primitives I) {s t : ByteArray}
    {call : Call} {thrown : Option Fault} (holds : I s) (done : call.step s = some (thrown, t)) :
    I t := by
  have after := call.exec_preserves kept s holds
  unfold Call.step at done
  cases result : call.exec s with
  | ok a u =>
      rw [result] at after done
      cases done
      exact after
  | error e u =>
      rw [result] at after done
      simp only at done
      split at done
      · rename_i exception
        cases done
        exact after exception
      · cases done

/-- States that completed calls on a fresh array leave, whatever the allocator's memory
held. -/
def Reached (base_size : Nat) (s : ByteArray) : Prop :=
  ∃ heap, Transition.Reachable Call.step (new base_size heap) s

theorem Reached.invariant {I : ByteArray → Prop} (kept : Primitives I) {base_size : Nat}
    (fresh : ∀ heap, I (new base_size heap)) {s : ByteArray} (reached : Reached base_size s) :
    I s := by
  obtain ⟨heap, calls⟩ := reached
  have keep : ∀ t call thrown u, I t → Call.step t call = some (thrown, u) → I u :=
    fun t call thrown u holds done => Call.step_preserves kept holds done
  exact Transition.Reachable.invariant keep (fresh heap) calls

theorem Reached.rep {base_size : Nat} (positive : 0 < base_size) {s : ByteArray}
    (reached : Reached base_size s) : Rep s ∧ s.m_baseSize = base_size :=
  reached.invariant (keeps_primitives base_size) fun heap => ⟨new_rep positive heap, rfl⟩

/-- The chain, the three counters and the cached pointer fit together. -/
structure WellFormed (base_size : Nat) (s : ByteArray) : Prop where
  multiple : base_size ∣ s.m_capacity
  count : s.m_root.length = s.m_capacity / base_size
  blocks : ∀ node ∈ s.m_root, node.size = base_size
  position_le : s.m_position ≤ s.m_size
  size_le : s.m_size ≤ s.m_capacity
  cur : ∀ i, s.m_cur = some i → i = s.m_position / base_size ∧ i < s.m_root.length
  null_iff : s.m_cur = none ↔ s.m_position = s.m_capacity

theorem reached_wellFormed {base_size : Nat} (positive : 0 < base_size) {s : ByteArray}
    (reached : Reached base_size s) : WellFormed base_size s := by
  obtain ⟨rep, rfl⟩ := reached.rep positive
  refine ⟨⟨_, rep.capacity.trans (Nat.mul_comm _ _)⟩, ?_, ?_, rep.position_le, rep.size_le, ?_, ?_⟩
  · rw [rep.capacity, Nat.mul_div_cancel _ positive]
  · intro node member
    exact rep.chain node.ptr (List.mem_map.mpr ⟨node, member, rfl⟩)
  · intro i pointer
    rw [rep.cur, nodePtr] at pointer
    split at pointer
    · rename_i inside
      cases pointer
      exact ⟨rfl, inside⟩
    · cases pointer
  · constructor
    · intro null
      by_contra left
      have room := rep.position_le_capacity
      rw [rep.cur_of_lt (by omega)] at null
      cases null
    · exact rep.cur_of_full

/-- A full block, a read that throws at its end, and a position inside. -/
theorem reached_wellFormed_four :
    ∃ s, Reached 4 s ∧ s.m_position = 3 ∧ WellFormed 4 s := by
  have reached : ∃ s, Reached 4 s ∧ s.m_position = 3 :=
    ⟨_, ⟨fun _ => 0, [.write [1, 2, 3, 4], .readFuint8, .setPosition 3], _, rfl⟩, rfl⟩
  obtain ⟨s, calls, position⟩ := reached
  exact ⟨s, calls, position, reached_wellFormed (by decide) calls⟩

end ByteArray

end CorReactor
