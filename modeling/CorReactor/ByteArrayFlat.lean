import CorReactor.ByteArrayInvariant
import CorReactor.Transition

set_option autoImplicit false

/-! A `ByteArray` of any block size behaves as one flat buffer. -/

namespace CorReactor.ByteArray

open Blocks

/-- One contiguous byte buffer with a position inside it. -/
structure Flat where
  data : List UInt8
  pos : Nat
  inside : pos ≤ data.length

namespace Flat

def empty : Flat := ⟨[], 0, Nat.le_refl 0⟩

/-- Overwrite from the position on, extending the buffer at its end. -/
def write (f : Flat) (buf : List UInt8) : Flat where
  data := splice f.data f.pos buf
  pos := f.pos + buf.length
  inside := by
    rw [length_splice _ _ _ f.inside]
    exact Nat.le_max_right _ _

/-- Bytes outside the written range never change. -/
theorem write_frame (f : Flat) (buf : List UInt8) (i : Nat)
    (outside : i < f.pos ∨ f.pos + buf.length ≤ i) : (f.write buf).data[i]? = f.data[i]? :=
  getElem?_splice_of_outside f.data f.pos buf f.inside outside

theorem write_drop (f : Flat) (buf : List UInt8) :
    (f.write buf).data.drop f.pos = buf ++ f.data.drop (f.pos + buf.length) := by
  have front : (f.data.take f.pos).length = f.pos := List.length_take_of_le f.inside
  change (f.data.take f.pos ++ buf ++ f.data.drop (f.pos + buf.length)).drop f.pos = _
  rw [List.append_assoc, List.drop_left' front]

theorem write_range (f : Flat) (buf : List UInt8) :
    ((f.write buf).data.drop f.pos).take buf.length = buf := by
  rw [write_drop, List.take_left]

theorem empty_write (buf : List UInt8) : (empty.write buf).data = buf := by
  change splice [] 0 buf = buf
  rw [splice, List.take_nil, List.drop_nil, List.nil_append, List.append_nil]

end Flat

/-- The calls of the raw byte interface. -/
inductive Access
  | write (buf : List UInt8)
  | read (size : Nat)
  | setPosition (v : Nat)
  | clear
  | toString
  deriving DecidableEq, Repr

/-- What the caller sees of a call: the bytes returned or the exception thrown, then
`getPosition()` and `getSize()`. -/
structure Seen where
  result : Except Fault (List UInt8)
  position : Nat
  size : Nat

def Access.exec : Access → Op (List UInt8)
  | .write buf => (fun _ => []) <$> ByteArray.write buf
  | .read size => ByteArray.read size
  | .setPosition v => (fun _ => []) <$> ByteArray.setPosition v
  | .clear => (fun _ => []) <$> ByteArray.clear
  | .toString => ByteArray.toString

/-- A call that completes without following a null node. -/
def Access.step : Transition.Step ByteArray Access Seen := fun s access =>
  match access.exec s with
  | .ok bytes t => some (⟨.ok bytes, t.getPosition, t.getSize⟩, t)
  | .error .outOfRange t => some (⟨.error .outOfRange, t.getPosition, t.getSize⟩, t)
  | .error _ _ => none

/-- Positions are set within the size only. -/
def Access.Within (s : ByteArray) : Access → Prop
  | .setPosition v => v ≤ s.getSize
  | _ => True

/-- The same interface on the flat buffer. A position outside it is not part of the
interface. -/
def Flat.step : Transition.Step Flat Access Seen := fun f access =>
  match access with
  | .write buf => some (⟨.ok [], (f.write buf).pos, (f.write buf).data.length⟩, f.write buf)
  | .read size =>
      if h : size ≤ f.data.length - f.pos then
        have inside : f.pos + size ≤ f.data.length := by
          have := f.inside
          omega
        some (⟨.ok ((f.data.drop f.pos).take size), f.pos + size, f.data.length⟩,
          ⟨f.data, f.pos + size, inside⟩)
      else some (⟨.error .outOfRange, f.pos, f.data.length⟩, f)
  | .setPosition v =>
      if h : v ≤ f.data.length then some (⟨.ok [], v, f.data.length⟩, ⟨f.data, v, h⟩) else none
  | .clear => some (⟨.ok [], 0, 0⟩, Flat.empty)
  | .toString => some (⟨.ok (f.data.drop f.pos), f.pos, f.data.length⟩, f)

/-- The flat buffer that a well-formed block chain stands for. -/
structure Represents (s : ByteArray) (f : Flat) : Prop where
  rep : Rep s
  position : s.m_position = f.pos
  data : s.content.take s.m_size = f.data

/-- `write` itself throws nothing. -/
theorem write_no_throw (buf : List UInt8) (s : ByteArray) (e : Fault) (t : ByteArray)
    (failed : ByteArray.write buf s = .error e t) : e = .nullNode := by
  unfold ByteArray.write at failed
  split at failed
  · cases failed
  · dsimp only at failed
    split at failed
    · cases failed
      rfl
    · split at failed
      · cases failed
        rfl
      · cases failed

namespace Represents

variable {s : ByteArray} {f : Flat}

theorem size (rel : Represents s f) : s.m_size = f.data.length := by
  have bound := rel.rep.size_le
  rw [← rel.data, List.length_take, rel.rep.content_length]
  omega

theorem new {base_size : Nat} (positive : 0 < base_size) (heap : Nat → UInt8) :
    Represents (ByteArray.new base_size heap) Flat.empty :=
  ⟨new_rep positive heap, rfl, List.take_zero⟩

theorem toString_eq (rel : Represents s f) :
    ByteArray.toString s = .ok (f.data.drop f.pos) s := by
  rw [ByteArray.toString_eq rel.rep, rel.data, rel.position]

theorem rewind (rel : Represents s f) :
    ∃ t, ByteArray.setPosition 0 s = .ok () t ∧ Represents t ⟨f.data, 0, Nat.zero_le _⟩ := by
  refine ⟨_, ?_, setPosition_rep rel.rep (Nat.not_lt_zero _), rfl, ?_⟩
  · rw [setPosition_eq rel.rep, if_neg (Nat.not_lt_zero _)]
  · rw [Nat.max_zero]
    exact rel.data

/-- What is read of the chain within the size is read of the flat buffer. -/
theorem slice (rel : Represents s f) {count : Nat} (enough : count ≤ s.m_size - s.m_position) :
    (s.content.drop s.m_position).take count = (f.data.drop f.pos).take count := by
  rw [← rel.data, ← rel.position, List.drop_take, List.take_take, min_eq_left enough]

theorem write_sim (rel : Represents s f) {buf : List UInt8} {t : ByteArray}
    (done : ByteArray.write buf s = .ok () t) : Represents t (f.write buf) := by
  by_cases empty : buf = []
  · subst empty
    have same : s = t := by
      have skipped : ByteArray.write [] s = .ok () s := rfl
      rw [skipped] at done
      cases done
      rfl
    subst same
    refine ⟨rel.rep, rel.position, ?_⟩
    change _ = splice f.data f.pos []
    rw [splice_nil, rel.data]
  · have spec := write_spec rel.rep empty
    by_cases fits : s.m_position + buf.length ≤ (s.addCapacity buf.length).m_capacity
    · rw [if_pos fits] at spec
      obtain ⟨u, same, written⟩ := spec
      rw [same] at done
      cases done
      have grown := addCapacity_grown rel.rep buf.length
      have bound := rel.rep.size_le
      have kept : (s.addCapacity buf.length).content.take s.m_size = f.data := by
        rw [← rel.data, ← grown.content_take rel.rep, List.take_take, min_eq_left bound]
      refine ⟨written.rep, ?_, ?_⟩
      · change t.m_position = f.pos + buf.length
        rw [written.position, grown.position, rel.position]
      · change _ = splice f.data f.pos buf
        rw [written.content, written.size, grown.position, grown.size,
          take_splice _ _ _ _ rel.rep.position_le
            (by rw [grown.rep.content_length, grown.capacity]; omega),
          kept, rel.position]
    · rw [if_neg fits] at spec
      rw [spec] at done
      cases done

end Represents

/-- One completed call does to the flat buffer what it does to the chain, and the
caller sees the same. -/
theorem Access.step_sim (s : ByteArray) (f : Flat) (access : Access) (seen : Seen)
    (t : ByteArray) (rel : Represents s f) (within : access.Within s)
    (done : access.step s = some (seen, t)) :
    ∃ g, Flat.step f access = some (seen, g) ∧ Represents t g := by
  have position := rel.position
  have size := rel.size
  unfold Access.step Access.exec at done
  cases access with
  | write buf =>
      simp only [Op.map_apply] at done
      cases written : ByteArray.write buf s with
      | ok _ u =>
          simp only [written] at done
          cases done
          have next := rel.write_sim written
          refine ⟨f.write buf, ?_, next⟩
          simp only [Flat.step, getPosition, getSize, next.position, next.size]
      | error e u =>
          simp only [written] at done
          have grown := ByteArray.write_no_throw buf s e u written
          rw [grown] at done
          cases done
  | read count =>
      simp only [read_eq rel.rep] at done
      by_cases long : s.m_size - s.m_position < count
      · simp only [long, ↓reduceIte] at done
        cases done
        refine ⟨f, ?_, rel⟩
        have past : ¬ count ≤ f.data.length - f.pos := by omega
        simp only [Flat.step, past, ↓reduceDIte, getPosition, getSize, position, size]
      · rw [if_neg long] at done
        by_cases full : s.m_position = s.m_capacity
        · rw [if_pos full] at done
          cases done
        · rw [if_neg full] at done
          cases done
          have enough : count ≤ f.data.length - f.pos := by omega
          have inside : f.pos + count ≤ f.data.length := by
            have := f.inside
            omega
          refine ⟨⟨f.data, f.pos + count, inside⟩, ?_, ⟨read_rep rel.rep long, ?_, rel.data⟩⟩
          · simp only [Flat.step, enough, ↓reduceDIte, getPosition, getSize]
            rw [rel.slice (by omega), position, size]
          · simp only [position]
  | setPosition v =>
      have inside : v ≤ s.m_size := within
      have room : ¬ s.m_capacity < v := by
        have := rel.rep.size_le
        omega
      simp only [Op.map_apply, setPosition_eq rel.rep, room, ↓reduceIte] at done
      cases done
      have fits : v ≤ f.data.length := by omega
      refine ⟨⟨f.data, v, fits⟩, ?_, ⟨setPosition_rep rel.rep room, rfl, ?_⟩⟩
      · simp only [Flat.step, fits, ↓reduceDIte, getPosition, getSize, max_eq_left inside]
        rw [size]
      · simp only [max_eq_left inside]
        exact rel.data
  | clear =>
      simp only [Op.map_apply, ByteArray.clear] at done
      cases done
      exact ⟨Flat.empty, rfl, ⟨clear_rep rel.rep, rfl, List.take_zero⟩⟩
  | toString =>
      simp only [toString_eq rel.rep] at done
      cases done
      refine ⟨f, ?_, rel⟩
      simp only [Flat.step, getPosition, getSize, rel.data]
      rw [position, size]

/-- A run that completes is a run of the flat buffer with the same results. -/
theorem run_represents {base_size : Nat} (positive : 0 < base_size) (heap : Nat → UInt8)
    {accesses : List Access} {seen : List Seen} {s : ByteArray}
    (within : Transition.Along Access.step Access.Within (new base_size heap) accesses)
    (done : Transition.run Access.step (new base_size heap) accesses = some (seen, s)) :
    ∃ f, Transition.run Flat.step Flat.empty accesses = some (seen, f) ∧ Represents s f :=
  Transition.run_simulates Access.step_sim (Represents.new positive heap) within done

/-- Where the flat buffer's run completes, a chain that stands for it sets positions
within its size only. -/
theorem within_of_flat {accesses : List Access} {s : ByteArray} {f g : Flat} {seen : List Seen}
    (rel : Represents s f) (done : Transition.run Flat.step f accesses = some (seen, g)) :
    Transition.Along Access.step Access.Within s accesses := by
  induction accesses generalizing s f seen with
  | nil => trivial
  | cons access rest ih =>
      obtain ⟨o, f', tail, first, after, -⟩ :=
        (Transition.run_cons_iff Flat.step f g access rest seen).mp done
      have within : access.Within s := by
        cases access with
        | setPosition v =>
            by_cases fits : v ≤ f.data.length
            · exact (rel.size.symm ▸ fits : v ≤ s.m_size)
            · simp only [Flat.step, fits, ↓reduceDIte] at first
              cases first
        | write | read | clear | toString => trivial
      refine ⟨within, fun o' t taken => ?_⟩
      obtain ⟨f'', matched, next⟩ := Access.step_sim s f access o' t rel within taken
      rw [first] at matched
      cases matched
      exact ih next after

/-- Two arrays of any block sizes, with any allocator memory, on which the calls
complete, show the caller the same: what the flat buffer shows. -/
theorem run_flat {base_size base_size' : Nat} (positive : 0 < base_size)
    (positive' : 0 < base_size') (heap heap' : Nat → UInt8) {accesses : List Access}
    {seen seen' : List Seen} {s s' : ByteArray}
    (within : Transition.Along Access.step Access.Within (new base_size heap) accesses)
    (done : Transition.run Access.step (new base_size heap) accesses = some (seen, s))
    (done' : Transition.run Access.step (new base_size' heap') accesses = some (seen', s')) :
    seen = seen' ∧ ∃ f, Transition.run Flat.step Flat.empty accesses = some (seen, f) := by
  obtain ⟨f, flat, -⟩ := run_represents positive heap within done
  have within' := within_of_flat (Represents.new positive' heap') flat
  obtain ⟨f', flat', -⟩ := run_represents positive' heap' within' done'
  rw [flat] at flat'
  cases flat'
  exact ⟨rfl, f, flat⟩

/-- Two bytes in blocks of four and of two, reread from the middle and past the end. -/
theorem run_flat_four_two :
    ∃ seen s s', seen.length = 4 ∧
      Transition.run Access.step (new 4 fun _ => 0)
        [.write [1, 2], .setPosition 1, .read 1, .read 5] = some (seen, s) ∧
      Transition.run Access.step (new 2 fun _ => 7)
        [.write [1, 2], .setPosition 1, .read 1, .read 5] = some (seen, s') ∧
      ∃ f, Transition.run Flat.step Flat.empty
        [.write [1, 2], .setPosition 1, .read 1, .read 5] = some (seen, f) := by
  have within : Transition.Along Access.step Access.Within (new 4 fun _ => 0)
      [.write [1, 2], .setPosition 1, .read 1, .read 5] :=
    within_of_flat (Represents.new (by decide) _) rfl
  have four : 0 < 4 := by decide
  have two : 0 < 2 := by decide
  have same := run_flat four two (fun _ => 0) (fun _ => 7) within rfl rfl
  exact ⟨_, _, _, rfl, rfl, rfl, same.2⟩

end CorReactor.ByteArray
