import CorReactor.ByteArray
import CorReactor.Blocks

set_option autoImplicit false

/-! What the copy loops compute, in terms of the bytes of the chain laid end to end. -/

namespace CorReactor.ByteArray

open Blocks

/-- The bytes of a chain, first block first. -/
def bytes (nodes : List Node) : List UInt8 := (nodes.map Node.ptr).flatten

/-- Every block of the chain has `width` bytes. -/
def Chain (width : Nat) (nodes : List Node) : Prop := Uniform width (nodes.map Node.ptr)

@[simp] theorem bytes_nil : bytes [] = [] := rfl

@[simp] theorem bytes_cons (node : Node) (rest : List Node) :
    bytes (node :: rest) = node.ptr ++ bytes rest := by
  simp only [bytes, List.map_cons, List.flatten_cons]

theorem bytes_append (front back : List Node) :
    bytes (front ++ back) = bytes front ++ bytes back := by
  simp only [bytes, List.map_append, List.flatten_append]

@[simp] theorem chain_nil (width : Nat) : Chain width [] := uniform_nil width

@[simp] theorem chain_cons (width : Nat) (node : Node) (rest : List Node) :
    Chain width (node :: rest) ↔ node.size = width ∧ Chain width rest :=
  uniform_cons width node.ptr (rest.map Node.ptr)

theorem chain_append (width : Nat) (front back : List Node) :
    Chain width (front ++ back) ↔ Chain width front ∧ Chain width back := by
  simp only [Chain, List.map_append, uniform_append]

theorem Chain.take {width : Nat} {nodes : List Node} (chain : Chain width nodes) (count : Nat) :
    Chain width (nodes.take count) := by
  simpa only [Chain, List.map_take] using Uniform.take chain count

theorem Chain.drop {width : Nat} {nodes : List Node} (chain : Chain width nodes) (count : Nat) :
    Chain width (nodes.drop count) := by
  simpa only [Chain, List.map_drop] using Uniform.drop chain count

theorem Chain.bytes_length {width : Nat} {nodes : List Node} (chain : Chain width nodes) :
    (bytes nodes).length = nodes.length * width := by
  simpa only [bytes, List.length_map] using Uniform.length_flatten chain

theorem Chain.bytes_drop {width : Nat} {nodes : List Node} (chain : Chain width nodes)
    (count : Nat) : bytes (nodes.drop count) = (bytes nodes).drop (count * width) := by
  simpa only [bytes, List.map_drop] using (Uniform.drop_flatten chain count).symm

@[simp] theorem new_size (size : Nat) (heap : Nat → UInt8) : (Node.new size heap).size = size := by
  simp only [Node.new, Node.size, List.length_map, List.length_range]

theorem memcpy_ptr (node : Node) (npos : Nat) (buf : List UInt8) :
    (node.memcpy npos buf).ptr = splice node.ptr npos buf := rfl

/-- Passing the end of a block takes one block off the quotient. -/
theorem div_past {width n : Nat} (positive : 0 < width) (past : width ≤ n) :
    n / width = (n - width) / width + 1 :=
  Nat.div_eq_sub_div positive past

/-- The number of blocks passed when the range ends inside or at the end of a block. -/
theorem div_within {width n : Nat} (positive : 0 < width) (within : n ≤ width) :
    n / width = if width = n then 1 else 0 := by
  split
  · rename_i exactly
    rw [← exactly, Nat.div_self positive]
  · exact Nat.div_eq_of_lt (by omega)

theorem copyOut_eq {width : Nat} {nodes : List Node} (chain : Chain width nodes)
    {npos : Nat} (inside : npos < width) (size : Nat) :
    copyOut nodes npos size =
      if size = 0 ∨ npos + size ≤ (bytes nodes).length then
        some (((bytes nodes).drop npos).take size, (npos + size) / width)
      else none := by
  induction nodes generalizing npos size with
  | nil =>
      cases size with
      | zero => simp [copyOut, Nat.div_eq_of_lt inside]
      | succ size => simp [copyOut]
  | cons node rest ih =>
      obtain ⟨head, tail⟩ := (chain_cons width node rest).mp chain
      have length : node.ptr.length = width := head
      cases size with
      | zero => simp [copyOut, Nat.div_eq_of_lt inside]
      | succ size =>
          by_cases within : size + 1 ≤ width - npos
          · have fits : npos + (size + 1) ≤ (bytes (node :: rest)).length := by
              rw [bytes_cons, List.length_append, length]
              omega
            have copied : ((bytes (node :: rest)).drop npos).take (size + 1) =
                (node.ptr.drop npos).take (size + 1) := by
              rw [bytes_cons, List.drop_append_of_le_length (by omega),
                List.take_append_of_le_length (by rw [List.length_drop]; omega)]
            rw [if_pos (Or.inr fits), copied, div_within (by omega) (by omega)]
            simp only [copyOut, head, within, ↓reduceIte]
          · have past : width ≤ npos + (size + 1) := by omega
            have left : npos + (size + 1) - width = 0 + (size + 1 - (width - npos)) := by omega
            have bound : npos + (size + 1) ≤ (bytes (node :: rest)).length ↔
                0 + (size + 1 - (width - npos)) ≤ (bytes rest).length := by
              rw [bytes_cons, List.length_append, length]
              omega
            have more : ¬ (size + 1 = 0) := by omega
            have moreLeft : ¬ (size + 1 - (width - npos) = 0) := by omega
            have copied : ((bytes (node :: rest)).drop npos).take (size + 1) =
                (node.ptr.drop npos).take (width - npos) ++
                  ((bytes rest).drop 0).take (size + 1 - (width - npos)) := by
              rw [bytes_cons, List.drop_append_of_le_length (by omega), List.take_append,
                List.length_drop, length, List.drop_zero]
              congr 1
              rw [List.take_of_length_le (by rw [List.length_drop]; omega),
                List.take_of_length_le (by rw [List.length_drop]; omega)]
            simp only [copyOut, head, within, ↓reduceIte,
              ih tail (show 0 < width by omega), bound, more, moreLeft, false_or, copied,
              div_past (show 0 < width by omega) past, left]
            split <;> rfl

/-- A completed `copyIn` overwrites the range and keeps the blocks' sizes. -/
theorem copyIn_spec {width : Nat} {nodes : List Node} (chain : Chain width nodes)
    {npos : Nat} (inside : npos < width) (buf : List UInt8) :
    if buf = [] ∨ npos + buf.length ≤ (bytes nodes).length then
      ∃ out, copyIn nodes npos buf = some (out, (npos + buf.length) / width) ∧
        Chain width out ∧ out.length = nodes.length ∧
        bytes out = splice (bytes nodes) npos buf
    else copyIn nodes npos buf = none := by
  induction nodes generalizing npos buf with
  | nil =>
      cases buf with
      | nil => simp [copyIn, Nat.div_eq_of_lt inside]
      | cons b buf => simp [copyIn]
  | cons node rest ih =>
      obtain ⟨head, tail⟩ := (chain_cons width node rest).mp chain
      have length : node.ptr.length = width := head
      cases buf with
      | nil => simpa [copyIn, Nat.div_eq_of_lt inside] using And.intro head tail
      | cons b buf =>
          generalize written : b :: buf = data
          have some_data : data ≠ [] := by rw [← written]; exact List.cons_ne_nil b buf
          by_cases within : data.length ≤ width - npos
          · have fits : npos + data.length ≤ (bytes (node :: rest)).length := by
              rw [bytes_cons, List.length_append, length]
              omega
            have size : (node.memcpy npos data).size = width := by
              change (splice node.ptr npos data).length = width
              rw [length_splice_of_fits _ _ _ (by omega), length]
            rw [if_pos (Or.inr fits)]
            refine ⟨node.memcpy npos data :: rest, ?_, ?_, rfl, ?_⟩
            · rw [div_within (by omega) (by omega), ← written]
              simp only [copyIn, head, ge_iff_le]
              rw [if_pos (by rw [written]; exact within)]
            · exact (chain_cons _ _ _).mpr ⟨size, tail⟩
            · rw [bytes_cons, memcpy_ptr, bytes_cons, splice_append_left _ _ _ _ (by omega)]
          · have past : width ≤ npos + data.length := by omega
            have rounds : (0 + (data.drop (width - npos)).length) / width + 1 =
                (npos + data.length) / width := by
              rw [div_past (show 0 < width by omega) past, List.length_drop]
              congr 2
              omega
            have front : (data.take (width - npos)).length = width - npos := by
              rw [List.length_take]
              omega
            have size : (node.memcpy npos (data.take (width - npos))).size = width := by
              change (splice node.ptr npos (data.take (width - npos))).length = width
              rw [length_splice_of_fits _ _ _ (by omega), length]
            have bound : data = [] ∨ npos + data.length ≤ (bytes (node :: rest)).length ↔
                data.drop (width - npos) = [] ∨
                  0 + (data.drop (width - npos)).length ≤ (bytes rest).length := by
              rw [bytes_cons, List.length_append, length, List.length_drop,
                List.drop_eq_nil_iff]
              simp only [some_data, false_or]
              omega
            have loop : copyIn (node :: rest) npos data =
                (copyIn rest 0 (data.drop (width - npos))).map fun r =>
                  (node.memcpy npos (data.take (width - npos)) :: r.1, r.2 + 1) := by
              rw [← written]
              simp only [copyIn, head, ge_iff_le]
              rw [if_neg (by rw [written]; exact within)]
            have inner := ih tail (show 0 < width by omega) (data.drop (width - npos))
            by_cases room : data = [] ∨ npos + data.length ≤ (bytes (node :: rest)).length
            · rw [if_pos room]
              rw [if_pos (bound.mp room)] at inner
              obtain ⟨out, taken, chained, same, content⟩ := inner
              refine ⟨node.memcpy npos (data.take (width - npos)) :: out, ?_, ?_, ?_, ?_⟩
              · rw [loop, taken, Option.map_some, rounds]
              · exact (chain_cons _ _ _).mpr ⟨size, chained⟩
              · rw [List.length_cons, List.length_cons, same]
              · rw [bytes_cons, memcpy_ptr, content, bytes_cons,
                  splice_across _ _ _ _ (by omega) (by omega), length]
            · rw [if_neg room]
              rw [if_neg (fun fits => room (bound.mpr fits))] at inner
              rw [loop, inner, Option.map_none]

/-- `gather` follows a null node exactly when the range runs past the chain. -/
theorem gather_eq_none_iff {width : Nat} {nodes : List Node} (chain : Chain width nodes)
    {npos : Nat} (inside : npos < width) (cur len : Nat) :
    gather nodes cur npos len = none ↔ len ≠ 0 ∧ (bytes nodes).length < npos + len := by
  induction nodes generalizing npos cur len with
  | nil => cases len <;> simp [gather]
  | cons node rest ih =>
      obtain ⟨head, tail⟩ := (chain_cons width node rest).mp chain
      have length : node.ptr.length = width := head
      cases len with
      | zero => simp [gather]
      | succ len =>
          simp only [gather, head, bytes_cons, List.length_append, length]
          split
          · simp only [reduceCtorEq, false_iff]
            omega
          · simp only [Option.map_eq_none_iff, ih tail (show 0 < width by omega)]
            omega

/-- `setPosition` finds the block by the quotient, also at the end of a block. -/
theorem seek_eq {width : Nat} {nodes : List Node} (chain : Chain width nodes)
    (positive : 0 < width) (some_node : nodes ≠ []) (v : Nat) (bound : v ≤ (bytes nodes).length) :
    seek nodes v = some (v / width) := by
  induction nodes generalizing v with
  | nil => contradiction
  | cons node rest ih =>
      obtain ⟨head, tail⟩ := (chain_cons width node rest).mp chain
      have length : node.ptr.length = width := head
      rw [bytes_cons, List.length_append, length] at bound
      by_cases past : v > width
      · have more : rest ≠ [] := by
          rintro rfl
          simp only [bytes_nil, List.length_nil] at bound
          omega
        simp only [seek, head, past, ↓reduceIte]
        rw [ih tail more (v - width) (by omega), Option.map_some,
          div_past positive (show width ≤ v by omega)]
      · simp only [seek, head, past, ↓reduceIte]
        rw [div_within positive (show v ≤ width by omega)]
        simp only [eq_comm]

end CorReactor.ByteArray
