import Mathlib.Data.List.Basic
import Mathlib.Tactic.Ring

set_option autoImplicit false

/-! Lists cut into blocks of one width, and overwriting a range of a list. -/

namespace Blocks

variable {α : Type*}

/-- Every block holds `width` elements. -/
def Uniform (width : Nat) (blocks : List (List α)) : Prop :=
  ∀ block ∈ blocks, block.length = width

@[simp] theorem uniform_nil (width : Nat) : Uniform width ([] : List (List α)) := by
  intro block member
  cases member

@[simp] theorem uniform_cons (width : Nat) (block : List α) (rest : List (List α)) :
    Uniform width (block :: rest) ↔ block.length = width ∧ Uniform width rest := by
  simp only [Uniform, List.mem_cons, forall_eq_or_imp]

theorem uniform_append (width : Nat) (front back : List (List α)) :
    Uniform width (front ++ back) ↔ Uniform width front ∧ Uniform width back := by
  simp only [Uniform, List.mem_append]
  exact ⟨fun all => ⟨fun b h => all b (Or.inl h), fun b h => all b (Or.inr h)⟩,
    fun both b h => h.elim (both.1 b) (both.2 b)⟩

theorem Uniform.take {width : Nat} {blocks : List (List α)} (uniform : Uniform width blocks)
    (count : Nat) : Uniform width (blocks.take count) :=
  fun block member => uniform block (List.mem_of_mem_take member)

theorem Uniform.drop {width : Nat} {blocks : List (List α)} (uniform : Uniform width blocks)
    (count : Nat) : Uniform width (blocks.drop count) :=
  fun block member => uniform block (List.mem_of_mem_drop member)

theorem Uniform.length_flatten {width : Nat} {blocks : List (List α)}
    (uniform : Uniform width blocks) : blocks.flatten.length = blocks.length * width := by
  induction blocks with
  | nil => simp only [List.flatten_nil, List.length_nil, Nat.zero_mul]
  | cons block rest ih =>
      obtain ⟨head, tail⟩ := (uniform_cons width block rest).mp uniform
      rw [List.flatten_cons, List.length_append, ih tail, head, List.length_cons]
      ring

/-- Dropping whole blocks drops their elements. -/
theorem Uniform.drop_flatten {width : Nat} {blocks : List (List α)}
    (uniform : Uniform width blocks) (count : Nat) :
    blocks.flatten.drop (count * width) = (blocks.drop count).flatten := by
  induction count generalizing blocks with
  | zero => simp only [Nat.zero_mul, List.drop_zero]
  | succ count ih =>
      cases blocks with
      | nil => simp only [List.flatten_nil, List.drop_nil]
      | cons block rest =>
          obtain ⟨head, tail⟩ := (uniform_cons width block rest).mp uniform
          have split : (count + 1) * width = block.length + count * width := by rw [head]; ring
          rw [List.flatten_cons, split, List.drop_length_add_append, ih tail, List.drop_succ_cons]

/-- Replace the elements from `start` on by `ys`, extending past the end if needed. -/
def splice (xs : List α) (start : Nat) (ys : List α) : List α :=
  xs.take start ++ ys ++ xs.drop (start + ys.length)

@[simp] theorem splice_nil (xs : List α) (start : Nat) : splice xs start [] = xs := by
  simp only [splice, List.append_nil, List.length_nil, Nat.add_zero, List.take_append_drop]

theorem length_splice (xs : List α) (start : Nat) (ys : List α) (inside : start ≤ xs.length) :
    (splice xs start ys).length = max xs.length (start + ys.length) := by
  simp only [splice, List.length_append, List.length_take, List.length_drop]
  omega

theorem length_splice_of_fits (xs : List α) (start : Nat) (ys : List α)
    (fits : start + ys.length ≤ xs.length) : (splice xs start ys).length = xs.length := by
  rw [length_splice xs start ys (by omega), max_eq_left fits]

/-- Elements outside the range stay. -/
theorem getElem?_splice_of_outside (xs : List α) (start : Nat) (ys : List α) {i : Nat}
    (inside : start ≤ xs.length) (outside : i < start ∨ start + ys.length ≤ i) :
    (splice xs start ys)[i]? = xs[i]? := by
  have front : (xs.take start).length = start := List.length_take_of_le inside
  rcases outside with before | after
  · rw [splice, List.append_assoc, List.getElem?_append_left (by omega),
      List.getElem?_take_of_lt before]
  · rw [splice, List.getElem?_append_right (by rw [List.length_append]; omega), List.getElem?_drop,
      List.length_append, front]
    congr 1
    omega

theorem getElem?_splice_of_inside (xs : List α) (start : Nat) (ys : List α) {i : Nat}
    (inside : start ≤ xs.length) (within : i < ys.length) :
    (splice xs start ys)[start + i]? = ys[i]? := by
  have front : (xs.take start).length = start := List.length_take_of_le inside
  rw [splice, List.append_assoc, List.getElem?_append_right (by omega), front,
    Nat.add_sub_cancel_left, List.getElem?_append_left within]

/-- A range inside the first part leaves the second alone. -/
theorem splice_append_left (xs zs : List α) (start : Nat) (ys : List α)
    (fits : start + ys.length ≤ xs.length) :
    splice (xs ++ zs) start ys = splice xs start ys ++ zs := by
  simp only [splice, List.append_assoc]
  rw [List.take_append_of_le_length (by omega), List.drop_append_of_le_length fits]

/-- A range that runs over the end of the first part splits there. -/
theorem splice_across (xs zs : List α) (start : Nat) (ys : List α) (inside : start ≤ xs.length)
    (long : xs.length ≤ start + ys.length) :
    splice (xs ++ zs) start ys =
      splice xs start (ys.take (xs.length - start)) ++
        splice zs 0 (ys.drop (xs.length - start)) := by
  have front : (ys.take (xs.length - start)).length = xs.length - start := by
    rw [List.length_take]
    omega
  have gone : xs.drop (start + (xs.length - start)) = [] :=
    List.drop_eq_nil_of_le (by omega)
  have rest : (xs ++ zs).drop (start + ys.length) =
      zs.drop (ys.length - (xs.length - start)) := by
    rw [List.drop_append, List.drop_eq_nil_of_le long, List.nil_append]
    congr 1
    omega
  simp only [splice, front, gone, rest, List.append_nil, List.take_zero, List.nil_append,
    List.length_drop, Nat.zero_add]
  rw [List.take_append_of_le_length inside, List.append_assoc, List.append_assoc,
    ← List.append_assoc (ys.take _), List.take_append_drop]

/-- A range that starts after the first part is a range of the second. -/
theorem splice_append_right (xs zs : List α) (start : Nat) (ys : List α) :
    splice (xs ++ zs) (xs.length + start) ys = xs ++ splice zs start ys := by
  simp only [splice, Nat.add_assoc, List.drop_length_add_append, List.take_length_add_append,
    List.append_assoc]

/-- The meaningful prefix of an overwritten list is the overwritten prefix. -/
theorem take_splice (xs : List α) (size start : Nat) (ys : List α) (inside : start ≤ size)
    (bound : size ≤ xs.length) :
    (splice xs start ys).take (max size (start + ys.length)) =
      splice (xs.take size) start ys := by
  have left : (xs.take start ++ ys).length = start + ys.length := by
    rw [List.length_append, List.length_take]
    omega
  have high : max size (start + ys.length) =
      (xs.take start ++ ys).length + (size - (start + ys.length)) := by
    rw [left]
    omega
  rw [splice, high, List.take_length_add_append, splice, List.take_take, List.drop_take,
    min_eq_left inside]

/-- A second range right behind the first. -/
theorem splice_splice (xs : List α) (start : Nat) (ys zs : List α) (inside : start ≤ xs.length) :
    splice (splice xs start ys) (start + ys.length) zs = splice xs start (ys ++ zs) := by
  have front : (xs.take start ++ ys).length = start + ys.length := by
    rw [List.length_append, List.length_take, min_eq_left inside]
  have first : (splice xs start ys).take (start + ys.length) = xs.take start ++ ys := by
    rw [splice, List.take_left' front]
  have rest : (splice xs start ys).drop (start + ys.length + zs.length) =
      xs.drop (start + ys.length + zs.length) := by
    rw [splice, ← List.drop_drop, List.drop_left' front, List.drop_drop]
  rw [splice, first, rest, splice, List.length_append, Nat.add_assoc]
  simp only [List.append_assoc]

end Blocks
