import Mathlib.Data.List.Basic

set_option autoImplicit false

/-! The lines of a text. -/

namespace Lines

variable {α : Type} (stop : α → Bool)

/-- The lines, without the characters that end them. -/
def lines : List α → List (List α)
  | [] => []
  | a :: rest =>
      if stop a then [] :: lines rest
      else
        match lines rest with
        | [] => [[a]]
        | line :: more => (a :: line) :: more

variable {stop}

/-- Nothing, or a text in which the last line is ended. -/
def Ended (stop : α → Bool) (text : List α) : Prop :=
  text = [] ∨ ∃ front last, text = front ++ [last] ∧ stop last = true

theorem Ended.nil : Ended stop [] := Or.inl rfl

theorem Ended.append {first second : List α} (left : Ended stop first) (right : Ended stop second) :
    Ended stop (first ++ second) := by
  rcases right with empty | ⟨front, last, split, ends⟩
  · rw [empty, List.append_nil]
    exact left
  · exact Or.inr ⟨first ++ front, last, by rw [split, List.append_assoc], ends⟩

theorem Ended.flatMap {ι : Type} {items : List ι} {text : ι → List α}
    (each : ∀ i ∈ items, Ended stop (text i)) : Ended stop (items.flatMap text) := by
  induction items with
  | nil => exact Ended.nil
  | cons i items ih =>
      rw [List.flatMap_cons]
      exact (each i List.mem_cons_self).append
        (ih fun j later => each j (List.mem_cons_of_mem i later))

theorem lines_ended_append (front : List α) {last : α} (ends : stop last = true)
    (rest : List α) :
    lines stop (front ++ last :: rest) = lines stop (front ++ [last]) ++ lines stop rest := by
  induction front with
  | nil => simp only [List.nil_append, lines, ends, ↓reduceIte, List.cons_append]
  | cons a front ih =>
      rw [List.cons_append, List.cons_append, lines, lines, ih]
      split
      · rfl
      · cases inner : lines stop (front ++ [last]) with
        | nil =>
            have some_line : lines stop (front ++ [last]) ≠ [] := by
              cases front with
              | nil => simp [lines, ends]
              | cons b front =>
                  rw [List.cons_append, lines]
                  split
                  · exact List.cons_ne_nil _ _
                  · split <;> exact List.cons_ne_nil _ _
            exact absurd inner some_line
        | cons line more => rfl

/-- Behind an ended text new lines begin. -/
theorem Ended.lines_append {first : List α} (ended : Ended stop first) (second : List α) :
    lines stop (first ++ second) = lines stop first ++ lines stop second := by
  rcases ended with empty | ⟨front, last, split, ends⟩
  · rw [empty]
    rfl
  · rw [split, List.append_assoc]
    exact lines_ended_append front ends second

theorem lines_single {line : List α} (inside : ∀ a ∈ line, stop a = false) {last : α}
    (ends : stop last = true) : lines stop (line ++ [last]) = [line] := by
  induction line with
  | nil => simp only [List.nil_append, lines, ends, ↓reduceIte]
  | cons a line ih =>
      have here := inside a List.mem_cons_self
      have later := ih fun b member => inside b (List.mem_cons_of_mem a member)
      simp only [List.cons_append, lines, here, Bool.false_eq_true, ↓reduceIte, later]

end Lines
