import Mathlib.Data.List.Basic

set_option autoImplicit false

/-! Words of a stream in which every element but the last says that another one follows. -/

namespace Continued

variable {α : Type} (more : α → Bool)

/-- Every element but the last says that another one follows. -/
def Terminated : List α → Prop
  | [] => False
  | a :: rest => if more a then Terminated rest else rest = []

/-- The first word, of at most `n` elements, and what is behind it; `none` where the elements end
within it. A word of `n` elements is cut there whatever its last one says. -/
def cut : Nat → List α → Option (List α × List α)
  | 0, xs => some ([], xs)
  | _ + 1, [] => none
  | n + 1, a :: rest =>
      if more a then (cut n rest).map fun found => (a :: found.1, found.2)
      else some ([a], rest)

variable {more}

theorem terminated_cons_more {a : α} {rest : List α} (again : more a = true) :
    Terminated more (a :: rest) ↔ Terminated more rest := by
  simp only [Terminated, again, ↓reduceIte]

theorem terminated_cons_last {a : α} {rest : List α} (last : more a = false) :
    Terminated more (a :: rest) ↔ rest = [] := by
  simp only [Terminated, last, Bool.false_eq_true, ↓reduceIte]

theorem Terminated.ne_nil {xs : List α} (whole : Terminated more xs) : xs ≠ [] := by
  rintro rfl
  exact whole

theorem terminated_iff (xs : List α) :
    Terminated more xs ↔
      ∃ front last, xs = front ++ [last] ∧ (∀ a ∈ front, more a = true) ∧ more last = false := by
  induction xs with
  | nil =>
      refine ⟨fun whole => absurd rfl whole.ne_nil, ?_⟩
      intro found
      obtain ⟨front, last, whole, -, -⟩ := found
      exact absurd whole.symm (List.append_ne_nil_of_right_ne_nil _ (List.cons_ne_nil _ _))
  | cons a rest ih =>
      cases again : more a with
      | false =>
          rw [terminated_cons_last again]
          constructor
          · intro none_left
            exact ⟨[], a, by rw [none_left, List.nil_append], by simp, again⟩
          · intro found
            obtain ⟨front, last, whole, all, -⟩ := found
            cases front with
            | nil => exact (List.cons.inj whole).2
            | cons b front =>
                have first := all b List.mem_cons_self
                rw [← (List.cons.inj whole).1, again] at first
                cases first
      | true =>
          rw [terminated_cons_more again, ih]
          constructor
          · intro found
            obtain ⟨front, last, whole, all, stops⟩ := found
            refine ⟨a :: front, last, by rw [whole, List.cons_append], ?_, stops⟩
            simp only [List.mem_cons, forall_eq_or_imp]
            exact ⟨again, all⟩
          · intro found
            obtain ⟨front, last, whole, all, stops⟩ := found
            cases front with
            | nil =>
                rw [← (List.cons.inj whole).1, again] at stops
                cases stops
            | cons b front =>
                exact ⟨front, last, (List.cons.inj whole).2,
                  fun c inside => all c (List.mem_cons_of_mem _ inside), stops⟩

/-- No word is a proper prefix of another one. -/
theorem Terminated.eq_of_begins {xs ys : List α} (first : Terminated more xs)
    (second : Terminated more ys) (front : xs <+: ys) : xs = ys := by
  induction xs generalizing ys with
  | nil => exact absurd rfl first.ne_nil
  | cons a xs ih =>
      cases ys with
      | nil => exact absurd rfl second.ne_nil
      | cons b ys =>
          obtain ⟨same, tail⟩ := List.cons_prefix_cons.mp front
          subst same
          cases again : more a with
          | false =>
              rw [terminated_cons_last again] at first second
              rw [first, second]
          | true =>
              rw [terminated_cons_more again] at first second
              rw [ih first second tail]

/-- A word is cut off whatever follows it. -/
theorem cut_terminated {n : Nat} {xs : List α} (whole : Terminated more xs)
    (short : xs.length ≤ n) (rest : List α) : cut more n (xs ++ rest) = some (xs, rest) := by
  induction xs generalizing n with
  | nil => exact absurd rfl whole.ne_nil
  | cons a xs ih =>
      cases n with
      | zero => cases short
      | succ n =>
          cases again : more a with
          | false =>
              rw [terminated_cons_last again] at whole
              subst whole
              simp only [List.cons_append, List.nil_append, cut, again, Bool.false_eq_true,
                ↓reduceIte]
          | true =>
              rw [terminated_cons_more again] at whole
              simp only [List.cons_append, cut, again, ↓reduceIte,
                ih whole (Nat.le_of_succ_le_succ short), Option.map_some]

/-- As many elements as a word may have are cut off whatever the last one says. -/
theorem cut_full {front : List α} (all : ∀ a ∈ front, more a = true) (last : α) (rest : List α) :
    cut more (front.length + 1) (front ++ last :: rest) = some (front ++ [last], rest) := by
  induction front with
  | nil => cases again : more last <;> simp [cut, again]
  | cons a front ih =>
      have again := all a List.mem_cons_self
      have tail := ih fun b inside => all b (List.mem_cons_of_mem a inside)
      simp only [List.cons_append, List.length_cons, cut, again, ↓reduceIte] at tail ⊢
      rw [tail, Option.map_some]

/-- What is cut off is a word, or `n` elements that all say that another one follows. -/
theorem cut_eq_some {n : Nat} {xs word rest : List α} (found : cut more n xs = some (word, rest)) :
    xs = word ++ rest ∧ word.length ≤ n ∧
      (Terminated more word ∨ word.length = n ∧ ∀ a ∈ word, more a = true) := by
  induction n generalizing xs word rest with
  | zero =>
      cases found
      exact ⟨rfl, Nat.le_refl 0, Or.inr ⟨rfl, by simp⟩⟩
  | succ n ih =>
      cases xs with
      | nil => cases found
      | cons a xs =>
          cases again : more a with
          | false =>
              simp only [cut, again, Bool.false_eq_true, ↓reduceIte] at found
              cases found
              exact ⟨rfl, Nat.succ_le_succ (Nat.zero_le n),
                Or.inl ((terminated_cons_last again).mpr rfl)⟩
          | true =>
              simp only [cut, again, ↓reduceIte, Option.map_eq_some_iff] at found
              obtain ⟨inner, found, same⟩ := found
              obtain ⟨tail, behind⟩ := inner
              cases same
              obtain ⟨whole, short, ending⟩ := ih found
              refine ⟨by rw [whole, List.cons_append], Nat.succ_le_succ short, ?_⟩
              rcases ending with terminated | ⟨full, all⟩
              · exact Or.inl ((terminated_cons_more again).mpr terminated)
              · refine Or.inr ⟨congrArg Nat.succ full, ?_⟩
                simp only [List.mem_cons, forall_eq_or_imp]
                exact ⟨again, all⟩

/-- A word that is cut off with as many elements as it may have. -/
theorem cut_of_length {n : Nat} {xs word rest : List α}
    (found : cut more (n + 1) xs = some (word, rest)) (full : word.length = n + 1) :
    ∃ last, word = xs.take n ++ [last] ∧ xs[n]? = some last ∧ ∀ a ∈ xs.take n, more a = true := by
  obtain ⟨whole, -, ending⟩ := cut_eq_some found
  obtain ⟨front, last, split⟩ : ∃ front last, word = front ++ [last] := by
    have some_elements : word ≠ [] := List.ne_nil_of_length_pos (by omega)
    exact ⟨_, _, (List.dropLast_concat_getLast some_elements).symm⟩
  subst split
  have length : front.length = n := by
    rw [List.length_append, List.length_singleton] at full
    omega
  have before : xs.take n = front := by
    rw [whole, ← length, List.append_assoc, List.take_left]
  have here : xs[n]? = some last := by
    rw [whole, ← length]
    simp
  rw [before]
  refine ⟨last, rfl, here, ?_⟩
  rcases ending with terminated | ⟨-, all⟩
  · obtain ⟨front', last', same, all, -⟩ := (terminated_iff _).mp terminated
    rw [(List.append_inj' same rfl).1]
    exact all
  · exact fun b inside => all b (List.mem_append_left _ inside)

end Continued
