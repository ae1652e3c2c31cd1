import Mathlib.Data.List.Basic
import Mathlib.Data.List.Nodup

set_option autoImplicit false

/-! An ordered set kept as the list of its elements in order, under a strict
comparator that need only be meaningful on the elements present. -/

namespace OrderedSet

variable {α : Type*} (lt : α → α → Bool)

/-- Insert behind all smaller elements, unless an equivalent element is there. -/
def insert : List α → α → List α
  | [], x => [x]
  | y :: ys, x =>
      if lt y x then y :: insert ys x
      else if lt x y then x :: y :: ys
      else y :: ys

/-- The element equivalent to `x`, found in order. -/
def find? : List α → α → Option α
  | [], _ => none
  | y :: ys, x =>
      if lt y x then find? ys x
      else if lt x y then none
      else some y

/-- Strictly increasing. -/
def Sorted (xs : List α) : Prop := xs.Pairwise fun a b => lt a b = true

variable {lt}

theorem Sorted.nodup (irrefl : ∀ a, lt a a = false) {xs : List α} (sorted : Sorted lt xs) :
    xs.Nodup := by
  refine List.Pairwise.imp ?_ sorted
  rintro a b less rfl
  rw [irrefl] at less
  cases less

/-- Looking up an element of a sorted set finds that element. -/
theorem find?_of_mem (irrefl : ∀ a, lt a a = false) {xs : List α} (sorted : Sorted lt xs) {x : α}
    (member : x ∈ xs) : find? lt xs x = some x := by
  induction xs with
  | nil => cases member
  | cons y ys ih =>
      obtain ⟨below, rest⟩ := List.pairwise_cons.mp sorted
      rcases List.mem_cons.mp member with rfl | inside
      · simp only [find?, irrefl, Bool.false_eq_true, ↓reduceIte]
      · simp only [find?, below x inside, ↓reduceIte, ih rest inside]

/-- The new element is comparable with every element present. -/
def Fresh (lt : α → α → Bool) (xs : List α) (x : α) : Prop :=
  ∀ y ∈ xs, lt y x = true ∨ lt x y = true

theorem insert_perm {xs : List α} {x : α} (fresh : Fresh lt xs x) :
    (insert lt xs x).Perm (x :: xs) := by
  induction xs with
  | nil => exact List.Perm.refl _
  | cons y ys ih =>
      unfold insert
      split
      · have tail := ih fun z member => fresh z (List.mem_cons_of_mem y member)
        exact (tail.cons y).trans (List.Perm.swap x y ys)
      · rename_i above
        rcases fresh y List.mem_cons_self with less | less
        · exact absurd less above
        · rw [if_pos less]

theorem mem_insert {xs : List α} {x : α} (fresh : Fresh lt xs x) (z : α) :
    z ∈ insert lt xs x ↔ z = x ∨ z ∈ xs := by
  rw [(insert_perm fresh).mem_iff, List.mem_cons]

theorem insert_sorted (trans : ∀ a b c, lt a b = true → lt b c = true → lt a c = true)
    {xs : List α} {x : α} (sorted : Sorted lt xs) (fresh : Fresh lt xs x) :
    Sorted lt (insert lt xs x) := by
  induction xs with
  | nil => exact List.pairwise_singleton _ x
  | cons y ys ih =>
      obtain ⟨below, rest⟩ := List.pairwise_cons.mp sorted
      have tail : Fresh lt ys x := fun z member => fresh z (List.mem_cons_of_mem y member)
      unfold insert
      split
      · rename_i less
        refine List.pairwise_cons.mpr ⟨?_, ih rest tail⟩
        intro z member
        rcases (mem_insert tail z).mp member with rfl | inside
        · exact less
        · exact below z inside
      · rename_i above
        rcases fresh y List.mem_cons_self with less | less
        · exact absurd less above
        · rw [if_pos less]
          refine List.pairwise_cons.mpr ⟨?_, sorted⟩
          intro z member
          rcases List.mem_cons.mp member with rfl | inside
          · exact less
          · exact trans x y z less (below z inside)

/-- Sortedness looks only at how the elements present compare. -/
theorem Sorted.congr {lt' : α → α → Bool} {xs : List α} (sorted : Sorted lt xs)
    (same : ∀ a ∈ xs, ∀ b ∈ xs, lt' a b = lt a b) : Sorted lt' xs := by
  refine List.Pairwise.imp_of_mem ?_ sorted
  intro a b left right less
  rw [same a left b right, less]

/-- A predicate that holds of all smaller elements too cuts off exactly the elements it
holds of. -/
theorem Sorted.mem_takeWhile {xs : List α} (sorted : Sorted lt xs) {p : α → Bool}
    (down : ∀ a b, lt a b = true → p b = true → p a = true) (x : α) :
    x ∈ xs.takeWhile p ↔ x ∈ xs ∧ p x = true := by
  induction xs with
  | nil => simp only [List.takeWhile_nil, List.not_mem_nil, false_and]
  | cons y ys ih =>
      obtain ⟨below, rest⟩ := List.pairwise_cons.mp sorted
      rw [List.takeWhile_cons]
      split
      · rename_i holds
        rw [List.mem_cons, List.mem_cons, ih rest]
        constructor
        · rintro (rfl | ⟨inside, good⟩)
          · exact ⟨Or.inl rfl, holds⟩
          · exact ⟨Or.inr inside, good⟩
        · rintro ⟨rfl | inside, good⟩
          · exact Or.inl rfl
          · exact Or.inr ⟨inside, good⟩
      · rename_i fails
        simp only [List.not_mem_nil, false_iff]
        rintro ⟨member, good⟩
        rcases List.mem_cons.mp member with rfl | inside
        · exact fails good
        · exact fails (down y x (below x inside) good)

theorem Sorted.sublist {xs ys : List α} (sorted : Sorted lt xs) (sub : ys.Sublist xs) :
    Sorted lt ys :=
  List.Pairwise.sublist sub sorted

end OrderedSet
