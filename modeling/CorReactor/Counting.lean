import Mathlib.Algebra.BigOperators.Fin
import Mathlib.Algebra.Order.BigOperators.Group.Finset

set_option autoImplicit false

/-! Sums and counts over the first numbers, where one entry changes. -/

namespace Counting

open Finset

/-- Only the entry at `i` differs: the sums differ by it. -/
theorem sum_range_replace {n i : Nat} {f g : Nat → Nat} (inside : i < n)
    (others : ∀ j, j ≠ i → g j = f j) :
    (∑ j ∈ range n, g j) + f i = (∑ j ∈ range n, f j) + g i := by
  have member : i ∈ range n := mem_range.mpr inside
  have rest : ∑ j ∈ (range n).erase i, g j = ∑ j ∈ (range n).erase i, f j :=
    Finset.sum_congr rfl fun j inside => others j (Finset.ne_of_mem_erase inside)
  rw [← Finset.add_sum_erase _ g member, ← Finset.add_sum_erase _ f member, rest]
  omega

theorem sum_range_le {n bound : Nat} {f : Nat → Nat} (each : ∀ j, f j ≤ bound) :
    ∑ j ∈ range n, f j ≤ n * bound := by
  have total := Finset.sum_le_card_nsmul (range n) f bound fun j _ => each j
  rwa [card_range, smul_eq_mul] at total

/-- How many of the first `n` numbers satisfy `p`. -/
def count (p : Nat → Bool) (n : Nat) : Nat := (List.range n).countP p

theorem count_eq_sum (p : Nat → Bool) (n : Nat) : count p n = ∑ j ∈ range n, (p j).toNat := by
  induction n with
  | zero => rfl
  | succ n ih =>
      have last : [n].countP p = (p n).toNat := by
        cases holds : p n <;> simp [holds]
      unfold count at ih ⊢
      rw [List.range_succ, List.countP_append, ih, Finset.sum_range_succ, last]

theorem count_replace {n i : Nat} {p q : Nat → Bool} (inside : i < n)
    (others : ∀ j, j ≠ i → q j = p j) : count q n + (p i).toNat = count p n + (q i).toNat := by
  rw [count_eq_sum, count_eq_sum]
  exact sum_range_replace inside (f := fun j => (p j).toNat) (g := fun j => (q j).toNat)
    fun j ne => congrArg Bool.toNat (others j ne)

theorem count_le (p : Nat → Bool) (n : Nat) : count p n ≤ n := by
  have total := List.countP_le_length (p := p) (l := List.range n)
  rwa [List.length_range] at total

theorem count_eq_zero {n : Nat} {p : Nat → Bool} : count p n = 0 ↔ ∀ i < n, p i = false := by
  unfold count
  rw [List.countP_eq_zero]
  simp only [List.mem_range, Bool.not_eq_true]

end Counting
