import Mathlib.Data.List.Basic

set_option autoImplicit false

/-! Tables that are looked up in one critical section and filled in another: what the
answers given so far say about the table. -/

namespace LookupInsert

variable {κ ι : Type} {entry entry' : κ → Option ι} {given : List (κ × Option ι)} {k : κ} {i : ι}

/-- Once a key has been answered by an item, every later answer for it is this item. -/
def Stable (given : List (κ × Option ι)) : Prop :=
  given.Pairwise fun before after => ∀ i, before.2 = some i → before.1 = after.1 → after.2 = some i

/-- The entries of the table are the items that were given as answers. -/
structure Recorded (entry : κ → Option ι) (given : List (κ × Option ι)) : Prop where
  stored : ∀ k i, (k, some i) ∈ given → entry k = some i
  known : ∀ k i, entry k = some i → (k, some i) ∈ given

theorem recorded_nil (empty : ∀ k, entry k = none) : Recorded entry [] where
  stored := by
    intro k i member
    cases member
  known := by
    intro k i held
    rw [empty k] at held
    cases held

theorem stable_snoc {answer : Option ι} (stable : Stable given)
    (fits : ∀ i, (k, some i) ∈ given → answer = some i) : Stable (given ++ [(k, answer)]) := by
  refine List.pairwise_append.mpr ⟨stable, List.pairwise_singleton _ _, ?_⟩
  rintro ⟨key, item⟩ member after last i held same
  rw [List.mem_singleton.mp last] at same ⊢
  dsimp only at held same ⊢
  rw [held, same] at member
  exact fits i member

/-- An answer read off the table, present or absent. -/
theorem Recorded.answer (recorded : Recorded entry given) (stable : Stable given) :
    Recorded entry (given ++ [(k, entry k)]) ∧ Stable (given ++ [(k, entry k)]) := by
  refine ⟨⟨?_, ?_⟩, stable_snoc stable (fun i member => recorded.stored k i member)⟩
  · intro key item member
    rcases List.mem_append.mp member with earlier | last
    · exact recorded.stored key item earlier
    · obtain ⟨rfl, held⟩ := Prod.mk.inj (List.mem_singleton.mp last)
      exact held.symm
  · intro key item held
    exact List.mem_append_left _ (recorded.known key item held)

/-- An item put where there was none, and answered. -/
theorem Recorded.put (recorded : Recorded entry given) (stable : Stable given)
    (absent : entry k = none) (here : entry' k = some i)
    (others : ∀ key, key ≠ k → entry' key = entry key) :
    Recorded entry' (given ++ [(k, some i)]) ∧ Stable (given ++ [(k, some i)]) := by
  have never : ∀ item, (k, some item) ∉ given := by
    intro item member
    have held := recorded.stored k item member
    rw [absent] at held
    cases held
  refine ⟨⟨?_, ?_⟩, stable_snoc stable (fun item member => absurd member (never item))⟩
  · intro key item member
    rcases List.mem_append.mp member with earlier | last
    · have apart : key ≠ k := by
        intro same
        subst same
        exact never item earlier
      rw [others key apart]
      exact recorded.stored key item earlier
    · obtain ⟨rfl, same⟩ := Prod.mk.inj (List.mem_singleton.mp last)
      cases same
      exact here
  · intro key item held
    by_cases same : key = k
    · subst same
      rw [here] at held
      cases held
      exact List.mem_append_right _ List.mem_cons_self
    · rw [others key same] at held
      exact List.mem_append_left _ (recorded.known key item held)

end LookupInsert
