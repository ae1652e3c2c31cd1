import CorReactor.RagelParses

set_option autoImplicit false

/-! A finishing action that breaks off the scan of a machine, and the words that come to it. -/

namespace Ragel

variable {α A P : Type}

namespace Machine

variable (M : Machine α A)

/-- The machine comes to a final state behind the word, and not before. -/
def readsFirst : M.State → List α → Bool
  | _, [] => false
  | s, c :: w =>
      match M.step s c with
      | none => false
      | some (_, t) => if (M.final t).isSome then w.isEmpty else readsFirst t w

/-- The loop of a scanner. `perform` executes the actions of a transition at an offset, and says
whether they broke off the loop. -/
def exec (perform : Nat → List A → P → Option (P × Bool)) :
    M.State → Nat → List α → P → Option (Option M.State × Nat × P)
  | s, p, [], x => some (some s, p, x)
  | s, p, c :: rest, x =>
      match M.step s c with
      | none => some (none, p, x)
      | some (as, t) =>
          (perform p as x).bind fun (x, broken) =>
            if broken then some (some t, p + 1, x) else exec perform t (p + 1) rest x

variable {M} {s : M.State} {c : α} {w rest : List α}

theorem readsFirst_cons (first : M.readsFirst s (c :: w) = true) :
    ∃ as t, M.step s c = some (as, t) ∧
      (((M.final t).isSome = true ∧ w = []) ∨ (M.final t = none ∧ M.readsFirst t w = true)) := by
  rw [readsFirst] at first
  cases step : M.step s c with
  | none =>
      rw [step] at first
      cases first
  | some x =>
      obtain ⟨as, t⟩ := x
      rw [step] at first
      refine ⟨as, t, rfl, ?_⟩
      cases final : M.final t with
      | none =>
          simp only [final, Option.isSome_none, Bool.false_eq_true, ↓reduceIte] at first
          exact Or.inr ⟨rfl, first⟩
      | some waiting =>
          simp only [final, Option.isSome_some, ↓reduceIte, List.isEmpty_iff] at first
          exact Or.inl ⟨rfl, first⟩

/-- The word is accepted, and of its beginnings only the empty one can be. -/
theorem readsFirst_iff : M.readsFirst s w = true ↔ w ≠ [] ∧ M.acceptsFrom s w = true ∧
    ∀ u, u <+: w → u ≠ [] → u ≠ w → M.acceptsFrom s u = false := by
  induction w generalizing s with
  | nil => simp [readsFirst]
  | cons c w ih =>
      rw [readsFirst]
      cases step : M.step s c with
      | none => simp [acceptsFrom, step]
      | some x =>
          obtain ⟨as, t⟩ := x
          have after : ∀ u, M.acceptsFrom s (c :: u) = M.acceptsFrom t u := by
            intro u
            rw [acceptsFrom, step]
          dsimp only
          rw [after]
          cases final : M.final t with
          | some waiting =>
              simp only [Option.isSome_some, ↓reduceIte, List.isEmpty_iff]
              constructor
              · rintro rfl
                refine ⟨List.cons_ne_nil c [], by rw [acceptsFrom, final]; rfl, ?_⟩
                intro u begins filled shorter
                cases u with
                | nil => exact absurd rfl filled
                | cons d u =>
                    obtain ⟨rfl, more⟩ := List.cons_prefix_cons.mp begins
                    rw [List.prefix_nil.mp more] at shorter
                    exact absurd rfl shorter
              · rintro ⟨-, -, shorter⟩
                by_contra longer
                have first := shorter [c] ⟨w, rfl⟩ (List.cons_ne_nil c [])
                  (fun same => longer (List.cons.inj same).2.symm)
                rw [after, acceptsFrom, final] at first
                cases first
          | none =>
              simp only [Option.isSome_none, Bool.false_eq_true, ↓reduceIte]
              rw [ih]
              have rejects : M.acceptsFrom t [] = false := by
                rw [acceptsFrom, final]
                rfl
              constructor
              · rintro ⟨-, accepted, shorter⟩
                refine ⟨List.cons_ne_nil c w, accepted, ?_⟩
                intro u begins filled other
                cases u with
                | nil => exact absurd rfl filled
                | cons d u =>
                    obtain ⟨rfl, more⟩ := List.cons_prefix_cons.mp begins
                    rw [after]
                    by_cases empty : u = []
                    · rw [empty, rejects]
                    · exact shorter u more empty fun same => other (by rw [same])
              · rintro ⟨-, accepted, shorter⟩
                refine ⟨?_, accepted, ?_⟩
                · rintro rfl
                  rw [rejects] at accepted
                  cases accepted
                · intro u begins filled other
                  rw [← after]
                  exact shorter (c :: u) (List.cons_prefix_cons.mpr ⟨rfl, begins⟩)
                    (List.cons_ne_nil c u) fun same => other (List.cons.inj same).2

/-- Where the actions break off the loop exactly on the way into final states, it ends behind the
word, with the actions of its last transition. -/
theorem exec_readsFirst {perform : Nat → List A → P → Option (P × Bool)}
    (breaks : ∀ s c as t p x y b, M.step s c = some (as, t) → perform p as x = some (y, b) →
      b = (M.final t).isSome)
    {p q : Nat} {x y : P} {last : Option M.State} (first : M.readsFirst s w = true)
    (ran : M.exec perform s p (w ++ rest) x = some (last, q, y)) :
    q = p + w.length ∧ ∃ as before, perform (q - 1) as before = some (y, true) := by
  induction w generalizing s p x with
  | nil => cases first
  | cons c w ih =>
      obtain ⟨as, t, step, ends⟩ := readsFirst_cons first
      rw [List.cons_append, exec, step] at ran
      obtain ⟨⟨x', broken⟩, performed, ran⟩ := Option.bind_eq_some_iff.mp ran
      have stops := breaks s c as t p x x' broken step performed
      rcases ends with ⟨final, rfl⟩ | ⟨final, more⟩
      · rw [stops, final] at ran performed
        cases ran
        exact ⟨rfl, as, x, performed⟩
      · rw [stops, final] at ran
        obtain ⟨length, done⟩ := ih more ran
        refine ⟨?_, done⟩
        rw [length, List.length_cons]
        omega

/-- What all actions keep, the loop keeps. -/
theorem exec_keeps {perform : Nat → List A → P → Option (P × Bool)} {I : P → Prop}
    (keeps : ∀ p as x y b, perform p as x = some (y, b) → I x → I y) {p q : Nat} {x y : P}
    {last : Option M.State} (held : I x) (ran : M.exec perform s p w x = some (last, q, y)) :
    I y := by
  induction w generalizing s p x with
  | nil =>
      cases ran
      exact held
  | cons c w ih =>
      rw [exec] at ran
      cases step : M.step s c with
      | none =>
          rw [step] at ran
          cases ran
          exact held
      | some t =>
          rw [step] at ran
          obtain ⟨⟨x', broken⟩, performed, ran⟩ := Option.bind_eq_some_iff.mp ran
          have later := keeps p t.1 x x' broken performed held
          cases broken with
          | true =>
              cases ran
              exact later
          | false => exact ih later ran

end Machine

namespace Expr

variable [DecidableEq A] {e : Expr α A} {a : A} {n : Nat} {c : α}

/-- A finishing action of its own is executed last, and only on the way into final states. -/
theorem finish_step (fresh : a ∉ e.actions) {s t : ((e.finish a).machine n).State}
    {as : List (Nat × A)} (step : ((e.finish a).machine n).step s c = some (as, t)) :
    (((e.finish a).machine n).final t = none ∧ a ∉ inOrder as) ∨
      ((((e.finish a).machine n).final t).isSome = true ∧
        ∃ front, inOrder as = front ++ [a] ∧ a ∉ front) := by
  obtain ⟨⟨bs, t'⟩, inner, same⟩ := Option.map_eq_some_iff.mp step
  have below := ((machine_below e n).step s c bs t' inner).2
  have others : a ∉ inOrder bs := by
    intro member
    obtain ⟨k, inside⟩ := mem_inOrder.mp member
    exact fresh (((machine_within e n).step s c bs t' inner).2 (k, a) inside).2
  cases same
  change ((e.machine n).final t' = none ∧ _) ∨ (((e.machine n).final t').isSome = true ∧ _)
  dsimp only
  cases final : (e.machine n).final t' with
  | none => exact Or.inl ⟨rfl, by simpa using others⟩
  | some waiting =>
      refine Or.inr ⟨rfl, inOrder bs, ?_, others⟩
      exact inOrder_append_max (fun b member => Nat.le_of_lt (below b member)) others

/-- Where the loop is broken off by the finishing action, it is on the way into final states. -/
theorem finish_breaks (fresh : a ∉ e.actions)
    (perform : Nat → List (Nat × A) → P → Option (P × Bool))
    (broken : ∀ p as x y b, perform p as x = some (y, b) → (b = true ↔ a ∈ inOrder as)) :
    ∀ s c as t p x y b, ((e.finish a).machine n).step s c = some (as, t) →
      perform p as x = some (y, b) → b = (((e.finish a).machine n).final t).isSome := by
  intro s c as t p x y b step performed
  have stops := broken p as x y b performed
  rcases finish_step fresh step with ⟨final, never⟩ | ⟨final, front, split, -⟩
  · rw [final]
    exact Bool.eq_false_iff.mpr fun ends => never (stops.mp ends)
  · rw [final]
    exact stops.mpr (split ▸ List.mem_append_right front (List.mem_singleton_self a))

end Expr

end Ragel
