import CorReactor.Ragel

set_option autoImplicit false

/-! Expressions that differ in the characters of some classes, and what their machines share. -/

namespace Ragel

variable {α A : Type}

/-- The machines have the same states, and take the same transitions for these characters. -/
inductive Machine.Agree (agreed : α → Prop) : Machine α A → Machine α A → Prop
  | intro (State : Type) (start : State) (step step' : State → α → Option (List A × State))
      (final final' : State → Option (List A)) (ends : ∀ s, final s = final' s)
      (same : ∀ s c, agreed c → step s c = step' s c) :
      Agree agreed ⟨State, start, step, final⟩ ⟨State, start, step', final'⟩

namespace Machine

variable {agreed : α → Prop} {M M' N N' : Machine α A}

section Explicit

variable {S T : Type} {start : S} {start' : T} {step step' : S → α → Option (List A × S)}
  {after after' : T → α → Option (List A × T)} {final : S → Option (List A)}
  {final' : T → Option (List A)} {c : α}

theorem left_agree (same : ∀ s, step s c = step' s c) (m : Option S) :
    left ⟨S, start, step, final⟩ m c = left ⟨S, start, step', final⟩ m c := by
  cases m with
  | none => rfl
  | some s => exact same s

theorem right_agree (same : ∀ s, step s c = step' s c) (ns : List S) :
    right ⟨S, start, step, final⟩ ns c = right ⟨S, start, step', final⟩ ns c := by
  unfold right
  congr 1
  funext s
  exact same s

theorem entry_agree (step' : S → α → Option (List A × S))
    (same : ∀ t, after t c = after' t c) (m : Option S) :
    entry ⟨S, start, step, final⟩ ⟨T, start', after, final'⟩ m c =
      entry ⟨S, start, step', final⟩ ⟨T, start', after', final'⟩ m c := by
  unfold entry
  dsimp only
  rw [same start']

end Explicit

theorem Agree.alt (first : Agree agreed M M') (second : Agree agreed N N') :
    Agree agreed (M.alt N) (M'.alt N') := by
  obtain ⟨S, start, step, step', final, final', ends, same⟩ := first
  obtain ⟨T, start₂, after, after', final₂, final₂', ends₂, same₂⟩ := second
  obtain rfl : final = final' := funext ends
  obtain rfl : final₂ = final₂' := funext ends₂
  refine Agree.intro _ _ _ _ _ _ (fun _ => rfl) ?_
  intro s c here
  dsimp only
  rw [left_agree (fun s => same s c here), right_agree (fun t => same₂ t c here)]

theorem Agree.cat (first : Agree agreed M M') (second : Agree agreed N N') :
    Agree agreed (M.cat N) (M'.cat N') := by
  obtain ⟨S, start, step, step', final, final', ends, same⟩ := first
  obtain ⟨T, start₂, after, after', final₂, final₂', ends₂, same₂⟩ := second
  obtain rfl : final = final' := funext ends
  obtain rfl : final₂ = final₂' := funext ends₂
  refine Agree.intro _ _ _ _ _ _ (fun _ => rfl) ?_
  intro s c here
  dsimp only
  rw [left_agree (fun s => same s c here), right_agree (fun t => same₂ t c here),
    entry_agree step' (fun t => same₂ t c here)]

theorem Agree.guard (first : Agree agreed M M') (second : Agree agreed N N') :
    Agree agreed (M.guard N) (M'.guard N') := by
  obtain ⟨S, start, step, step', final, final', ends, same⟩ := first
  obtain ⟨T, start₂, after, after', final₂, final₂', ends₂, same₂⟩ := second
  obtain rfl : final = final' := funext ends
  obtain rfl : final₂ = final₂' := funext ends₂
  refine Agree.intro _ _ _ _ _ _ (fun _ => rfl) ?_
  intro s c here
  dsimp only
  rw [left_agree (fun s => same s c here), right_agree (fun t => same₂ t c here),
    entry_agree step' (fun t => same₂ t c here)]
  cases entry ⟨S, start, step', final⟩ ⟨T, start₂, after', final₂⟩ s.1 c <;> rfl

theorem Agree.finGuard (first : Agree agreed M M') (second : Agree agreed N N') :
    Agree agreed (M.finGuard N) (M'.finGuard N') := by
  obtain ⟨S, start, step, step', final, final', ends, same⟩ := first
  obtain ⟨T, start₂, after, after', final₂, final₂', ends₂, same₂⟩ := second
  obtain rfl : final = final' := funext ends
  obtain rfl : final₂ = final₂' := funext ends₂
  refine Agree.intro _ _ _ _ _ _ (fun _ => rfl) ?_
  intro s c here
  dsimp only
  rw [left_agree (fun s => same s c here), right_agree (fun t => same₂ t c here),
    entry_agree step' (fun t => same₂ t c here)]

theorem Agree.star (first : Agree agreed M M') : Agree agreed M.star M'.star := by
  obtain ⟨S, start, step, step', final, final', ends, same⟩ := first
  obtain rfl : final = final' := funext ends
  have resumes : ∀ ms : List S,
      again ⟨S, start, step, final⟩ ms = again ⟨S, start, step', final⟩ ms := fun _ => rfl
  refine Agree.intro _ _ _ _ _ _ resumes ?_
  intro ms c here
  dsimp only
  rw [right_agree (fun s => same s c here), same start c here, resumes]
  generalize right ⟨S, start, step', final⟩ ms c ++ _ = ts
  cases ts <;> rfl

theorem Agree.enter (first : Agree agreed M M') (a : A) :
    Agree agreed (M.enter a) (M'.enter a) := by
  obtain ⟨S, start, step, step', final, final', ends, same⟩ := first
  obtain rfl : final = final' := funext ends
  refine Agree.intro _ _ _ _ _ _ ?_ ?_
  · intro s
    cases s <;> rfl
  · intro s c here
    cases s with
    | none =>
        have moved : step start c = step' start c := same start c here
        dsimp only
        rw [moved]
    | some m =>
        have moved : step m c = step' m c := same m c here
        dsimp only
        rw [moved]

theorem Agree.leave (first : Agree agreed M M') (a : A) :
    Agree agreed (M.leave a) (M'.leave a) := by
  obtain ⟨S, start, step, step', final, final', ends, same⟩ := first
  exact Agree.intro _ _ _ _ _ _ (fun s => congrArg _ (ends s)) same

theorem Agree.finish (first : Agree agreed M M') (a : A) :
    Agree agreed (M.finish a) (M'.finish a) := by
  obtain ⟨S, start, step, step', final, final', ends, same⟩ := first
  obtain rfl : final = final' := funext ends
  refine Agree.intro _ _ _ _ _ _ ends ?_
  intro s c here
  exact congrArg _ (same s c here)

/-- A transition of `M`, with its states taken for those of `N`. -/
def stepAs {M N : Machine α A} (states : M.State = N.State) (s : N.State) (c : α) :
    Option (List A × N.State) :=
  (M.step (cast states.symm s) c).map fun t => (t.1, cast states t.2)

theorem Agree.states (agree : Agree agreed M N) : M.State = N.State := by
  cases agree
  rfl

theorem stepAs_rfl (M : Machine α A) (s : M.State) (c : α) :
    stepAs (rfl : M.State = M.State) s c = M.step s c := by
  unfold stepAs
  simp only [cast_eq]
  exact Option.map_id'

end Machine

namespace Expr

/-- The expressions differ in characters that are not agreed on. -/
inductive Alike (agreed : α → Prop) : Expr α A → Expr α A → Prop
  | empty : Alike agreed empty empty
  | chars {p p' : α → Bool} (same : ∀ c, agreed c → p c = p' c) :
      Alike agreed (chars p) (chars p')
  | alt {e e' f f' : Expr α A} (first : Alike agreed e e') (second : Alike agreed f f') :
      Alike agreed (alt e f) (alt e' f')
  | cat {e e' f f' : Expr α A} (first : Alike agreed e e') (second : Alike agreed f f') :
      Alike agreed (cat e f) (cat e' f')
  | guard {e e' f f' : Expr α A} (first : Alike agreed e e') (second : Alike agreed f f') :
      Alike agreed (guard e f) (guard e' f')
  | finGuard {e e' f f' : Expr α A} (first : Alike agreed e e') (second : Alike agreed f f') :
      Alike agreed (finGuard e f) (finGuard e' f')
  | star {e e' : Expr α A} (first : Alike agreed e e') : Alike agreed (star e) (star e')
  | enter {e e' : Expr α A} {a : A} (first : Alike agreed e e') :
      Alike agreed (enter e a) (enter e' a)
  | leave {e e' : Expr α A} {a : A} (first : Alike agreed e e') :
      Alike agreed (leave e a) (leave e' a)
  | finish {e e' : Expr α A} {a : A} (first : Alike agreed e e') :
      Alike agreed (finish e a) (finish e' a)

variable {agreed : α → Prop} {e e' : Expr α A}

namespace Alike

theorem refl (e : Expr α A) : Alike agreed e e := by
  induction e with
  | empty => exact .empty
  | chars p => exact .chars fun _ _ => rfl
  | alt _ _ ihe ihf => exact .alt ihe ihf
  | cat _ _ ihe ihf => exact .cat ihe ihf
  | guard _ _ ihe ihf => exact .guard ihe ihf
  | finGuard _ _ ihe ihf => exact .finGuard ihe ihf
  | star _ ih => exact .star ih
  | enter _ _ ih => exact .enter ih
  | leave _ _ ih => exact .leave ih
  | finish _ _ ih => exact .finish ih

theorem seq {es es' : List (Expr α A)} (each : List.Forall₂ (Alike agreed) es es') :
    Alike agreed (seq es) (Expr.seq es') := by
  induction each with
  | nil => exact .empty
  | cons first rest ih =>
      cases rest with
      | nil => exact first
      | cons second more => exact .cat first ih

theorem oneOf {es es' : List (Expr α A)} (each : List.Forall₂ (Alike agreed) es es') :
    Alike agreed (oneOf es) (Expr.oneOf es') := by
  induction each with
  | nil => exact .empty
  | cons first rest ih =>
      cases rest with
      | nil => exact first
      | cons second more => exact .alt first ih

theorem plus (same : Alike agreed e e') : Alike agreed (plus e) (Expr.plus e') :=
  .cat same (.star same)

theorem opt (same : Alike agreed e e') : Alike agreed (opt e) (Expr.opt e') := .alt same .empty

theorem embeddings (same : Alike agreed e e') : e.embeddings = e'.embeddings := by
  induction same with
  | empty | chars => rfl
  | alt _ _ ihe ihf | cat _ _ ihe ihf | guard _ _ ihe ihf | finGuard _ _ ihe ihf =>
      exact congrArg₂ (· + ·) ihe ihf
  | star _ ih => exact ih
  | enter _ ih | leave _ ih | finish _ ih => exact congrArg (· + 1) ih

/-- Their machines take the same transitions for the characters agreed on. -/
theorem machine (same : Alike agreed e e') (n : Nat) :
    Machine.Agree agreed (e.machine n) (e'.machine n) := by
  induction same generalizing n with
  | empty => exact Machine.Agree.intro _ _ _ _ _ _ (fun _ => rfl) fun _ _ _ => rfl
  | chars same =>
      refine Machine.Agree.intro _ _ _ _ _ _ (fun _ => rfl) ?_
      intro s c here
      rw [same c here]
  | alt first _ ihe ihf =>
      simp only [Expr.machine, ← first.embeddings]
      exact (ihe n).alt (ihf _)
  | cat first _ ihe ihf =>
      simp only [Expr.machine, ← first.embeddings]
      exact (ihe n).cat (ihf _)
  | guard first _ ihe ihf =>
      simp only [Expr.machine, ← first.embeddings]
      exact (ihe n).guard (ihf _)
  | finGuard first _ ihe ihf =>
      simp only [Expr.machine, ← first.embeddings]
      exact (ihe n).finGuard (ihf _)
  | star _ ih => exact (ih n).star
  | enter _ ih => exact (ih (n + 1)).enter _
  | leave first ih =>
      simp only [Expr.machine, ← first.embeddings]
      exact (ih n).leave _
  | finish first ih =>
      simp only [Expr.machine, ← first.embeddings]
      exact (ih n).finish _

end Alike

end Expr

end Ragel
