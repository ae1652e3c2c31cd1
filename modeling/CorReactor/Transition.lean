import Mathlib.Data.List.Basic

set_option autoImplicit false

/-! Deterministic machines that may get stuck: runs over a list of actions, the
invariant rules, and forward simulation. -/

namespace Transition

variable {σ τ α ο : Type*}

/-- One action of a machine: its output and the next state, or `none` where the
action cannot complete. -/
abbrev Step (σ α ο : Type*) := σ → α → Option (ο × σ)

/-- Execute a list of actions, collecting the outputs in order. -/
def run (step : Step σ α ο) : σ → List α → Option (List ο × σ)
  | s, [] => some ([], s)
  | s, a :: rest =>
      (step s a).bind fun next =>
        (run step next.2 rest).map fun last => (next.1 :: last.1, last.2)

@[simp] theorem run_nil (step : Step σ α ο) (s : σ) : run step s [] = some ([], s) := rfl

theorem run_cons_iff (step : Step σ α ο) (s u : σ) (a : α) (rest : List α) (os : List ο) :
    run step s (a :: rest) = some (os, u) ↔
      ∃ o t tail, step s a = some (o, t) ∧ run step t rest = some (tail, u) ∧ os = o :: tail := by
  simp only [run, Option.bind_eq_some_iff, Option.map_eq_some_iff, Prod.exists, Prod.mk.injEq]
  constructor
  · rintro ⟨o, t, first, tail, v, after, rfl, rfl⟩
    exact ⟨o, t, tail, first, after, rfl⟩
  · rintro ⟨o, t, tail, first, after, rfl⟩
    exact ⟨o, t, first, tail, u, after, rfl, rfl⟩

theorem run_append_iff (step : Step σ α ο) (s u : σ) (first second : List α) (os : List ο) :
    run step s (first ++ second) = some (os, u) ↔
      ∃ front t back, run step s first = some (front, t) ∧
        run step t second = some (back, u) ∧ os = front ++ back := by
  induction first generalizing s os with
  | nil =>
      simp only [List.nil_append, run_nil, Option.some.injEq, Prod.mk.injEq]
      constructor
      · intro taken
        exact ⟨[], s, os, ⟨rfl, rfl⟩, taken, rfl⟩
      · rintro ⟨front, t, back, ⟨rfl, rfl⟩, taken, rfl⟩
        exact taken
  | cons a rest ih =>
      simp only [List.cons_append, run_cons_iff]
      constructor
      · rintro ⟨o, m, tail, head, after, rfl⟩
        obtain ⟨front, t, back, middle, last, rfl⟩ := (ih m tail).mp after
        exact ⟨o :: front, t, back, ⟨o, m, front, head, middle, rfl⟩, last, rfl⟩
      · rintro ⟨_, t, back, ⟨o, m, front, head, middle, rfl⟩, last, rfl⟩
        exact ⟨o, m, front ++ back, head, (ih m _).mpr ⟨front, t, back, middle, last, rfl⟩, rfl⟩

/-- Outputs and actions of a completed run pair up. -/
theorem run_length (step : Step σ α ο) {s t : σ} {as : List α} {os : List ο}
    (taken : run step s as = some (os, t)) : os.length = as.length := by
  induction as generalizing s os with
  | nil => cases taken; rfl
  | cons a rest ih =>
      obtain ⟨o, m, tail, -, after, rfl⟩ := (run_cons_iff step s t a rest os).mp taken
      simp only [List.length_cons, ih after]

/-- A state some completed run ends in. -/
def Reachable (step : Step σ α ο) (init s : σ) : Prop :=
  ∃ as os, run step init as = some (os, s)

theorem Reachable.refl (step : Step σ α ο) (init : σ) : Reachable step init init :=
  ⟨[], [], rfl⟩

theorem Reachable.step {step : Step σ α ο} {init s t : σ} {a : α} {o : ο}
    (reached : Reachable step init s) (taken : step s a = some (o, t)) :
    Reachable step init t := by
  obtain ⟨as, os, whole⟩ := reached
  refine ⟨as ++ [a], os ++ [o], (run_append_iff step init t as [a] _).mpr ?_⟩
  exact ⟨os, s, [o], whole, (run_cons_iff step s t a [] _).mpr ⟨o, t, [], taken, rfl, rfl⟩, rfl⟩

theorem Reachable.head {step : Step σ α ο} {s t u : σ} {a : α} {o : ο}
    (taken : step s a = some (o, t)) (reached : Reachable step t u) : Reachable step s u := by
  obtain ⟨as, os, whole⟩ := reached
  exact ⟨a :: as, o :: os, (run_cons_iff step s u a as _).mpr ⟨o, t, os, taken, whole, rfl⟩⟩

theorem Reachable.trans {step : Step σ α ο} {s t u : σ} (first : Reachable step s t)
    (second : Reachable step t u) : Reachable step s u := by
  obtain ⟨as, os, front⟩ := first
  obtain ⟨as', os', back⟩ := second
  exact ⟨as ++ as', os ++ os', (run_append_iff step s u as as' _).mpr
    ⟨os, t, os', front, back, rfl⟩⟩

/-- The relation holds of each action of a run and the state it is taken in, for as
long as the run does not get stuck. -/
def Along (step : Step σ α ο) (guard : σ → α → Prop) : σ → List α → Prop
  | _, [] => True
  | s, a :: rest => guard s a ∧ ∀ o t, step s a = some (o, t) → Along step guard t rest

theorem Along.cons {step : Step σ α ο} {guard : σ → α → Prop} {s t : σ} {a : α} {o : ο}
    {rest : List α} (good : guard s a) (first : step s a = some (o, t))
    (later : Along step guard t rest) : Along step guard s (a :: rest) := by
  refine ⟨good, ?_⟩
  intro o' t' again
  rw [first] at again
  cases again
  exact later

theorem Along.mono {step : Step σ α ο} {guard guard' : σ → α → Prop} {as : List α}
    (weaker : ∀ s a, guard s a → guard' s a) {s : σ} (along : Along step guard s as) :
    Along step guard' s as := by
  induction as generalizing s with
  | nil => trivial
  | cons a rest ih => exact ⟨weaker s a along.1, fun o t taken => ih (along.2 o t taken)⟩

theorem Along.and {step : Step σ α ο} {guard guard' : σ → α → Prop} {s : σ} {as : List α}
    (first : Along step guard s as) (second : Along step guard' s as) :
    Along step (fun s a => guard s a ∧ guard' s a) s as := by
  induction as generalizing s with
  | nil => trivial
  | cons a rest ih =>
      exact ⟨⟨first.1, second.1⟩, fun o t taken => ih (first.2 o t taken) (second.2 o t taken)⟩

/-- What an invariant and a guard give of each action, where the guard keeps the invariant. -/
theorem Along.of_invariant {step : Step σ α ο} {guard guard' : σ → α → Prop} {inv : σ → Prop}
    (gives : ∀ s a, inv s → guard s a → guard' s a)
    (keep : ∀ s a o t, inv s → guard s a → step s a = some (o, t) → inv t)
    {s : σ} {as : List α} (start : inv s) (along : Along step guard s as) :
    Along step guard' s as := by
  induction as generalizing s with
  | nil => trivial
  | cons a rest ih =>
      refine ⟨gives s a start along.1, fun o t taken => ?_⟩
      exact ih (keep s a o t start along.1 taken) (along.2 o t taken)

/-- A guard that every action of the list meets in any state. -/
theorem Along.of_mem {step : Step σ α ο} {guard : σ → α → Prop} {as : List α}
    (always : ∀ a ∈ as, ∀ s, guard s a) (s : σ) : Along step guard s as := by
  induction as generalizing s with
  | nil => trivial
  | cons a rest ih =>
      exact ⟨always a List.mem_cons_self s,
        fun _ t _ => ih (fun b member => always b (List.mem_cons_of_mem a member)) t⟩

/-- Along a completed run a guard on the actions alone holds of each action. -/
theorem along_iff_forall_mem {step : Step σ α ο} {guard : α → Prop} {s t : σ} {as : List α}
    {os : List ο} (taken : run step s as = some (os, t)) :
    Along step (fun _ a => guard a) s as ↔ ∀ a ∈ as, guard a := by
  constructor
  · intro along
    induction as generalizing s os with
    | nil =>
        intro a member
        cases member
    | cons b rest ih =>
        obtain ⟨o, m, tail, first, after, -⟩ := (run_cons_iff step s t b rest os).mp taken
        intro a member
        rcases List.mem_cons.mp member with rfl | later
        · exact along.1
        · exact ih after (along.2 o m first) a later
  · intro always
    exact Along.of_mem (fun a member _ => always a member) s

/-- A guard that can be decided can be decided along a run. -/
instance Along.decidable (step : Step σ α ο) (guard : σ → α → Prop)
    [∀ s a, Decidable (guard s a)] : (s : σ) → (as : List α) → Decidable (Along step guard s as)
  | _, [] => isTrue trivial
  | s, a :: rest =>
      match taken : step s a with
      | none => decidable_of_iff (guard s a) (by simp [Along, taken])
      | some (_, t) =>
          have := Along.decidable step guard t rest
          decidable_of_iff (guard s a ∧ Along step guard t rest) (by simp [Along, taken])

/-- Guarded invariant rule: a step taken under the guard keeps the invariant, so a
guarded run ends in it. -/
theorem run_invariant {step : Step σ α ο} {guard : σ → α → Prop} {inv : σ → Prop}
    (keep : ∀ s a o t, inv s → guard s a → step s a = some (o, t) → inv t)
    {s t : σ} {as : List α} {os : List ο} (start : inv s) (along : Along step guard s as)
    (taken : run step s as = some (os, t)) : inv t := by
  induction as generalizing s os with
  | nil => cases taken; exact start
  | cons a rest ih =>
      obtain ⟨o, m, tail, first, after, -⟩ := (run_cons_iff step s t a rest os).mp taken
      exact ih (keep s a o m start along.1 first) (along.2 o m first) after

theorem Reachable.invariant {step : Step σ α ο} {inv : σ → Prop}
    (keep : ∀ s a o t, inv s → step s a = some (o, t) → inv t)
    {init s : σ} (start : inv init) (reached : Reachable step init s) : inv s := by
  obtain ⟨as, os, taken⟩ := reached
  have always : Along step (fun _ _ => True) init as :=
    Along.of_mem (fun _ _ _ => trivial) init
  exact run_invariant (fun s a o t holds _ => keep s a o t holds) start always taken

/-- Invariant rule with the history of actions and outputs carried along. -/
theorem run_history {step : Step σ α ο} {guard : σ → α → Prop}
    {inv : List (α × ο) → σ → Prop}
    (keep : ∀ h s a o t, inv h s → guard s a → step s a = some (o, t) → inv (h ++ [(a, o)]) t)
    {s t : σ} {as : List α} {os : List ο} {h : List (α × ο)} (start : inv h s)
    (along : Along step guard s as) (taken : run step s as = some (os, t)) :
    inv (h ++ as.zip os) t := by
  induction as generalizing s os h with
  | nil =>
      cases taken
      simpa only [List.zip_nil_left, List.append_nil] using start
  | cons a rest ih =>
      obtain ⟨o, m, tail, first, after, rfl⟩ := (run_cons_iff step s t a rest os).mp taken
      have next := ih (keep h s a o m start along.1 first) (along.2 o m first) after
      simpa only [List.zip_cons_cons, List.append_assoc, List.singleton_append] using next

/-- Forward simulation: matching guarded steps give matching guarded runs with the
same outputs. -/
theorem run_simulates {step : Step σ α ο} {step' : Step τ α ο} {guard : σ → α → Prop}
    {rel : σ → τ → Prop}
    (sim : ∀ s t a o s', rel s t → guard s a → step s a = some (o, s') →
      ∃ t', step' t a = some (o, t') ∧ rel s' t')
    {s s' : σ} {t : τ} {as : List α} {os : List ο} (start : rel s t)
    (along : Along step guard s as) (taken : run step s as = some (os, s')) :
    ∃ t', run step' t as = some (os, t') ∧ rel s' t' := by
  induction as generalizing s t os with
  | nil => cases taken; exact ⟨t, rfl, start⟩
  | cons a rest ih =>
      obtain ⟨o, m, tail, first, after, rfl⟩ := (run_cons_iff step s s' a rest os).mp taken
      obtain ⟨n, matched, related⟩ := sim s t a o m start along.1 first
      obtain ⟨t', whole, final⟩ := ih related (along.2 o m first) after
      exact ⟨t', (run_cons_iff step' t t' a rest _).mpr ⟨o, n, tail, matched, whole, rfl⟩, final⟩

/-- The property holds of every state of a run, the first one included. -/
def Always (step : Step σ α ο) (P : σ → Prop) : σ → List α → Prop
  | s, [] => P s
  | s, a :: rest => P s ∧ ∀ o t, step s a = some (o, t) → Always step P t rest

/-- Where, as far as the run stays within the base guard, a second guard is exactly what
keeps the property, the property holds along a completed run exactly when that guard does. -/
theorem always_iff_along_within {step : Step σ α ο} {base guard : σ → α → Prop} {P inv : σ → Prop}
    (holds : ∀ s, inv s → P s)
    (keep : ∀ s a o t, inv s → base s a → guard s a → step s a = some (o, t) → inv t)
    (breaks : ∀ s a o t, inv s → base s a → ¬ guard s a → step s a = some (o, t) → ¬ P t)
    {s t : σ} {as : List α} {os : List ο} (start : inv s) (within : Along step base s as)
    (taken : run step s as = some (os, t)) :
    Always step P s as ↔ Along step guard s as := by
  induction as generalizing s os with
  | nil => exact ⟨fun _ => trivial, fun _ => holds s start⟩
  | cons a rest ih =>
      obtain ⟨o, m, tail, first, after, -⟩ := (run_cons_iff step s t a rest os).mp taken
      have next : ∀ o' t', step s a = some (o', t') → t' = m := by
        intro o' t' again
        rw [first] at again
        cases again
        rfl
      have rest_iff : guard s a → (Always step P m rest ↔ Along step guard m rest) := fun good =>
        ih (keep s a o m start within.1 good first) (within.2 o m first) after
      constructor
      · rintro ⟨-, later⟩
        have good : guard s a := by
          by_contra bad
          have always := later o m first
          apply breaks s a o m start within.1 bad first
          cases rest with
          | nil => exact always
          | cons b rest => exact always.1
        refine ⟨good, ?_⟩
        intro o' t' again
        rw [next o' t' again]
        exact (rest_iff good).mp (later o m first)
      · rintro ⟨good, later⟩
        refine ⟨holds s start, ?_⟩
        intro o' t' again
        rw [next o' t' again]
        exact (rest_iff good).mpr (later o m first)

/-- Where the guard is exactly what keeps the property, it holds along a completed run
exactly when the guard does. -/
theorem always_iff_along {step : Step σ α ο} {guard : σ → α → Prop} {P inv : σ → Prop}
    (holds : ∀ s, inv s → P s)
    (keep : ∀ s a o t, inv s → guard s a → step s a = some (o, t) → inv t)
    (breaks : ∀ s a o t, inv s → ¬ guard s a → step s a = some (o, t) → ¬ P t)
    {s t : σ} {as : List α} {os : List ο} (start : inv s) (taken : run step s as = some (os, t)) :
    Always step P s as ↔ Along step guard s as :=
  always_iff_along_within holds (fun s a o t inv (_ : True) => keep s a o t inv)
    (fun s a o t inv _ => breaks s a o t inv) start
    (Along.of_mem (fun _ _ _ => trivial) s) taken

/-- A property that comes with entering a phase no run leaves, and that within the phase the
guard is exactly what keeps: in the phase it holds exactly where the guard has been met. -/
theorem settled_iff_along {step : Step σ α ο} {base guard : σ → α → Prop} {P inv gone : σ → Prop}
    (keep : ∀ s a o t, inv s → base s a → step s a = some (o, t) → inv t)
    (enters : ∀ s a o t, inv s → base s a → ¬ gone s → step s a = some (o, t) → gone t → P t)
    (stays : ∀ s a o t, inv s → base s a → gone s → step s a = some (o, t) →
      gone t ∧ (P t ↔ P s ∧ guard s a))
    {s t : σ} {as : List α} {os : List ο} (start : inv s) (within : Along step base s as)
    (taken : run step s as = some (os, t)) (ended : gone t) :
    P t ↔ (gone s → P s) ∧ Along step (fun s a => gone s → guard s a) s as := by
  induction as generalizing s os with
  | nil =>
      cases taken
      exact ⟨fun holds => ⟨fun _ => holds, trivial⟩, fun both => both.1 ended⟩
  | cons a rest ih =>
      obtain ⟨o, m, tail, first, after, -⟩ := (run_cons_iff step s t a rest os).mp taken
      have later := ih (keep s a o m start within.1 first) (within.2 o m first) after
      have unfold : Along step (fun s a => gone s → guard s a) s (a :: rest) ↔
          (gone s → guard s a) ∧ Along step (fun s a => gone s → guard s a) m rest := by
        constructor
        · exact fun along => ⟨along.1, along.2 o m first⟩
        · exact fun both => .cons both.1 first both.2
      rw [later, unfold]
      by_cases before : gone s
      · obtain ⟨remains, exactly⟩ := stays s a o m start within.1 before first
        simp only [before, remains, exactly, forall_const, and_assoc]
      · have fresh : gone m → P m := enters s a o m start within.1 before first
        simp only [before, IsEmpty.forall_iff, true_and]
        exact ⟨And.right, fun along => ⟨fresh, along⟩⟩

end Transition
