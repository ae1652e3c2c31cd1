import CorReactor.RagelWords

set_option autoImplicit false

/-! Actions that only come after another action, their cue. -/

namespace Ragel

variable {α A S T : Type} {cue act : A}

/-- The cue is among the actions. -/
def Given (cue : A) (as : List (Nat × A)) : Prop := ∃ k, (k, cue) ∈ as

/-- Each `act` comes with the cue, stamped before it. -/
def Cued (cue act : A) (as : List (Nat × A)) : Prop :=
  ∀ n, (n, act) ∈ as → ∃ k < n, (k, cue) ∈ as

theorem Cued.append {as bs : List (Nat × A)} (first : Cued cue act as) (second : Cued cue act bs) :
    Cued cue act (as ++ bs) := by
  intro n member
  rcases List.mem_append.mp member with inside | inside
  · obtain ⟨k, less, given⟩ := first n inside
    exact ⟨k, less, List.mem_append_left _ given⟩
  · obtain ⟨k, less, given⟩ := second n inside
    exact ⟨k, less, List.mem_append_right _ given⟩

theorem cued_of_forall_ne {as : List (Nat × A)} (never : ∀ a ∈ as, a.2 ≠ act) :
    Cued cue act as := by
  intro n member
  exact absurd rfl (never (n, act) member)

theorem cued_single {a : Nat × A} (other : a.2 ≠ act) : Cued cue act [a] :=
  cued_of_forall_ne fun _ member => List.mem_singleton.mp member ▸ other

theorem cued_nil : Cued cue act [] := by
  intro n member
  cases member

/-- An action behind lists that have their cues in themselves. -/
theorem cued_flatMap {xs : List (List (Nat × A) × S)} (each : ∀ x ∈ xs, Cued cue act x.1) :
    Cued cue act (xs.flatMap Prod.fst) := by
  intro n member
  obtain ⟨x, inside, found⟩ := List.mem_flatMap.mp member
  obtain ⟨k, less, given⟩ := each x inside n found
  exact ⟨k, less, List.mem_flatMap.mpr ⟨x, inside, given⟩⟩

namespace Machine

variable {M N : Machine α (Nat × A)} {R : M.State → Prop} {Q : N.State → Prop} {c : α}

/-- From these states on no `act` comes before the cue. -/
structure Waits (M : Machine α (Nat × A)) (cue act : A) (R : M.State → Prop) : Prop where
  start : R M.start
  step : ∀ s c as t, R s → M.step s c = some (as, t) → Cued cue act as ∧ (Given cue as ∨ R t)
  final : ∀ s waiting, R s → M.final s = some waiting → Cued cue act waiting

theorem gather_cued {lists : List (List (Nat × A))} {waiting : List (Nat × A)}
    (each : ∀ l ∈ lists, Cued cue act l) (gathered : gather lists = some waiting) :
    Cued cue act waiting := by
  cases lists with
  | nil => cases gathered
  | cons first rest =>
      cases gathered
      intro n member
      obtain ⟨l, inside, found⟩ := List.mem_flatten.mp member
      obtain ⟨k, less, given⟩ := each l inside n found
      exact ⟨k, less, List.mem_flatten.mpr ⟨l, inside, given⟩⟩

theorem join_cued {P : S → Prop} {Q : T → Prop} {l : Option (List (Nat × A) × S)}
    {rs : List (List (Nat × A) × T)} {as : List (Nat × A)} {t : Option S × List T}
    (first : ∀ x ∈ l, Cued cue act x.1 ∧ (Given cue x.1 ∨ P x.2))
    (second : ∀ x ∈ rs, Cued cue act x.1 ∧ (Given cue x.1 ∨ Q x.2))
    (joined : join l rs = some (as, t)) :
    Cued cue act as ∧ (Given cue as ∨ ((∀ m ∈ t.1, P m) ∧ ∀ n ∈ t.2, Q n)) := by
  have taken : as = l.toList.flatMap Prod.fst ++ rs.flatMap Prod.fst ∧
      t = (l.map Prod.snd, rs.map Prod.snd) := by
    cases l with
    | some x =>
        cases joined
        exact ⟨rfl, rfl⟩
    | none =>
        cases rs with
        | nil => cases joined
        | cons r rest =>
            cases joined
            exact ⟨rfl, rfl⟩
  obtain ⟨rfl, rfl⟩ := taken
  have of_first : ∀ x ∈ l.toList, Cued cue act x.1 ∧ (Given cue x.1 ∨ P x.2) :=
    fun x member => first x (Option.mem_toList.mp member)
  refine ⟨(cued_flatMap fun x member => (of_first x member).1).append
    (cued_flatMap fun x member => (second x member).1), ?_⟩
  by_cases given : Given cue (l.toList.flatMap Prod.fst ++ rs.flatMap Prod.fst)
  · exact Or.inl given
  · refine Or.inr ⟨?_, ?_⟩
    · intro m member
      obtain ⟨x, inside, rfl⟩ := Option.map_eq_some_iff.mp member
      refine (first x inside).2.resolve_left fun ⟨k, here⟩ => given ⟨k, ?_⟩
      exact List.mem_append_left _
        (List.mem_flatMap.mpr ⟨x, Option.mem_toList.mpr inside, here⟩)
    · intro n member
      obtain ⟨x, inside, rfl⟩ := List.mem_map.mp member
      refine (second x inside).2.resolve_left fun ⟨k, here⟩ => given ⟨k, ?_⟩
      exact List.mem_append_right _ (List.mem_flatMap.mpr ⟨x, inside, here⟩)

/-- Both parts of a composed machine still wait. -/
def Both (R : M.State → Prop) (Q : N.State → Prop) (s : Option M.State × List N.State) : Prop :=
  (∀ m ∈ s.1, R m) ∧ ∀ n ∈ s.2, Q n

theorem Waits.left (waits : M.Waits cue act R) {m : Option M.State} (held : ∀ x ∈ m, R x) :
    ∀ x ∈ M.left m c, Cued cue act x.1 ∧ (Given cue x.1 ∨ R x.2) := by
  intro x member
  obtain ⟨s, inside, step⟩ := Option.bind_eq_some_iff.mp member
  exact waits.step s c x.1 x.2 (held s inside) step

theorem Waits.right (waits : N.Waits cue act Q) {ns : List N.State} (held : ∀ n ∈ ns, Q n) :
    ∀ x ∈ N.right ns c, Cued cue act x.1 ∧ (Given cue x.1 ∨ Q x.2) := by
  intro x member
  obtain ⟨s, inside, step⟩ := List.mem_filterMap.mp member
  exact waits.step s c x.1 x.2 (held s inside) step

theorem Waits.entry (first : M.Waits cue act R) (second : N.Waits cue act Q)
    {m : Option M.State} (held : ∀ x ∈ m, R x) :
    ∀ x ∈ M.entry N m c, Cued cue act x.1 ∧ (Given cue x.1 ∨ Q x.2) := by
  intro x member
  obtain ⟨waiting, final, entered⟩ := Option.bind_eq_some_iff.mp member
  obtain ⟨s, inside, final⟩ := Option.bind_eq_some_iff.mp final
  obtain ⟨t, step, rfl⟩ := Option.map_eq_some_iff.mp entered
  have later := second.step _ _ t.1 t.2 second.start step
  refine ⟨(first.final s waiting (held s inside) final).append later.1, ?_⟩
  rcases later.2 with ⟨k, given⟩ | still
  · exact Or.inl ⟨k, List.mem_append_right _ given⟩
  · exact Or.inr still

theorem Waits.entering (first : M.Waits cue act R) (second : N.Waits cue act Q)
    {s : Option M.State × List N.State} (held : Both R Q s) :
    ∀ x ∈ (M.entry N s.1 c).toList ++ N.right s.2 c,
      Cued cue act x.1 ∧ (Given cue x.1 ∨ Q x.2) := by
  intro x member
  rcases List.mem_append.mp member with inside | inside
  · exact first.entry second held.1 x (Option.mem_toList.mp inside)
  · exact second.right held.2 x inside

theorem Waits.filterMap_final (waits : N.Waits cue act Q) {ns : List N.State}
    (held : ∀ n ∈ ns, Q n) : ∀ l ∈ ns.filterMap N.final, Cued cue act l := by
  intro l member
  obtain ⟨s, inside, final⟩ := List.mem_filterMap.mp member
  exact waits.final s l (held s inside) final

theorem Waits.catFinal (first : M.Waits cue act R) (second : N.Waits cue act Q)
    {s : Option M.State × List N.State} (held : Both R Q s) {waiting : List (Nat × A)}
    (final : catFinal M N s = some waiting) : Cued cue act waiting := by
  refine gather_cued ?_ final
  intro l member
  rcases List.mem_append.mp member with inside | inside
  · obtain ⟨before, left, through⟩ := Option.bind_eq_some_iff.mp (Option.mem_toList.mp inside)
    obtain ⟨m, here, left⟩ := Option.bind_eq_some_iff.mp left
    obtain ⟨after, empty, rfl⟩ := Option.map_eq_some_iff.mp through
    exact (first.final m before (held.1 m here) left).append
      (second.final _ after second.start empty)
  · exact second.filterMap_final held.2 l inside

theorem both_start (first : M.Waits cue act R) : Both R Q (some M.start, []) := by
  constructor
  · intro m member
    cases member
    exact first.start
  · intro n member
    cases member

theorem Waits.alt (first : M.Waits cue act R) (second : N.Waits cue act Q) :
    (M.alt N).Waits cue act (Both R Q) where
  start := by
    refine ⟨(both_start (Q := Q) first).1, ?_⟩
    intro n member
    rw [List.mem_singleton.mp member]
    exact second.start
  step := fun _ _ _ _ held step =>
    join_cued (first.left held.1) (second.right held.2) step
  final := by
    intro s waiting held final
    refine gather_cued ?_ final
    intro l member
    rcases List.mem_append.mp member with inside | inside
    · obtain ⟨m, here, left⟩ := Option.bind_eq_some_iff.mp (Option.mem_toList.mp inside)
      exact first.final m l (held.1 m here) left
    · exact second.filterMap_final held.2 l inside

theorem Waits.cat (first : M.Waits cue act R) (second : N.Waits cue act Q) :
    (M.cat N).Waits cue act (Both R Q) where
  start := both_start first
  step := fun _ _ _ _ held step =>
    join_cued (first.left held.1) (first.entering second held) step
  final := fun _ _ held final => first.catFinal second held final

theorem Waits.guard (first : M.Waits cue act R) (second : N.Waits cue act Q) :
    (M.guard N).Waits cue act (Both R Q) where
  start := both_start first
  step := by
    intro s c as t held step
    simp only [Machine.guard] at step
    split at step
    case h_1 x entered =>
      refine join_cued (fun x none_left => by cases none_left) ?_ step
      intro y member
      rcases List.mem_cons.mp member with rfl | inside
      · exact first.entry second held.1 y entered
      · exact second.right held.2 y inside
    case h_2 => exact join_cued (first.left held.1) (second.right held.2) step
  final := fun _ _ held final => first.catFinal second held final

theorem Waits.finGuard (first : M.Waits cue act R) (second : N.Waits cue act Q) :
    (M.finGuard N).Waits cue act (Both R Q) where
  start := both_start first
  step := by
    intro s c as t held step
    simp only [Machine.finGuard] at step
    split at step
    · exact join_cued (fun x none_left => by cases none_left) (first.entering second held) step
    · exact join_cued (first.left held.1) (first.entering second held) step
  final := fun _ _ held final => first.catFinal second held final

theorem Waits.again (waits : M.Waits cue act R) {ms : List M.State} (held : ∀ m ∈ ms, R m)
    {waiting : List (Nat × A)} (resumes : M.again ms = some waiting) : Cued cue act waiting := by
  unfold Machine.again at resumes
  split at resumes
  · cases resumes
    cases final : M.final M.start with
    | none => exact cued_nil
    | some waiting => exact waits.final _ waiting waits.start final
  · exact gather_cued (waits.filterMap_final held) resumes

theorem Waits.star (waits : M.Waits cue act R) :
    M.star.Waits cue act (fun ms : List M.State => ∀ m ∈ ms, R m) where
  start := by
    intro m member
    cases member
  step := by
    intro ms c as t held step
    have each : ∀ x ∈ M.right ms c ++ ((M.again ms).bind fun waiting =>
        (M.step M.start c).map fun t => (waiting ++ t.1, t.2)).toList,
        Cued cue act x.1 ∧ (Given cue x.1 ∨ R x.2) := by
      intro x member
      rcases List.mem_append.mp member with inside | inside
      · exact waits.right held x inside
      · obtain ⟨waiting, resumes, round⟩ :=
          Option.bind_eq_some_iff.mp (Option.mem_toList.mp inside)
        obtain ⟨t, first, rfl⟩ := Option.map_eq_some_iff.mp round
        have later := waits.step _ _ t.1 t.2 waits.start first
        refine ⟨(waits.again held resumes).append later.1, ?_⟩
        rcases later.2 with ⟨k, given⟩ | still
        · exact Or.inl ⟨k, List.mem_append_right _ given⟩
        · exact Or.inr still
    simp only [Machine.star] at step
    split at step
    case h_1 => cases step
    case h_2 ts _ =>
      cases step
      refine ⟨cued_flatMap fun x member => (each x member).1, ?_⟩
      by_cases given : Given cue (List.flatMap Prod.fst
          (M.right ms c ++ ((M.again ms).bind fun waiting =>
            (M.step M.start c).map fun t => (waiting ++ t.1, t.2)).toList))
      · exact Or.inl given
      · refine Or.inr fun m member => ?_
        obtain ⟨x, inside, rfl⟩ := List.mem_map.mp member
        refine (each x inside).2.resolve_left ?_
        rintro ⟨k, here⟩
        exact given ⟨k, List.mem_flatMap.mpr ⟨x, inside, here⟩⟩
  final := fun _ _ held final => waits.again held final

theorem Waits.enter {a : Nat × A} (waits : M.Waits cue act R) (other : a.2 ≠ act) :
    (M.enter a).Waits cue act (fun s : Option M.State => ∀ m ∈ s, R m) where
  start := by
    intro m member
    cases member
  step := by
    intro s c as t held step
    cases s with
    | none =>
        obtain ⟨x, first, same⟩ := Option.map_eq_some_iff.mp step
        cases same
        have inside := waits.step _ _ x.1 x.2 waits.start first
        refine ⟨(cued_single other).append inside.1, ?_⟩
        rcases inside.2 with ⟨k, given⟩ | still
        · exact Or.inl ⟨k, List.mem_cons_of_mem _ given⟩
        · refine Or.inr fun m member => ?_
          cases member
          exact still
    | some m =>
        obtain ⟨x, first, same⟩ := Option.map_eq_some_iff.mp step
        cases same
        have inside := waits.step m c x.1 x.2 (held m rfl) first
        refine ⟨inside.1, inside.2.imp_right fun still n member => ?_⟩
        cases member
        exact still
  final := by
    intro s waiting held final
    cases s with
    | none =>
        obtain ⟨before, first, rfl⟩ := Option.map_eq_some_iff.mp final
        exact (cued_single other).append (waits.final _ before waits.start first)
    | some m => exact waits.final m waiting (held m rfl) final

theorem Waits.leave {a : Nat × A} (waits : M.Waits cue act R) (other : a.2 ≠ act) :
    (M.leave a).Waits cue act R where
  start := waits.start
  step := waits.step
  final := by
    intro s waiting held final
    obtain ⟨before, first, rfl⟩ := Option.map_eq_some_iff.mp final
    exact (waits.final s before held first).append (cued_single other)

theorem Waits.finish {a : Nat × A} (waits : M.Waits cue act R) (other : a.2 ≠ act) :
    (M.finish a).Waits cue act R where
  start := waits.start
  step := by
    intro s c as t held step
    obtain ⟨x, first, same⟩ := Option.map_eq_some_iff.mp step
    cases same
    have inside := waits.step s c x.1 x.2 held first
    split
    · refine ⟨inside.1.append (cued_single other), ?_⟩
      rcases inside.2 with ⟨k, given⟩ | still
      · exact Or.inl ⟨k, List.mem_append_left _ given⟩
      · exact Or.inr still
    · exact inside
  final := waits.final

/-- What is entered behind the cue has it among its actions. -/
theorem cued_behind {k : Nat} {before after : List (Nat × A)}
    (first : ∀ a ∈ before, a.2 ≠ act) (differs : cue ≠ act) (second : ∀ a ∈ after, k < a.1) :
    Cued cue act (before ++ [(k, cue)] ++ after) ∧ Given cue (before ++ [(k, cue)] ++ after) := by
  have given : (k, cue) ∈ before ++ [(k, cue)] ++ after :=
    List.mem_append_left _ (List.mem_append_right _ (List.mem_singleton_self _))
  refine ⟨?_, k, given⟩
  intro n member
  rcases List.mem_append.mp member with earlier | inside
  · rcases List.mem_append.mp earlier with inside | last
    · exact absurd rfl (first _ inside)
    · cases List.mem_singleton.mp last
      exact absurd rfl differs
  · exact ⟨k, second _ inside, given⟩

/-- The cue is the leaving action of what comes first. -/
theorem Waits.behind {k : Nat} {q q' : α → Prop} (differs : cue ≠ act)
    (first : M.Within q fun a => a.2 ≠ act) (second : N.Within q' fun a => k < a.1) :
    ((M.leave (k, cue)).cat N).Waits cue act
      (fun s : Option M.State × List N.State => s.2 = []) where
  start := rfl
  step := by
    rintro ⟨m, ns⟩ c as ⟨m', ns'⟩ held step
    cases held
    have on_left : ∀ x ∈ (M.leave (k, cue)).left m c,
        Cued cue act x.1 ∧ (Given cue x.1 ∨ True) := by
      intro x member
      obtain ⟨s, -, step⟩ := Option.bind_eq_some_iff.mp member
      exact ⟨cued_of_forall_ne (first.step s c x.1 x.2 step).2, Or.inr trivial⟩
    have on_right : ∀ x ∈ ((M.leave (k, cue)).entry N m c).toList ++ N.right [] c,
        Cued cue act x.1 ∧ (Given cue x.1 ∨ False) := by
      intro x member
      rcases List.mem_append.mp member with inside | inside
      · obtain ⟨waiting, final, entered⟩ :=
          Option.bind_eq_some_iff.mp (Option.mem_toList.mp inside)
        obtain ⟨s, -, final⟩ := Option.bind_eq_some_iff.mp final
        obtain ⟨before, inner, rfl⟩ := Option.map_eq_some_iff.mp final
        obtain ⟨t, step, rfl⟩ := Option.map_eq_some_iff.mp entered
        have cued := cued_behind (first.final s before inner) differs
          (second.step _ _ t.1 t.2 step).2
        exact ⟨cued.1, Or.inl cued.2⟩
      · cases inside
    have joined := join_cued (P := fun _ => True) (Q := fun _ => False) on_left on_right step
    refine ⟨joined.1, joined.2.imp_right fun none_left => ?_⟩
    exact List.eq_nil_iff_forall_not_mem.mpr none_left.2
  final := by
    rintro ⟨m, ns⟩ waiting held final
    cases held
    refine gather_cued ?_ final
    intro l member
    rcases List.mem_append.mp member with inside | inside
    · obtain ⟨waiting, left, through⟩ :=
        Option.bind_eq_some_iff.mp (Option.mem_toList.mp inside)
      obtain ⟨s, -, left⟩ := Option.bind_eq_some_iff.mp left
      obtain ⟨before, inner, rfl⟩ := Option.map_eq_some_iff.mp left
      obtain ⟨after, empty, rfl⟩ := Option.map_eq_some_iff.mp through
      exact (cued_behind (first.final s before inner) differs (second.final _ after empty)).1
    · cases inside

end Machine

namespace Expr

variable [DecidableEq A]

/-- The cue is a leaving action of an expression without the other action. -/
def givesCue (cue act : A) : Expr α A → Bool
  | leave e a => a = cue && act ∉ e.actions
  | _ => false

/-- Where the action is written, the cue has been given. -/
def cues (cue act : A) : Expr α A → Bool
  | empty | chars _ => true
  | alt e f | guard e f | finGuard e f => e.cues cue act && f.cues cue act
  | cat e f => e.givesCue cue act || (e.cues cue act && f.cues cue act)
  | star e => e.cues cue act
  | enter e a | leave e a | finish e a => a ≠ act && e.cues cue act

variable {e : Expr α A}

theorem givesCue_cases (gives : e.givesCue cue act = true) :
    ∃ f, e = .leave f cue ∧ act ∉ f.actions := by
  cases e with
  | leave f a =>
      simp only [givesCue, Bool.and_eq_true, decide_eq_true_eq] at gives
      obtain ⟨rfl, never⟩ := gives
      exact ⟨f, rfl, never⟩
  | _ => cases gives

theorem waits_of_cues (differs : cue ≠ act) (cued : e.cues cue act = true) (n : Nat) :
    ∃ R, (e.machine n).Waits cue act R := by
  induction e generalizing n with
  | empty =>
      refine ⟨fun _ => True, trivial, ?_, ?_⟩
      · intro s c as t _ step
        cases step
      · intro s waiting _ final
        cases final
        exact cued_nil
  | chars p =>
      refine ⟨fun _ => True, trivial, ?_, ?_⟩
      · intro s c as t _ step
        simp only [machine, Machine.chars] at step
        split at step <;> cases step
        exact ⟨cued_nil, Or.inr trivial⟩
      · intro s waiting _ final
        simp only [machine, Machine.chars] at final
        split at final <;> cases final
        exact cued_nil
  | alt e f ihe ihf =>
      obtain ⟨first, second⟩ := Bool.and_eq_true_iff.mp cued
      obtain ⟨R, waits⟩ := ihe first n
      obtain ⟨Q, waits'⟩ := ihf second (n + e.embeddings)
      exact ⟨_, waits.alt waits'⟩
  | cat e f ihe ihf =>
      rcases Bool.or_eq_true_iff.mp cued with gives | both
      · obtain ⟨g, rfl, never⟩ := givesCue_cases gives
        refine ⟨_, Machine.Waits.behind differs ((machine_within g n).mono (fun _ => id) ?_)
          ((machine_within f _).mono (fun _ => id) ?_)⟩
        · rintro a ⟨-, member⟩ same
          exact never (same ▸ member)
        · rintro a ⟨stamped, -⟩
          exact stamped
      · obtain ⟨first, second⟩ := Bool.and_eq_true_iff.mp both
        obtain ⟨R, waits⟩ := ihe first n
        obtain ⟨Q, waits'⟩ := ihf second (n + e.embeddings)
        exact ⟨_, waits.cat waits'⟩
  | guard e f ihe ihf =>
      obtain ⟨first, second⟩ := Bool.and_eq_true_iff.mp cued
      obtain ⟨R, waits⟩ := ihe first n
      obtain ⟨Q, waits'⟩ := ihf second (n + e.embeddings)
      exact ⟨_, waits.guard waits'⟩
  | finGuard e f ihe ihf =>
      obtain ⟨first, second⟩ := Bool.and_eq_true_iff.mp cued
      obtain ⟨R, waits⟩ := ihe first n
      obtain ⟨Q, waits'⟩ := ihf second (n + e.embeddings)
      exact ⟨_, waits.finGuard waits'⟩
  | star e ih =>
      obtain ⟨R, waits⟩ := ih cued n
      exact ⟨_, waits.star⟩
  | enter e a ih =>
      obtain ⟨other, inner⟩ := Bool.and_eq_true_iff.mp cued
      obtain ⟨R, waits⟩ := ih inner (n + 1)
      exact ⟨_, waits.enter (of_decide_eq_true other)⟩
  | leave e a ih =>
      obtain ⟨other, inner⟩ := Bool.and_eq_true_iff.mp cued
      obtain ⟨R, waits⟩ := ih inner n
      exact ⟨_, waits.leave (of_decide_eq_true other)⟩
  | finish e a ih =>
      obtain ⟨other, inner⟩ := Bool.and_eq_true_iff.mp cued
      obtain ⟨R, waits⟩ := ih inner n
      exact ⟨_, waits.finish (of_decide_eq_true other)⟩

end Expr

/-! ### In the order of execution -/

/-- The cue stands before each `act`. -/
def Preceded (cue act : A) (as : List A) : Prop :=
  ∀ before after, as = before ++ act :: after → cue ∈ before

theorem Preceded.tail {a : A} {as : List A} (preceded : Preceded cue act (a :: as))
    (other : a ≠ cue) : Preceded cue act as := by
  intro before after same
  have inside := preceded (a :: before) after (by rw [same, List.cons_append])
  exact (List.mem_cons.mp inside).resolve_left (Ne.symm other)

theorem Preceded.head_ne {a : A} {as : List A} (preceded : Preceded cue act (a :: as)) :
    a ≠ act := by
  rintro rfl
  cases preceded [] as rfl

theorem Preceded.filter {p : A → Bool} {as : List A} (preceded : Preceded cue act as)
    (kept : p cue = true) : Preceded cue act (as.filter p) := by
  intro before after same
  obtain ⟨front, back, rfl, rfl, behind⟩ := List.filter_eq_append_iff.mp same
  obtain ⟨skipped, rest, rfl, none_kept, -, -⟩ := List.filter_eq_cons_iff.mp behind
  have inside := preceded (front ++ skipped) rest (by rw [List.append_assoc])
  rcases List.mem_append.mp inside with here | here
  · exact List.mem_filter.mpr ⟨here, kept⟩
  · exact absurd kept (none_kept cue here)

theorem Preceded.eraseDups [DecidableEq A] {as : List A} (preceded : Preceded cue act as) :
    Preceded cue act as.eraseDups := by
  generalize bound : as.length = size
  induction size using Nat.strong_induction_on generalizing as with
  | _ size ih =>
      cases as with
      | nil => exact preceded
      | cons a rest =>
          rw [List.eraseDups_cons]
          intro before after same
          cases before with
          | nil =>
              cases same
              exact absurd rfl preceded.head_ne
          | cons b before =>
              obtain ⟨rfl, tails⟩ := List.cons_eq_cons.mp same
              by_cases given : a = cue
              · exact List.mem_cons.mpr (Or.inl given.symm)
              · have kept : (!cue == a) = true := by simpa using Ne.symm given
                have shorter : (rest.filter fun b => !b == a).length < size := by
                  rw [← bound, List.length_cons]
                  exact Nat.lt_succ_of_le (List.length_filter_le _ _)
                exact List.mem_cons_of_mem _
                  (ih _ shorter ((preceded.tail given).filter kept) rfl before after tails)

theorem preceded_inOrder [DecidableEq A] {as : List (Nat × A)} (cued : Cued cue act as) :
    Preceded cue act (inOrder as) := by
  refine Preceded.eraseDups ?_
  intro before after same
  obtain ⟨front, behind, split, rfl, tails⟩ := List.map_eq_append_iff.mp same
  obtain ⟨⟨n, b⟩, back, rfl, rfl, rfl⟩ := List.map_eq_cons_iff.mp tails
  have sorted := List.pairwise_insertionSort (fun a b : Nat × A => a.1 ≤ b.1) as
  rw [split] at sorted
  have mem_iff : ∀ a, a ∈ as ↔ a ∈ front ++ (n, b) :: back := by
    intro a
    rw [← split, List.mem_insertionSort]
  obtain ⟨k, less, given⟩ := cued n ((mem_iff _).mpr (List.mem_append_right _ List.mem_cons_self))
  rcases List.mem_append.mp ((mem_iff _).mp given) with inside | inside
  · exact List.mem_map.mpr ⟨_, inside, rfl⟩
  · have later : n ≤ k := by
      rcases List.mem_cons.mp inside with equal | inside
      · exact Nat.le_of_eq (congrArg Prod.fst equal).symm
      · exact (List.pairwise_cons.mp (List.pairwise_append.mp sorted).2.1).1 _ inside
    exact absurd less (Nat.not_lt.mpr later)

end Ragel
