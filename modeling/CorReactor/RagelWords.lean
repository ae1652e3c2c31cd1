import CorReactor.RagelRuns

set_option autoImplicit false

/-! The words of Ragel expressions, and what the expressions of a machine's transitions say of
its characters and actions. -/

namespace Ragel

variable {α A S T : Type}

namespace Machine

/-- The word leads from the state to a final one. -/
def acceptsFrom (M : Machine α A) : M.State → List α → Bool
  | s, [] => (M.final s).isSome
  | s, c :: w =>
      match M.step s c with
      | none => false
      | some t => M.acceptsFrom t.2 w

def accepts (M : Machine α A) (w : List α) : Bool := M.acceptsFrom M.start w

/-- The machine reads only these characters, and has only these actions on its transitions and
in its final states. -/
structure Within (M : Machine α A) (q : α → Prop) (p : A → Prop) : Prop where
  step : ∀ s c as t, M.step s c = some (as, t) → q c ∧ ∀ a ∈ as, p a
  final : ∀ s waiting, M.final s = some waiting → ∀ a ∈ waiting, p a

variable {M N : Machine α A} {c : α} {u v w : List α}

/-! ### Words -/

theorem acceptsFrom_cons {s : M.State} (accepted : M.acceptsFrom s (c :: w) = true) :
    ∃ as t, M.step s c = some (as, t) ∧ M.acceptsFrom t w = true := by
  unfold acceptsFrom at accepted
  cases step : M.step s c with
  | none =>
      rw [step] at accepted
      cases accepted
  | some t =>
      rw [step] at accepted
      exact ⟨t.1, t.2, rfl, accepted⟩

theorem acceptsFrom_of_step {s t : M.State} {as : List A} (step : M.step s c = some (as, t))
    (rest : M.acceptsFrom t w = true) : M.acceptsFrom s (c :: w) = true := by
  rw [acceptsFrom, step]
  exact rest

theorem gather_isSome {lists : List (List A)} (waiting : List A) (member : waiting ∈ lists) :
    (gather lists).isSome = true := by
  cases lists with
  | nil => cases member
  | cons first rest => rfl

theorem mem_right {n n' : N.State} {ns : List N.State} {as : List A} (member : n ∈ ns)
    (step : N.step n c = some (as, n')) : (as, n') ∈ N.right ns c :=
  List.mem_filterMap.mpr ⟨n, member, step⟩

/-- Two parts side by side, of which the first goes on. -/
theorem join_of_left (l : List A × S) (rs : List (List A × T)) :
    ∃ as, join (some l) rs = some (as, (some l.2, rs.map Prod.snd)) :=
  ⟨_, join_some l rs⟩

/-- Two parts side by side, of which the second goes on. -/
theorem join_of_right {l : Option (List A × S)} {r : List A × T} {rs : List (List A × T)}
    (member : r ∈ rs) : ∃ as, join l rs = some (as, (l.map Prod.snd, rs.map Prod.snd)) := by
  cases l with
  | some l => exact join_of_left l rs
  | none =>
      cases rs with
      | nil => cases member
      | cons first rest => exact ⟨_, join_none_cons first rest⟩

theorem acceptsFrom_alt_left {m : M.State} {ns : List N.State}
    (accepted : M.acceptsFrom m w = true) : (alt M N).acceptsFrom (some m, ns) w = true := by
  induction w generalizing m ns with
  | nil =>
      obtain ⟨waiting, final⟩ := Option.isSome_iff_exists.mp accepted
      refine gather_isSome waiting (List.mem_append_left _ ?_)
      rw [Option.bind_some, final]
      exact List.mem_singleton_self _
  | cons c w ih =>
      obtain ⟨as, m', step, rest⟩ := acceptsFrom_cons accepted
      obtain ⟨bs, both⟩ := join_of_left (as, m') (N.right ns c)
      have steps : (alt M N).step (some m, ns) c =
          some (bs, (some m', (N.right ns c).map Prod.snd)) := by
        simp only [alt, left, Option.bind_some, step, both]
      exact acceptsFrom_of_step steps (ih rest)

theorem acceptsFrom_alt_right {m : Option M.State} {n : N.State} {ns : List N.State}
    (member : n ∈ ns) (accepted : N.acceptsFrom n w = true) :
    (alt M N).acceptsFrom (m, ns) w = true := by
  induction w generalizing m n ns with
  | nil =>
      obtain ⟨waiting, final⟩ := Option.isSome_iff_exists.mp accepted
      exact gather_isSome _ (List.mem_append_right _ (List.mem_filterMap.mpr ⟨n, member, final⟩))
  | cons c w ih =>
      obtain ⟨as, n', step, rest⟩ := acceptsFrom_cons accepted
      have inside := mem_right member step
      obtain ⟨bs, both⟩ := join_of_right (l := M.left m c) inside
      exact acceptsFrom_of_step (M := alt M N) (s := (m, ns)) both
        (ih (List.mem_map.mpr ⟨_, inside, rfl⟩) rest)

theorem accepts_alt_left (accepted : M.accepts w = true) : (alt M N).accepts w = true :=
  acceptsFrom_alt_left accepted

theorem accepts_alt_right (accepted : N.accepts w = true) : (alt M N).accepts w = true :=
  acceptsFrom_alt_right List.mem_cons_self accepted

theorem acceptsFrom_cat_right {m : Option M.State} {n : N.State} {ns : List N.State}
    (member : n ∈ ns) (accepted : N.acceptsFrom n w = true) :
    (cat M N).acceptsFrom (m, ns) w = true := by
  induction w generalizing m n ns with
  | nil =>
      obtain ⟨waiting, final⟩ := Option.isSome_iff_exists.mp accepted
      exact gather_isSome _ (List.mem_append_right _ (List.mem_filterMap.mpr ⟨n, member, final⟩))
  | cons c w ih =>
      obtain ⟨as, n', step, rest⟩ := acceptsFrom_cons accepted
      have inside := List.mem_append_right (M.entry N m c).toList (mem_right member step)
      obtain ⟨bs, both⟩ := join_of_right (l := M.left m c) inside
      exact acceptsFrom_of_step (M := cat M N) (s := (m, ns)) both
        (ih (List.mem_map.mpr ⟨_, inside, rfl⟩) rest)

theorem acceptsFrom_cat {m : M.State} {ns : List N.State} (first : M.acceptsFrom m u = true)
    (second : N.accepts v = true) : (cat M N).acceptsFrom (some m, ns) (u ++ v) = true := by
  induction u generalizing m ns with
  | nil =>
      obtain ⟨waiting, final⟩ := Option.isSome_iff_exists.mp first
      rw [List.nil_append]
      cases v with
      | nil =>
          obtain ⟨later, empty⟩ := Option.isSome_iff_exists.mp second
          refine gather_isSome (waiting ++ later) (List.mem_append_left _ ?_)
          rw [Option.bind_some, final, Option.bind_some, empty]
          exact List.mem_singleton_self _
      | cons c v =>
          obtain ⟨as, n, step, rest⟩ := acceptsFrom_cons second
          have inside : (waiting ++ as, n) ∈ (M.entry N (some m) c).toList ++ N.right ns c := by
            rw [entry_eq_some final step]
            exact List.mem_cons_self
          obtain ⟨bs, both⟩ := join_of_right (l := M.left (some m) c) inside
          exact acceptsFrom_of_step (M := cat M N) (s := (some m, ns)) both
            (acceptsFrom_cat_right (List.mem_map.mpr ⟨_, inside, rfl⟩) rest)
  | cons c u ih =>
      obtain ⟨as, m', step, rest⟩ := acceptsFrom_cons first
      obtain ⟨bs, both⟩ := join_of_left (as, m')
        ((M.entry N (some m) c).toList ++ N.right ns c)
      have steps : (cat M N).step (some m, ns) c =
          some (bs, (some m', ((M.entry N (some m) c).toList ++ N.right ns c).map Prod.snd)) := by
        simp only [cat, left, Option.bind_some, step, both]
      exact acceptsFrom_of_step steps (ih rest)

theorem accepts_cat (first : M.accepts u = true) (second : N.accepts v = true) :
    (cat M N).accepts (u ++ v) = true := acceptsFrom_cat first second

/-- A loop over words of one character, from any state where a round can begin. -/
theorem acceptsFrom_star (ms : List M.State) (begins : (M.again ms).isSome)
    (each : ∀ c ∈ w, M.accepts [c] = true) : M.star.acceptsFrom ms w = true := by
  induction w generalizing ms with
  | nil => exact begins
  | cons c w ih =>
      obtain ⟨as, m, step, final⟩ := acceptsFrom_cons (each c List.mem_cons_self)
      obtain ⟨waiting, resumes⟩ := Option.isSome_iff_exists.mp begins
      have inside : (waiting ++ as, m) ∈ M.right ms c ++ [(waiting ++ as, m)] :=
        List.mem_append_right _ (List.mem_singleton_self _)
      have steps : ∃ bs, M.star.step ms c =
          some (bs, (M.right ms c ++ [(waiting ++ as, m)]).map Prod.snd) := by
        simp only [star, resumes, Option.bind_some, step, Option.map_some, Option.toList_some]
        split
        case h_1 empty =>
          rw [empty] at inside
          cases inside
        case h_2 => exact ⟨_, rfl⟩
      obtain ⟨bs, step⟩ := steps
      refine acceptsFrom_of_step step
        (ih _ ?_ fun d member => each d (List.mem_cons_of_mem _ member))
      obtain ⟨last, final⟩ := Option.isSome_iff_exists.mp final
      unfold again
      split
      · rfl
      · exact gather_isSome _ (List.mem_filterMap.mpr ⟨m, List.mem_map.mpr ⟨_, inside, rfl⟩, final⟩)

theorem accepts_star (each : ∀ c ∈ w, M.accepts [c] = true) : M.star.accepts w = true :=
  acceptsFrom_star [] rfl each

theorem accepts_chars {p : α → Bool} (holds : p c = true) :
    (chars p : Machine α A).accepts [c] = true := by
  simp only [accepts, acceptsFrom, chars, Bool.not_false, Bool.true_and, holds, ↓reduceIte,
    Option.isSome_some]

theorem acceptsFrom_leave {a : A} {s : M.State} :
    (M.leave a).acceptsFrom s w = M.acceptsFrom s w := by
  induction w generalizing s with
  | nil => exact Option.isSome_map
  | cons c w ih =>
      have same : (M.leave a).step s c = M.step s c := rfl
      simp only [acceptsFrom, same]
      cases M.step s c with
      | none => rfl
      | some t => exact ih

theorem acceptsFrom_enter {a : A} {s : M.State} :
    (M.enter a).acceptsFrom (some s) w = M.acceptsFrom s w := by
  induction w generalizing s with
  | nil => rfl
  | cons c w ih =>
      have inside : (M.enter a).step (some s) c = (M.step s c).map fun t => (t.1, some t.2) := rfl
      simp only [acceptsFrom, inside]
      cases M.step s c with
      | none => rfl
      | some t => exact ih

/-- Embedded actions do not change the words. -/
theorem accepts_leave {a : A} : (M.leave a).accepts w = M.accepts w := acceptsFrom_leave

theorem accepts_enter {a : A} : (M.enter a).accepts w = M.accepts w := by
  cases w with
  | nil => exact Option.isSome_map
  | cons c w =>
      have first : (M.enter a).step none c = (M.step M.start c).map fun t => (a :: t.1, some t.2) :=
        rfl
      have start : (M.enter a).start = none := rfl
      simp only [accepts, acceptsFrom, start, first]
      cases M.step M.start c with
      | none => rfl
      | some t => exact acceptsFrom_enter

/-! ### Characters and actions -/

variable {q q' : α → Prop} {p p' : A → Prop}

theorem Within.mono (within : M.Within q p) (characters : ∀ c, q c → q' c)
    (actions : ∀ a, p a → p' a) : M.Within q' p' where
  step := fun s c as t step =>
    ⟨characters c (within.step s c as t step).1,
      fun a member => actions a ((within.step s c as t step).2 a member)⟩
  final := fun s waiting final a member => actions a (within.final s waiting final a member)

theorem within_empty : (empty : Machine α A).Within q p := by
  constructor
  · intro s c as t step
    cases step
  · intro s waiting final a member
    cases final
    cases member

theorem within_chars {f : α → Bool} : (chars f : Machine α A).Within (fun c => f c = true) p := by
  constructor
  · intro s c as t step
    simp only [chars] at step
    split at step
    case isTrue holds =>
      cases step
      refine ⟨(Bool.and_eq_true_iff.mp holds).2, ?_⟩
      intro a member
      cases member
    case isFalse => cases step
  · intro s waiting final a member
    simp only [chars] at final
    split at final <;> cases final
    cases member

theorem gather_within {lists : List (List A)} {waiting : List A}
    (each : ∀ l ∈ lists, ∀ a ∈ l, p a) (gathered : gather lists = some waiting) :
    ∀ a ∈ waiting, p a := by
  cases lists with
  | nil => cases gathered
  | cons first rest =>
      cases gathered
      intro a member
      obtain ⟨l, inside, found⟩ := List.mem_flatten.mp member
      exact each l inside a found

theorem join_within {l : Option (List A × S)} {rs : List (List A × T)} {as : List A}
    {t : Option S × List T} (first : ∀ x ∈ l, q c ∧ ∀ a ∈ x.1, p a)
    (second : ∀ x ∈ rs, q c ∧ ∀ a ∈ x.1, p a) (joined : join l rs = some (as, t)) :
    q c ∧ ∀ a ∈ as, p a := by
  have taken : as = l.toList.flatMap Prod.fst ++ rs.flatMap Prod.fst ∧
      ((∃ x, l = some x) ∨ ∃ x, x ∈ rs) := by
    cases l with
    | some x =>
        rw [join_some] at joined
        cases joined
        refine ⟨?_, Or.inl ⟨x, rfl⟩⟩
        simp only [Option.toList_some, List.flatMap_cons, List.flatMap_nil, List.append_nil]
    | none =>
        cases rs with
        | nil => cases joined
        | cons r rest =>
            cases joined
            exact ⟨rfl, Or.inr ⟨r, List.mem_cons_self⟩⟩
  obtain ⟨rfl, some_part⟩ := taken
  constructor
  · rcases some_part with ⟨x, here⟩ | ⟨x, here⟩
    · exact (first x here).1
    · exact (second x here).1
  · intro a member
    rcases List.mem_append.mp member with inside | inside
    · obtain ⟨x, here, found⟩ := List.mem_flatMap.mp inside
      exact (first x (Option.mem_toList.mp here)).2 a found
    · obtain ⟨x, here, found⟩ := List.mem_flatMap.mp inside
      exact (second x here).2 a found

theorem Within.left (within : M.Within q p) {m : Option M.State} :
    ∀ x ∈ M.left m c, q c ∧ ∀ a ∈ x.1, p a := by
  intro x member
  obtain ⟨s, -, step⟩ := Option.bind_eq_some_iff.mp member
  exact within.step s c x.1 x.2 step

theorem Within.right (within : N.Within q p) {ns : List N.State} :
    ∀ x ∈ N.right ns c, q c ∧ ∀ a ∈ x.1, p a := by
  intro x member
  obtain ⟨s, -, step⟩ := List.mem_filterMap.mp member
  exact within.step s c x.1 x.2 step

theorem Within.entry (first : M.Within q p) (second : N.Within q p) {m : Option M.State} :
    ∀ x ∈ M.entry N m c, q c ∧ ∀ a ∈ x.1, p a := by
  intro x member
  obtain ⟨waiting, final, entered⟩ := Option.bind_eq_some_iff.mp member
  obtain ⟨s, -, final⟩ := Option.bind_eq_some_iff.mp final
  obtain ⟨t, step, rfl⟩ := Option.map_eq_some_iff.mp entered
  have later := second.step _ _ t.1 t.2 step
  refine ⟨later.1, ?_⟩
  intro a inside
  rcases List.mem_append.mp inside with before | after
  · exact first.final s waiting final a before
  · exact later.2 a after

theorem Within.entering (first : M.Within q p) (second : N.Within q p) {m : Option M.State}
    {ns : List N.State} :
    ∀ x ∈ (M.entry N m c).toList ++ N.right ns c, q c ∧ ∀ a ∈ x.1, p a := by
  intro x member
  rcases List.mem_append.mp member with inside | inside
  · exact first.entry second x (Option.mem_toList.mp inside)
  · exact second.right x inside

theorem Within.filterMap_final (within : N.Within q p) {ns : List N.State} :
    ∀ l ∈ ns.filterMap N.final, ∀ a ∈ l, p a := by
  intro l member
  obtain ⟨s, -, final⟩ := List.mem_filterMap.mp member
  exact within.final s l final

theorem Within.catFinal (first : M.Within q p) (second : N.Within q p)
    {s : Option M.State × List N.State} {waiting : List A}
    (final : catFinal M N s = some waiting) : ∀ a ∈ waiting, p a := by
  refine gather_within ?_ final
  intro l member
  rcases List.mem_append.mp member with inside | inside
  · obtain ⟨before, left, through⟩ := Option.bind_eq_some_iff.mp (Option.mem_toList.mp inside)
    obtain ⟨m, -, left⟩ := Option.bind_eq_some_iff.mp left
    obtain ⟨after, empty, rfl⟩ := Option.map_eq_some_iff.mp through
    intro a found
    rcases List.mem_append.mp found with here | here
    · exact first.final m before left a here
    · exact second.final _ after empty a here
  · exact second.filterMap_final l inside

theorem Within.alt (first : M.Within q p) (second : N.Within q p) :
    (alt M N).Within q p where
  step := fun _ _ _ _ step => join_within first.left second.right step
  final := by
    intro s waiting final
    refine gather_within ?_ final
    intro l member
    rcases List.mem_append.mp member with inside | inside
    · obtain ⟨m, -, left⟩ := Option.bind_eq_some_iff.mp (Option.mem_toList.mp inside)
      exact first.final m l left
    · exact second.filterMap_final l inside

theorem Within.cat (first : M.Within q p) (second : N.Within q p) : (M.cat N).Within q p where
  step := fun _ _ _ _ step => join_within first.left (first.entering second) step
  final := fun _ _ final => first.catFinal second final

theorem Within.guard (first : M.Within q p) (second : N.Within q p) :
    (M.guard N).Within q p where
  step := by
    intro s c as t step
    simp only [Machine.guard] at step
    split at step
    case h_1 x entered =>
      refine join_within (fun x none_left => by cases none_left) ?_ step
      intro y member
      rcases List.mem_cons.mp member with rfl | inside
      · exact first.entry second y entered
      · exact second.right y inside
    case h_2 => exact join_within first.left second.right step
  final := fun _ _ final => first.catFinal second final

theorem Within.finGuard (first : M.Within q p) (second : N.Within q p) :
    (M.finGuard N).Within q p where
  step := by
    intro s c as t step
    simp only [Machine.finGuard] at step
    split at step
    · exact join_within (fun x none_left => by cases none_left) (first.entering second) step
    · exact join_within first.left (first.entering second) step
  final := fun _ _ final => first.catFinal second final

theorem Within.again (within : M.Within q p) {ms : List M.State} {waiting : List A}
    (resumes : M.again ms = some waiting) : ∀ a ∈ waiting, p a := by
  unfold Machine.again at resumes
  split at resumes
  · cases resumes
    cases final : M.final M.start with
    | none =>
        intro a member
        cases member
    | some waiting => exact within.final _ waiting final
  · exact gather_within within.filterMap_final resumes

theorem Within.star (within : M.Within q p) : M.star.Within q p where
  step := by
    intro ms c as t step
    have each : ∀ x ∈ M.right ms c ++ ((M.again ms).bind fun waiting =>
        (M.step M.start c).map fun t => (waiting ++ t.1, t.2)).toList,
        q c ∧ ∀ a ∈ x.1, p a := by
      intro x member
      rcases List.mem_append.mp member with inside | inside
      · exact within.right x inside
      · obtain ⟨waiting, resumes, round⟩ :=
          Option.bind_eq_some_iff.mp (Option.mem_toList.mp inside)
        obtain ⟨t, first, rfl⟩ := Option.map_eq_some_iff.mp round
        have later := within.step _ _ t.1 t.2 first
        refine ⟨later.1, ?_⟩
        intro a found
        rcases List.mem_append.mp found with here | here
        · exact within.again resumes a here
        · exact later.2 a here
    simp only [Machine.star] at step
    split at step
    case h_1 => cases step
    case h_2 ts some_left =>
      cases step
      obtain ⟨x, inside⟩ := List.exists_mem_of_ne_nil _ some_left
      refine ⟨(each x inside).1, ?_⟩
      intro a member
      obtain ⟨y, here, found⟩ := List.mem_flatMap.mp member
      exact (each y here).2 a found
  final := fun _ _ final => within.again final

theorem Within.enter {a : A} (within : M.Within q p) (held : p a) : (M.enter a).Within q p where
  step := by
    intro s c as t step
    cases s with
    | none =>
        obtain ⟨x, first, same⟩ := Option.map_eq_some_iff.mp step
        cases same
        have inside := within.step _ _ x.1 x.2 first
        refine ⟨inside.1, ?_⟩
        intro b member
        rcases List.mem_cons.mp member with rfl | later
        · exact held
        · exact inside.2 b later
    | some m =>
        obtain ⟨x, first, same⟩ := Option.map_eq_some_iff.mp step
        cases same
        exact within.step m c x.1 x.2 first
  final := by
    intro s waiting final
    cases s with
    | none =>
        obtain ⟨before, first, rfl⟩ := Option.map_eq_some_iff.mp final
        intro b member
        rcases List.mem_cons.mp member with rfl | later
        · exact held
        · exact within.final _ before first b later
    | some m => exact within.final m waiting final

theorem Within.leave {a : A} (within : M.Within q p) (held : p a) : (M.leave a).Within q p where
  step := within.step
  final := by
    intro s waiting final
    obtain ⟨before, first, rfl⟩ := Option.map_eq_some_iff.mp final
    intro b member
    rcases List.mem_append.mp member with earlier | last
    · exact within.final s before first b earlier
    · exact List.mem_singleton.mp last ▸ held

theorem Within.finish {a : A} (within : M.Within q p) (held : p a) :
    (M.finish a).Within q p where
  step := by
    intro s c as t step
    obtain ⟨x, first, same⟩ := Option.map_eq_some_iff.mp step
    cases same
    have inside := within.step s c x.1 x.2 first
    refine ⟨inside.1, ?_⟩
    intro b member
    split at member
    · rcases List.mem_append.mp member with earlier | last
      · exact inside.2 b earlier
      · exact List.mem_singleton.mp last ▸ held
    · exact inside.2 b member
  final := within.final

end Machine

namespace Expr

/-- The characters of an expression. -/
def reads : Expr α A → α → Bool
  | empty, _ => false
  | chars p, c => p c
  | alt e f, c | cat e f, c | guard e f, c | finGuard e f, c => e.reads c || f.reads c
  | star e, c | enter e _, c | leave e _, c | finish e _, c => e.reads c

/-- The actions embedded in an expression. -/
def actions : Expr α A → List A
  | empty | chars _ => []
  | alt e f | cat e f | guard e f | finGuard e f => e.actions ++ f.actions
  | star e => e.actions
  | enter e a | leave e a | finish e a => a :: e.actions

/-- Every transition reads a character of the expression, and only its actions are embedded,
with stamps from `n` on. -/
theorem machine_within (e : Expr α A) (n : Nat) :
    (e.machine n).Within (fun c => e.reads c = true) (fun a => n ≤ a.1 ∧ a.2 ∈ e.actions) := by
  have first : ∀ {f g : Expr α A} {c : α}, f.reads c = true → (f.reads c || g.reads c) = true :=
    fun held => Bool.or_eq_true_iff.mpr (Or.inl held)
  have second : ∀ {f g : Expr α A} {c : α}, g.reads c = true → (f.reads c || g.reads c) = true :=
    fun held => Bool.or_eq_true_iff.mpr (Or.inr held)
  have early : ∀ {n : Nat} {f g : Expr α A} (a : Nat × A), n ≤ a.1 ∧ a.2 ∈ f.actions →
      n ≤ a.1 ∧ a.2 ∈ f.actions ++ g.actions :=
    fun a held => ⟨held.1, List.mem_append_left _ held.2⟩
  have late : ∀ {n k : Nat} {f g : Expr α A} (a : Nat × A),
      n + k ≤ a.1 ∧ a.2 ∈ g.actions → n ≤ a.1 ∧ a.2 ∈ f.actions ++ g.actions :=
    fun a held => ⟨Nat.le_of_add_right_le held.1, List.mem_append_right _ held.2⟩
  induction e generalizing n with
  | empty => exact Machine.within_empty
  | chars p => exact Machine.within_chars
  | alt e f ihe ihf =>
      exact ((ihe n).mono (fun _ => first) early).alt ((ihf _).mono (fun _ => second) late)
  | cat e f ihe ihf =>
      exact ((ihe n).mono (fun _ => first) early).cat ((ihf _).mono (fun _ => second) late)
  | guard e f ihe ihf =>
      exact ((ihe n).mono (fun _ => first) early).guard ((ihf _).mono (fun _ => second) late)
  | finGuard e f ihe ihf =>
      exact ((ihe n).mono (fun _ => first) early).finGuard ((ihf _).mono (fun _ => second) late)
  | star e ih => exact (ih n).star
  | enter e a ih =>
      refine ((ih (n + 1)).mono (fun _ => id) ?_).enter ⟨Nat.le_refl n, List.mem_cons_self⟩
      exact fun b held => ⟨Nat.le_of_succ_le held.1, List.mem_cons_of_mem a held.2⟩
  | leave e a ih =>
      refine ((ih n).mono (fun _ => id) ?_).leave ⟨Nat.le_add_right n _, List.mem_cons_self⟩
      exact fun b held => ⟨held.1, List.mem_cons_of_mem a held.2⟩
  | finish e a ih =>
      refine ((ih n).mono (fun _ => id) ?_).finish ⟨Nat.le_add_right n _, List.mem_cons_self⟩
      exact fun b held => ⟨held.1, List.mem_cons_of_mem a held.2⟩

/-- The stamps of an expression end where those of the next one begin. -/
theorem machine_below (e : Expr α A) (n : Nat) :
    (e.machine n).Within (fun _ => True) (fun a => a.1 < n + e.embeddings) := by
  have early : ∀ {n k l : Nat} (a : Nat × A), a.1 < n + k → a.1 < n + (k + l) := by
    intro n k l a below
    omega
  have late : ∀ {n k l : Nat} (a : Nat × A), a.1 < n + k + l → a.1 < n + (k + l) := by
    intro n k l a below
    omega
  induction e generalizing n with
  | empty => exact Machine.within_empty
  | chars p => exact Machine.within_chars.mono (fun _ _ => trivial) fun _ => id
  | alt e f ihe ihf =>
      exact ((ihe n).mono (fun _ => id) early).alt ((ihf _).mono (fun _ => id) late)
  | cat e f ihe ihf =>
      exact ((ihe n).mono (fun _ => id) early).cat ((ihf _).mono (fun _ => id) late)
  | guard e f ihe ihf =>
      exact ((ihe n).mono (fun _ => id) early).guard ((ihf _).mono (fun _ => id) late)
  | finGuard e f ihe ihf =>
      exact ((ihe n).mono (fun _ => id) early).finGuard ((ihf _).mono (fun _ => id) late)
  | star e ih => exact (ih n).star
  | enter e a ih =>
      refine ((ih (n + 1)).mono (fun _ => id) ?_).enter (Nat.lt_add_of_pos_right (Nat.succ_pos _))
      intro b below
      rw [embeddings]
      omega
  | leave e a ih => exact ((ih n).mono (fun _ => id) early).leave (Nat.lt_succ_self _)
  | finish e a ih => exact ((ih n).mono (fun _ => id) early).finish (Nat.lt_succ_self _)

variable {e : Expr α A} {n : Nat} {c : α} {w : List α}

theorem step_eq_none {s : (e.machine n).State} (outside : e.reads c = false) :
    (e.machine n).step s c = none := by
  cases step : (e.machine n).step s c with
  | none => rfl
  | some t =>
      have inside := ((machine_within e n).step s c t.1 t.2 step).1
      rw [outside] at inside
      cases inside

/-- A word that an expression without actions accepts. -/
theorem run_of_acceptsFrom (silent : e.actions = []) {s : (e.machine n).State}
    (accepted : (e.machine n).acceptsFrom s w = true) :
    ∃ t, (e.machine n).Run s w (List.replicate w.length []) t ∧
      (e.machine n).final t = some [] := by
  have none_embedded : ∀ {as : List (Nat × A)}, (∀ a ∈ as, n ≤ a.1 ∧ a.2 ∈ e.actions) →
      as = [] := by
    intro as each
    refine List.eq_nil_iff_forall_not_mem.mpr fun a member => ?_
    have inside := (each a member).2
    rw [silent] at inside
    cases inside
  induction w generalizing s with
  | nil =>
      obtain ⟨waiting, final⟩ := Option.isSome_iff_exists.mp accepted
      have empty := none_embedded ((machine_within e n).final s waiting final)
      rw [empty] at final
      exact ⟨s, .nil s, final⟩
  | cons c w ih =>
      obtain ⟨as, t, step, rest⟩ := Machine.acceptsFrom_cons accepted
      have empty := none_embedded ((machine_within e n).step s c as t step).2
      rw [empty] at step
      obtain ⟨u, run, final⟩ := ih rest
      exact ⟨u, .cons step run, final⟩

theorem parses_of_accepts (silent : e.actions = [])
    (accepted : (e.machine n).accepts w = true) :
    (e.machine n).Parses (e.machine n).start w (List.replicate w.length []) []
      (fun c => e.reads c = false) := by
  obtain ⟨t, run, final⟩ := run_of_acceptsFrom silent accepted
  exact ⟨t, run, final, fun c outside => step_eq_none outside⟩

end Expr

end Ragel
