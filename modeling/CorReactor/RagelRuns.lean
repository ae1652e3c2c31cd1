import CorReactor.Ragel

set_option autoImplicit false

/-! Runs of the machines of Ragel expressions: how the runs of the parts make up a run of the
whole, with the actions of each transition. -/

namespace Ragel

variable {α A S T : Type}

namespace Machine

/-- The machine reads the word, with the actions of each transition. -/
inductive Run (M : Machine α A) : M.State → List α → List (List A) → M.State → Prop
  | nil (s : M.State) : Run M s [] [] s
  | cons {s t u : M.State} {c : α} {w : List α} {as : List A} {tr : List (List A)}
      (step : M.step s c = some (as, t)) (rest : Run M t w tr u) : Run M s (c :: w) (as :: tr) u

/-- It reads the word without coming to a final state. -/
inductive Reads (M : Machine α A) : M.State → List α → List (List A) → M.State → Prop
  | nil (s : M.State) : Reads M s [] [] s
  | cons {s t u : M.State} {c : α} {w : List α} {as : List A} {tr : List (List A)}
      (step : M.step s c = some (as, t)) (still : M.final t = none) (rest : Reads M t w tr u) :
      Reads M s (c :: w) (as :: tr) u

/-- It reads the word to a final state with these waiting actions, from which none of the
characters goes on. -/
def Parses (M : Machine α A) (s : M.State) (w : List α) (tr : List (List A)) (waiting : List A)
    (stuck : α → Prop) : Prop :=
  ∃ t, M.Run s w tr t ∧ M.final t = some waiting ∧ ∀ c, stuck c → M.step t c = none

variable {M N : Machine α A} {c : α} {u v w : List α} {as waiting later : List A}
  {tr tr' : List (List A)} {stuck : α → Prop}

theorem Run.append {s t t' : M.State} (first : M.Run s u tr t) (second : M.Run t v tr' t') :
    M.Run s (u ++ v) (tr ++ tr') t' := by
  induction first with
  | nil => exact second
  | cons step _ ih => exact .cons step (ih second)

theorem Reads.append {s t t' : M.State} (first : M.Reads s u tr t) (second : M.Reads t v tr' t') :
    M.Reads s (u ++ v) (tr ++ tr') t' := by
  induction first with
  | nil => exact second
  | cons step still _ ih => exact .cons step still (ih second)

theorem Reads.final {s t : M.State} (reads : M.Reads s w tr t) (start : M.final s = none) :
    M.final t = none := by
  induction reads with
  | nil => exact start
  | cons _ still _ ih => exact ih still

theorem Run.length {s t : M.State} (run : M.Run s w tr t) : tr.length = w.length := by
  induction run with
  | nil => rfl
  | cons _ _ ih => rw [List.length_cons, List.length_cons, ih]

/-- A run of one machine inside of another. -/
theorem Run.lift {f : M.State → N.State} {p : α → Prop}
    (lift : ∀ s c as t, p c → M.step s c = some (as, t) → N.step (f s) c = some (as, f t))
    {s t : M.State} (run : M.Run s w tr t) (all : ∀ c ∈ w, p c) :
    N.Run (f s) w tr (f t) := by
  induction run with
  | nil s => exact .nil (f s)
  | cons step _ ih =>
      exact .cons (lift _ _ _ _ (all _ List.mem_cons_self) step)
        (ih fun c member => all c (List.mem_cons_of_mem _ member))

/-- A run inside of a machine whose states around it are not final. -/
theorem Run.reads {f : M.State → N.State} {p : α → Prop}
    (lift : ∀ s c as t, p c → M.step s c = some (as, t) → N.step (f s) c = some (as, f t))
    (still : ∀ t, N.final (f t) = none)
    {s t : M.State} (run : M.Run s w tr t) (all : ∀ c ∈ w, p c) :
    N.Reads (f s) w tr (f t) := by
  induction run with
  | nil s => exact .nil (f s)
  | cons step _ ih =>
      exact .cons (lift _ _ _ _ (all _ List.mem_cons_self) step) (still _)
        (ih fun c member => all c (List.mem_cons_of_mem _ member))

/-- The same where the machine inside stays out of its final states. -/
theorem Reads.lift {f : M.State → N.State}
    (lift : ∀ s c as t, M.final s = none → M.step s c = some (as, t) →
      N.step (f s) c = some (as, f t))
    (still : ∀ t, M.final t = none → N.final (f t) = none)
    {s t : M.State} (reads : M.Reads s w tr t) (start : M.final s = none) :
    N.Reads (f s) w tr (f t) := by
  induction reads with
  | nil s => exact .nil (f s)
  | cons step open_after _ ih =>
      exact .cons (lift _ _ _ _ start step) (still _ open_after) (ih open_after)

theorem Parses.mono {stuck' : α → Prop} {s : M.State} (parses : M.Parses s w tr waiting stuck)
    (fewer : ∀ c, stuck' c → stuck c) : M.Parses s w tr waiting stuck' := by
  obtain ⟨t, run, final, stops⟩ := parses
  exact ⟨t, run, final, fun c held => stops c (fewer c held)⟩

/-! ### Transitions of composed machines -/

theorem join_some (l : List A × S) (rs : List (List A × T)) :
    join (some l) rs = some (l.1 ++ rs.flatMap Prod.fst, (some l.2, rs.map Prod.snd)) := by
  simp only [join, Option.toList_some, List.flatMap_cons, List.flatMap_nil, List.append_nil,
    Option.map_some]

theorem join_none_cons (r : List A × T) (rs : List (List A × T)) :
    join (none : Option (List A × S)) (r :: rs) =
      some (r.1 ++ rs.flatMap Prod.fst, (none, r.2 :: rs.map Prod.snd)) := by
  simp only [join, Option.toList_none, List.flatMap_nil, List.flatMap_cons, List.nil_append,
    Option.map_none, List.map_cons]

theorem gather_single : gather [waiting] = some waiting := by
  simp only [gather, List.flatten_cons, List.flatten_nil, List.append_nil]

theorem right_single {n n' : N.State} (step : N.step n c = some (as, n')) :
    N.right [n] c = [(as, n')] := by
  simp only [right, List.filterMap_cons, step, List.filterMap_nil]

theorem right_single_none {n : N.State} (stops : N.step n c = none) : N.right [n] c = [] := by
  simp only [right, List.filterMap_cons, stops, List.filterMap_nil]

theorem entry_eq_none {m : M.State} (apart : M.final m = none ∨ N.step N.start c = none) :
    M.entry N (some m) c = none := by
  unfold entry
  rw [Option.bind_some]
  rcases apart with unfinished | stops
  · rw [unfinished, Option.bind_none]
  · rw [stops]
    cases M.final m <;> rfl

theorem entry_eq_some {m : M.State} {n : N.State} (final : M.final m = some waiting)
    (enters : N.step N.start c = some (as, n)) :
    M.entry N (some m) c = some (waiting ++ as, n) := by
  simp only [entry, Option.bind_some, final, enters, Option.map_some]

section Alt

theorem alt_left {m m' : M.State} {ns : List N.State} (step : M.step m c = some (as, m'))
    (stops : N.right ns c = []) : (alt M N).step (some m, ns) c = some (as, (some m', [])) := by
  simp only [alt, left, Option.bind_some, step, stops, join_some, List.flatMap_nil,
    List.append_nil, List.map_nil]

theorem alt_right {m : Option M.State} {n n' : N.State} (step : N.step n c = some (as, n'))
    (stops : M.left m c = none) : (alt M N).step (m, [n]) c = some (as, (none, [n'])) := by
  simp only [alt, stops, right_single step, join_none_cons, List.flatMap_nil, List.append_nil,
    List.map_nil]

theorem alt_final_left {m : M.State} : (alt M N).final (some m, []) = M.final m := by
  simp only [alt, Option.bind_some, List.filterMap_nil, List.append_nil]
  cases M.final m with
  | none => rfl
  | some waiting => exact gather_single

theorem alt_final_right {n : N.State} : (alt M N).final (none, [n]) = N.final n := by
  simp only [alt, Option.bind_none, Option.toList_none, List.nil_append, List.filterMap_cons,
    List.filterMap_nil]
  cases N.final n with
  | none => rfl
  | some waiting => exact gather_single

/-- A word that only the first alternative can begin with. -/
theorem Parses.altLeft (parses : M.Parses M.start (c :: w) tr waiting stuck)
    (other : N.step N.start c = none) :
    (alt M N).Parses (alt M N).start (c :: w) tr waiting stuck := by
  obtain ⟨t, run, final, stops⟩ := parses
  cases run with
  | cons step rest =>
      refine ⟨(some t, []), .cons (alt_left step (right_single_none other)) ?_,
        alt_final_left.trans final, ?_⟩
      · exact rest.lift (p := fun _ => True)
          (fun s d bs t _ inside => alt_left inside rfl) (fun _ _ => trivial)
      · intro d held
        simp only [alt, left, Option.bind_some, stops d held, right, List.filterMap_nil, join]

theorem Parses.altRight (parses : N.Parses N.start (c :: w) tr waiting stuck)
    (other : M.step M.start c = none) :
    (alt M N).Parses (alt M N).start (c :: w) tr waiting stuck := by
  obtain ⟨t, run, final, stops⟩ := parses
  cases run with
  | cons step rest =>
      refine ⟨(none, [t]), .cons (alt_right step other) ?_, alt_final_right.trans final, ?_⟩
      · exact rest.lift (p := fun _ => True)
          (fun s d bs t _ inside => alt_right inside rfl) (fun _ _ => trivial)
      · intro d held
        simp only [alt, left, Option.bind_none, right_single_none (stops d held), join]

end Alt

section Cat

theorem catFinal_left {m : M.State} {ns : List N.State} (final : M.final m = none) :
    catFinal M N (some m, ns) = gather (ns.filterMap N.final) := by
  simp only [catFinal, Option.bind_some, final, Option.bind_none, Option.toList_none,
    List.nil_append]

theorem catFinal_before (nonempty : N.final N.start = none) {m : Option M.State} :
    catFinal M N (m, []) = none := by
  simp only [catFinal, nonempty, Option.map_none, List.filterMap_nil, List.append_nil]
  cases m.bind M.final <;> rfl

theorem catFinal_right {n : N.State} : catFinal M N (none, [n]) = N.final n := by
  simp only [catFinal, Option.bind_none, Option.toList_none, List.nil_append,
    List.filterMap_cons, List.filterMap_nil]
  cases N.final n with
  | none => rfl
  | some waiting => exact gather_single

theorem catFinal_through {m : M.State} (final : M.final m = some waiting)
    (empty : N.final N.start = some later) :
    catFinal M N (some m, []) = some (waiting ++ later) := by
  simp only [catFinal, Option.bind_some, final, empty, Option.map_some, Option.toList_some,
    List.filterMap_nil, List.append_nil, gather_single]

theorem cat_left {m m' : M.State} (step : M.step m c = some (as, m'))
    (apart : M.final m = none ∨ N.step N.start c = none) :
    (cat M N).step (some m, []) c = some (as, (some m', [])) := by
  simp only [cat, left, Option.bind_some, step, entry_eq_none apart, Option.toList_none,
    right, List.filterMap_nil, List.append_nil, join_some, List.flatMap_nil, List.map_nil]

theorem cat_entry {m : M.State} {n : N.State} (final : M.final m = some waiting)
    (stops : M.step m c = none) (enters : N.step N.start c = some (as, n)) :
    (cat M N).step (some m, []) c = some (waiting ++ as, (none, [n])) := by
  simp only [cat, left, Option.bind_some, stops, entry_eq_some final enters, Option.toList_some,
    right, List.filterMap_nil, List.append_nil, join_none_cons, List.flatMap_nil, List.map_nil]

theorem cat_right {n n' : N.State} (step : N.step n c = some (as, n')) :
    (cat M N).step (none, [n]) c = some (as, (none, [n'])) := by
  simp only [cat, left, Option.bind_none, entry, Option.toList_none, List.nil_append,
    right_single step, join_none_cons, List.flatMap_nil, List.append_nil, List.map_nil]

theorem cat_right_none {n : N.State} (stops : N.step n c = none) :
    (cat M N).step (none, [n]) c = none := by
  simp only [cat, left, Option.bind_none, entry, Option.toList_none, List.nil_append,
    right_single_none stops, join]

/-- The second part cannot begin inside of the word that the first part reads. -/
def Clear (M N : Machine α A) (w : List α) : Prop :=
  (M.final M.start = none ∧ w.length = 1) ∨ ∀ x ∈ w, N.step N.start x = none

theorem Run.catLeft {m : M.State} (run : M.Run M.start u tr m) (clear : Clear M N u) :
    (cat M N).Run (cat M N).start u tr (some m, []) := by
  rcases clear with ⟨unfinished, one⟩ | apart
  · cases run with
    | nil => cases one
    | cons step rest =>
        cases rest with
        | nil => exact .cons (M := M.cat N) (cat_left step (Or.inl unfinished)) (.nil _)
        | cons _ _ => cases one
  · exact run.lift (N := M.cat N) (f := fun m => (some m, [])) (fun s d bs t free step =>
      cat_left step (Or.inr free)) apart

theorem Run.catReads {m : M.State} (run : M.Run M.start u tr m) (clear : Clear M N u)
    (nonempty : N.final N.start = none) :
    (cat M N).Reads (cat M N).start u tr (some m, []) := by
  rcases clear with ⟨unfinished, one⟩ | apart
  · cases run with
    | nil => cases one
    | cons step rest =>
        cases rest with
        | nil =>
            exact .cons (M := M.cat N) (cat_left step (Or.inl unfinished))
              (catFinal_before nonempty) (.nil _)
        | cons _ _ => cases one
  · exact run.reads (N := M.cat N) (f := fun m => (some m, [])) (fun s d bs t free step =>
      cat_left step (Or.inr free)) (fun t => catFinal_before nonempty) apart

/-- One part after the other, where the next character is for the second part only. -/
theorem Parses.seq (first : M.Parses M.start u tr waiting (· = c)) (clear : Clear M N u)
    (second : N.Parses N.start (c :: v) (as :: tr') later stuck) :
    (cat M N).Parses (cat M N).start (u ++ c :: v) (tr ++ (waiting ++ as) :: tr') later stuck := by
  obtain ⟨m, run, final, stops⟩ := first
  obtain ⟨n, run', final', stops'⟩ := second
  cases run' with
  | cons enters rest =>
      refine ⟨(none, [n]), ?_, catFinal_right.trans final',
        fun d held => cat_right_none (stops' d held)⟩
      refine (run.catLeft clear).append (.cons (cat_entry final (stops c rfl) enters) ?_)
      exact rest.lift (N := M.cat N) (p := fun _ => True) (f := fun n => (none, [n]))
        (fun s d bs t _ step => cat_right step) (fun _ _ => trivial)

/-- The first part alone, where the second may be empty. -/
theorem Parses.seqEmpty (first : M.Parses M.start u tr waiting stuck) (clear : Clear M N u)
    (empty : N.final N.start = some later) (stops : ∀ x, stuck x → N.step N.start x = none) :
    (cat M N).Parses (cat M N).start u tr (waiting ++ later) stuck := by
  obtain ⟨m, run, final, stops'⟩ := first
  refine ⟨(some m, []), run.catLeft clear, catFinal_through final empty, ?_⟩
  intro d held
  simp only [cat, left, Option.bind_some, stops' d held, entry_eq_none (Or.inr (stops d held)),
    Option.toList_none, right, List.filterMap_nil, List.append_nil, join]

/-- A first part that is parsed, and a second part that goes on without being finished. -/
theorem Parses.seqReads (first : M.Parses M.start u tr waiting (· = c)) (clear : Clear M N u)
    (nonempty : N.final N.start = none)
    {n : N.State} (second : N.Reads N.start (c :: v) (as :: tr') n) :
    (M.cat N).Reads (M.cat N).start (u ++ c :: v) (tr ++ (waiting ++ as) :: tr')
      (none, [n]) := by
  obtain ⟨m, run, final, stops⟩ := first
  cases second with
  | cons enters still rest =>
      refine (run.catReads clear nonempty).append ?_
      refine .cons (cat_entry final (stops c rfl) enters) (catFinal_right.trans still) ?_
      exact rest.lift (N := M.cat N) (f := fun n => (none, [n]))
        (fun s d bs t _ step => cat_right step) (fun t still => catFinal_right.trans still) still

end Cat

/-! ### Entering and leaving actions -/

section Actions

variable {a : A}

theorem Parses.enter (parses : M.Parses M.start (c :: w) (as :: tr) waiting stuck) :
    (M.enter a).Parses (M.enter a).start (c :: w) ((a :: as) :: tr) waiting stuck := by
  obtain ⟨t, run, final, stops⟩ := parses
  cases run with
  | @cons _ m _ _ _ _ _ step rest =>
      refine ⟨some t, .cons (M := M.enter a) (t := some m) ?_ ?_, final, ?_⟩
      · simp only [Machine.enter, step, Option.map_some]
      · exact rest.lift (N := M.enter a) (p := fun _ => True) (f := some)
          (fun s d bs t _ inside => by simp only [Machine.enter, inside, Option.map_some])
          (fun _ _ => trivial)
      · intro d held
        simp only [Machine.enter, stops d held, Option.map_none]

theorem Parses.enterEmpty (final : M.final M.start = some waiting)
    (stops : ∀ x, stuck x → M.step M.start x = none) :
    (M.enter a).Parses (M.enter a).start [] [] (a :: waiting) stuck := by
  refine ⟨none, .nil _, ?_, ?_⟩
  · simp only [Machine.enter, final, Option.map_some]
  · intro x held
    simp only [Machine.enter, stops x held, Option.map_none]

theorem Parses.leave {s : M.State} (parses : M.Parses s w tr waiting stuck) :
    (M.leave a).Parses s w tr (waiting ++ [a]) stuck := by
  obtain ⟨t, run, final, stops⟩ := parses
  refine ⟨t, ?_, ?_, stops⟩
  · exact Run.lift (M := M) (N := M.leave a) (p := fun _ => True) (f := fun m => m)
      (fun s d bs t _ inside => inside) run (fun _ _ => trivial)
  · simp only [Machine.leave, final, Option.map_some]

theorem Reads.finish {s t : M.State} (reads : M.Reads s w tr t) :
    (M.finish a).Reads s w tr t := by
  induction reads with
  | nil s => exact .nil (M := M.finish a) s
  | cons step still _ ih =>
      refine .cons (M := M.finish a) ?_ still ih
      simp only [Machine.finish, step, Option.map_some, still, Option.isSome_none,
        Bool.false_eq_true, ↓reduceIte]

theorem finish_step {s t : M.State} (step : M.step s c = some (as, t))
    (final : (M.final t).isSome) : (M.finish a).step s c = some (as ++ [a], t) := by
  simp only [Machine.finish, step, Option.map_some, final, ↓reduceIte]

end Actions

theorem Reads.altLeft {m : M.State} (reads : M.Reads M.start (c :: w) tr m)
    (other : N.step N.start c = none) :
    (alt M N).Reads (alt M N).start (c :: w) tr (some m, []) := by
  cases reads with
  | cons step still rest =>
      refine .cons (alt_left step (right_single_none other)) (alt_final_left.trans still) ?_
      exact rest.lift (N := alt M N) (f := fun m => (some m, [])) (fun s d bs t _ inside =>
        alt_left inside rfl) (fun t still => alt_final_left.trans still) still

/-! ### Guarded concatenation and loops -/

theorem guard_left {m m' : M.State} (step : M.step m c = some (as, m'))
    (stops : N.step N.start c = none) :
    (M.guard N).step (some m, []) c = some (as, (some m', [])) := by
  simp only [guard, left, Option.bind_some, step, entry_eq_none (Or.inr stops), right,
    List.filterMap_nil, join_some, List.flatMap_nil, List.append_nil, List.map_nil]

theorem guard_entry {m : M.State} {n : N.State} (final : M.final m = some waiting)
    (enters : N.step N.start c = some (as, n)) :
    (M.guard N).step (some m, []) c = some (waiting ++ as, (none, [n])) := by
  simp only [guard, entry_eq_some final enters, right, List.filterMap_nil, join_none_cons,
    List.flatMap_nil, List.append_nil, List.map_nil]

theorem guard_right {n n' : N.State} (step : N.step n c = some (as, n')) :
    (M.guard N).step (none, [n]) c = some (as, (none, [n'])) := by
  simp only [guard, entry, Option.bind_none, left, right_single step, join_none_cons,
    List.flatMap_nil, List.append_nil, List.map_nil]

/-- The second part takes over from the first, which could have gone on. -/
theorem Parses.guardReads (first : M.Parses M.start u tr waiting stuck)
    (apart : ∀ x ∈ u, N.step N.start x = none) (nonempty : N.final N.start = none)
    {n : N.State} (enters : N.step N.start c = some (as, n)) (still : N.final n = none) :
    (M.guard N).Reads (M.guard N).start (u ++ [c]) (tr ++ [waiting ++ as]) (none, [n]) := by
  obtain ⟨m, run, final, -⟩ := first
  refine (run.reads (N := M.guard N) (f := fun m => (some m, [])) (fun s d bs t free step =>
    guard_left step free) (fun t => catFinal_before nonempty) apart).append ?_
  exact .cons (guard_entry final enters) (catFinal_right.trans still) (.nil _)

/-- In these states of a loop the next round can begin, and nothing else. -/
def Resting (M : Machine α A) (ms : List M.State) (waiting : List A) : Prop :=
  M.again ms = some waiting ∧ ∀ c, M.right ms c = []

theorem again_single {m : M.State} : M.again [m] = M.final m := by
  simp only [again, List.isEmpty_cons, Bool.false_eq_true, ↓reduceIte, List.filterMap_cons,
    List.filterMap_nil]
  cases M.final m with
  | none => rfl
  | some waiting => exact gather_single

theorem resting_start (nonempty : M.final M.start = none) : M.Resting [] [] := by
  refine ⟨?_, fun c => rfl⟩
  simp only [again, List.isEmpty_nil, ↓reduceIte, nonempty, Option.getD_none]

theorem resting_single {m : M.State} (final : M.final m = some waiting)
    (stops : ∀ c, M.step m c = none) : M.Resting [m] waiting :=
  ⟨again_single.trans final, fun c => right_single_none (stops c)⟩

theorem star_round {ms : List M.State} {m : M.State} (resting : M.Resting ms waiting)
    (step : M.step M.start c = some (as, m)) :
    M.star.step ms c = some (waiting ++ as, [m]) := by
  simp only [star, resting.1, resting.2, Option.bind_some, step, Option.map_some,
    Option.toList_some, List.nil_append, List.flatMap_cons, List.flatMap_nil, List.append_nil,
    List.map_cons, List.map_nil]

theorem star_inside {m m' : M.State} (step : M.step m c = some (as, m'))
    (unfinished : M.final m = none) : M.star.step [m] c = some (as, [m']) := by
  simp only [star, again_single, unfinished, Option.bind_none, right_single step,
    Option.toList_none, List.append_nil, List.flatMap_cons, List.flatMap_nil, List.map_cons,
    List.map_nil]

/-- One round of a loop, in front of what follows the loop. -/
theorem Reads.round {ms : List M.State} {m t : M.State} {bs : List A} {d : α}
    (resting : M.Resting ms waiting) (reads : M.Reads M.start (c :: v) (as :: tr) m)
    (ends : M.step m d = some (bs, t)) (apart : N.step N.start c = none)
    (nonempty : N.final N.start = none) :
    (M.star.cat N).Reads (some ms, []) (c :: v ++ [d]) ((waiting ++ as) :: tr ++ [bs])
      (some [t], []) := by
  cases reads with
  | cons step still rest =>
      refine .cons (cat_left (star_round resting step) (Or.inr apart)) (catFinal_before nonempty) ?_
      have inside := rest.lift (N := M.star.cat N) (f := fun m => (some [m], []))
        (fun s d bs t unfinished step =>
          cat_left (star_inside step unfinished) (Or.inl (again_single.trans unfinished)))
        (fun t _ => catFinal_before nonempty) still
      refine inside.append (.cons ?_ (catFinal_before nonempty) (.nil _))
      have unfinished := rest.final still
      exact cat_left (star_inside ends unfinished) (Or.inl (again_single.trans unfinished))

end Machine

end Ragel
