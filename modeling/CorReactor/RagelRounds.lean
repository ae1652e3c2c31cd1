import CorReactor.RagelWords

set_option autoImplicit false

/-! Two parts of a machine side by side, the rounds of a loop, and machines that are finished by
the last character of a word. -/

namespace Ragel.Machine

variable {α A : Type} {M N : Machine α A} {b c d : α} {u v w : List α} {as bs ds es : List A}
  {waiting waiting' : List A} {tr tr' : List (List A)} {stuck : α → Prop}

/-! ### Side by side -/

theorem right_pair {n n' m m' : N.State} (step : N.step n c = some (as, m))
    (step' : N.step n' c = some (bs, m')) : N.right [n, n'] c = [(as, m), (bs, m')] := by
  simp only [right, List.filterMap_cons, step, step', List.filterMap_nil]

theorem right_pair_none {n n' : N.State} (stops : N.step n c = none)
    (stops' : N.step n' c = none) : N.right [n, n'] c = [] := by
  simp only [right, List.filterMap_cons, stops, stops', List.filterMap_nil]

theorem cat_pair {n n' m m' : N.State} (step : N.step n c = some (as, m))
    (step' : N.step n' c = some (bs, m')) :
    (M.cat N).step (none, [n, n']) c = some (as ++ bs, (none, [m, m'])) := by
  simp only [cat, left, Option.bind_none, entry, Option.toList_none, List.nil_append,
    right_pair step step', join_none_cons, List.flatMap_cons, List.flatMap_nil, List.append_nil,
    List.map_cons, List.map_nil]

/-- The first part goes on, and the second one begins. -/
theorem cat_both {m m' : M.State} {n : N.State} (final : M.final m = some [])
    (step : M.step m c = some (as, m')) (enters : N.step N.start c = some (bs, n)) :
    (M.cat N).step (some m, []) c = some (as ++ bs, (some m', [n])) := by
  simp only [cat, left, Option.bind_some, step, entry_eq_some final enters, List.nil_append,
    Option.toList_some, right, List.filterMap_nil, List.append_nil, join_some, List.flatMap_cons,
    List.flatMap_nil, List.map_cons, List.map_nil]

/-- The first part goes on beside the second one. -/
theorem cat_beside {m m' : M.State} {n n' : N.State} (unfinished : M.final m = none)
    (step : M.step m c = some (as, m')) (step' : N.step n c = some (bs, n')) :
    (M.cat N).step (some m, [n]) c = some (as ++ bs, (some m', [n'])) := by
  simp only [cat, left, Option.bind_some, step, entry_eq_none (Or.inl unfinished),
    Option.toList_none, List.nil_append, right_single step', join_some, List.flatMap_cons,
    List.flatMap_nil, List.append_nil, List.map_cons, List.map_nil]

theorem catFinal_beside {m : Option M.State} {n : N.State}
    (final : (N.final n).isSome = true) : (catFinal M N (m, [n])).isSome = true := by
  obtain ⟨waiting, isFinal⟩ := Option.isSome_iff_exists.mp final
  refine gather_isSome waiting (List.mem_append_right _ ?_)
  rw [List.filterMap_cons, isFinal]
  exact List.mem_cons_self

theorem Run.pair {n n' m m' : N.State} (run : N.Run n w tr m) (run' : N.Run n' w tr' m') :
    (M.cat N).Run (none, [n, n']) w (List.zipWith (· ++ ·) tr tr') (none, [m, m']) := by
  induction run generalizing n' tr' with
  | nil s =>
      cases run'
      exact .nil _
  | cons step _ ih =>
      cases run' with
      | cons step' rest' => exact .cons (cat_pair step step') (ih rest')

/-- A character that the first part and the second one can both read: the second part begins
with it, and once more behind it. -/
theorem Parses.overlap (before : M.final M.start = some []) {m : M.State}
    (one : M.step M.start b = some ([], m)) (after : M.final m = some [])
    (stops : M.step m c = none)
    (both : N.Parses N.start (b :: c :: v) (as :: bs :: tr) waiting stuck)
    (later : N.Parses N.start (c :: v) (ds :: tr') waiting' stuck) :
    (M.cat N).Parses (M.cat N).start (b :: c :: v)
      (as :: (ds ++ bs) :: List.zipWith (· ++ ·) tr' tr) (waiting' ++ waiting) stuck := by
  obtain ⟨t, run, final, ends⟩ := both
  obtain ⟨t', run', final', ends'⟩ := later
  cases run with
  | @cons _ n _ _ _ _ _ enters run =>
    cases run with
    | @cons _ n₂ _ _ _ _ _ step rest =>
      cases run' with
      | @cons _ n' _ _ _ _ _ enters' rest' =>
        refine ⟨(none, [t', t]), .cons (M := M.cat N) (t := (some m, [n])) ?_
          (.cons (M := M.cat N) (t := (none, [n', n₂])) ?_ (rest'.pair rest)), ?_, ?_⟩
        · exact cat_both before one enters
        · simp only [cat, left, Option.bind_some, stops, entry_eq_some after enters',
            List.nil_append, Option.toList_some, right_single step, List.cons_append,
            join_none_cons, List.flatMap_cons, List.flatMap_nil, List.append_nil, List.map_cons,
            List.map_nil]
        · simp only [cat, catFinal, Option.bind_none, Option.toList_none, List.nil_append,
            List.filterMap_cons, final, final', List.filterMap_nil, gather, List.flatten_cons,
            List.flatten_nil, List.append_nil]
        · intro x held
          simp only [cat, left, Option.bind_none, entry, Option.toList_none, List.nil_append,
            right_pair_none (ends' x held) (ends x held), join]

/-! ### Rounds -/

/-- The machine reads the word to a final state, where it ends, and does not come to one
before. -/
def Round (M : Machine α A) (w : List α) (tr : List (List A)) : Prop :=
  ∃ c v d as tr' bs, w = c :: v ++ [d] ∧ tr = as :: tr' ++ [bs] ∧
    ∃ m t, M.Reads M.start (c :: v) (as :: tr') m ∧ M.step m d = some (bs, t) ∧
      M.final t = some [] ∧ ∀ x, M.step t x = none

/-- The second part of a guarded machine ends the round. -/
theorem Parses.roundGuard (first : M.Parses M.start (c :: v) (as :: tr) waiting stuck)
    (apart : ∀ x ∈ c :: v, N.step N.start x = none) (nonempty : N.final N.start = none)
    (ends : N.Round (d :: w) (bs :: tr')) :
    (M.guard N).Round (c :: v ++ d :: w) (as :: tr ++ (waiting ++ bs) :: tr') := by
  obtain ⟨c', v', d', as', tr'', bs', word, trace, m, t, reads, step, final, stops⟩ := ends
  obtain ⟨rfl, rfl⟩ := List.cons_eq_cons.mp (word.trans (List.cons_append ..))
  obtain ⟨rfl, rfl⟩ := List.cons_eq_cons.mp (trace.trans (List.cons_append ..))
  cases reads with
  | cons enters still rest =>
      have front := first.guardReads apart nonempty enters still
      have reads := front.append (rest.lift (N := M.guard N) (f := fun n => (none, [n]))
        (fun s e bs t _ step => guard_right step) (fun t still => catFinal_right.trans still) still)
      refine ⟨c, v ++ d :: v', d', as, tr ++ (waiting ++ bs) :: tr'', bs', ?_, ?_, (none, [m]),
        (none, [t]), ?_, guard_right step, catFinal_right.trans final, ?_⟩
      · simp only [List.cons_append, List.append_assoc]
      · simp only [List.cons_append, List.append_assoc]
      · simpa only [List.cons_append, List.append_assoc, List.nil_append] using reads
      · intro x
        simp only [Machine.guard, entry, Option.bind_none, left, right_single_none (stops x), join]

/-- Rounds of a loop, in front of what follows the loop. -/
theorem Reads.rounds (nonempty : N.final N.start = none) {rounds : List (List α × List (List A))}
    (each : ∀ r ∈ rounds, M.Round r.1 r.2)
    (apart : ∀ r ∈ rounds, ∀ c ∈ r.1.head?, N.step N.start c = none)
    {ms : List M.State} (resting : M.Resting ms []) :
    ∃ ms', (M.star.cat N).Reads (some ms, []) (rounds.flatMap Prod.fst) (rounds.flatMap Prod.snd)
      (some ms', []) ∧ M.Resting ms' [] := by
  induction rounds generalizing ms with
  | nil => exact ⟨ms, .nil _, resting⟩
  | cons r rounds ih =>
      obtain ⟨⟨w, tr⟩, rfl⟩ : ∃ p, r = p := ⟨r, rfl⟩
      obtain ⟨c, v, d, as, tr', bs, rfl, rfl, m, t, reads, step, final, stops⟩ :=
        each _ List.mem_cons_self
      have first := Reads.round resting reads step (apart _ List.mem_cons_self c rfl) nonempty
      obtain ⟨ms', rest, rested⟩ := ih (fun r member => each r (List.mem_cons_of_mem _ member))
        (fun r member => apart r (List.mem_cons_of_mem _ member)) (resting_single final stops)
      exact ⟨ms', first.append rest, rested⟩

/-! ### The last character -/

/-- The machine reads the word without coming to a final state, and comes to one with the
character behind it. -/
def Completes (M : Machine α A) (w : List α) (tr : List (List A)) (c : α) (as : List A) : Prop :=
  ∃ t u, M.Reads M.start w tr t ∧ M.step t c = some (as, u) ∧ (M.final u).isSome = true

/-- What ends a loop can also be the beginning of another round. -/
theorem Completes.rounds (unfinished : M.final M.start = none) (nonempty : N.final N.start = none)
    {rounds : List (List α × List (List A))} (each : ∀ r ∈ rounds, M.Round r.1 r.2)
    (apart : ∀ r ∈ rounds, ∀ c ∈ r.1.head?, N.step N.start c = none)
    {m m' : M.State} {n n' : N.State} (opens : M.step M.start c = some (as, m))
    (inside : M.final m = none) (goes_on : M.step m d = some (ds, m'))
    (enters : N.step N.start c = some (bs, n)) (still : N.final n = none)
    (ends : N.step n d = some (es, n')) (final : (N.final n').isSome = true) :
    (M.star.cat N).Completes (rounds.flatMap Prod.fst ++ [c])
      (rounds.flatMap Prod.snd ++ [as ++ bs]) d (ds ++ es) := by
  obtain ⟨ms, reads, resting⟩ := Reads.rounds nonempty each apart (resting_start unfinished)
  have unresting : M.star.final [m] = none := again_single.trans inside
  refine ⟨(some [m], [n]), (some [m'], [n']), ?_, ?_, catFinal_beside final⟩
  · refine reads.append (.cons (M := M.star.cat N) (t := (some [m], [n])) ?_ ?_ (.nil _))
    · exact cat_both resting.1 (star_round resting opens) enters
    · refine (catFinal_left unresting).trans ?_
      simp only [List.filterMap_cons, still, List.filterMap_nil, gather]
  · exact cat_beside unresting (star_inside goes_on inside) ends

theorem Completes.seq (first : M.Parses M.start u tr waiting (· = c)) (clear : Clear M N u)
    (nonempty : N.final N.start = none)
    (second : N.Completes (c :: v) (as :: tr') d ds) :
    (M.cat N).Completes (u ++ c :: v) (tr ++ (waiting ++ as) :: tr') d ds := by
  obtain ⟨t, t', reads, step, final⟩ := second
  refine ⟨(none, [t]), (none, [t']), first.seqReads clear nonempty reads, cat_right step, ?_⟩
  exact (congrArg Option.isSome catFinal_right).trans final

/-- A first part that is finished only where it ends. -/
theorem Completes.behind (first : M.Round u tr) (unfinished : M.final M.start = none)
    (nonempty : N.final N.start = none) (second : N.Completes (c :: v) (as :: tr') d ds) :
    (M.cat N).Completes (u ++ c :: v) (tr ++ as :: tr') d ds := by
  obtain ⟨_, _, e, _, _, es, rfl, rfl, m, t, reads, ends, final, stops⟩ := first
  obtain ⟨n, n', reads', step, last⟩ := second
  have inside := reads.lift (N := M.cat N) (f := fun m => (some m, []))
    (fun s d bs t unfinished step => cat_left step (Or.inl unfinished))
    (fun t _ => catFinal_before nonempty) unfinished
  cases reads' with
  | cons enters still rest =>
      refine ⟨(none, [n]), (none, [n']), ?_, cat_right step, ?_⟩
      · have ended := inside.append (.cons (M := M.cat N) (t := (some t, []))
          (cat_left ends (Or.inl (reads.final unfinished))) (catFinal_before nonempty) (.nil _))
        refine ended.append
          (.cons (cat_entry final (stops c) enters) (catFinal_right.trans still) ?_)
        exact rest.lift (N := M.cat N) (f := fun n => (none, [n]))
          (fun s d bs t _ step => cat_right step) (fun t still => catFinal_right.trans still) still
      · exact (congrArg Option.isSome catFinal_right).trans last

theorem Completes.altLeft (completes : M.Completes (c :: w) tr d as)
    (other : N.step N.start c = none) : (M.alt N).Completes (c :: w) tr d as := by
  obtain ⟨t, u, reads, step, final⟩ := completes
  refine ⟨(some t, []), (some u, []), reads.altLeft other, alt_left step rfl, ?_⟩
  exact (congrArg Option.isSome alt_final_left).trans final

theorem Completes.finish {a : A} (completes : M.Completes w tr d as) :
    (M.finish a).Completes w tr d (as ++ [a]) := by
  obtain ⟨t, u, reads, step, final⟩ := completes
  exact ⟨t, u, reads.finish, finish_step step final, final⟩

end Ragel.Machine
