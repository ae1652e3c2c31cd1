import CorReactor.RagelRounds

set_option autoImplicit false

/-! What a Ragel expression parses, with the actions of each transition in the order in which
they are executed. -/

namespace Ragel

variable {α A : Type}

/-! ### The order of execution -/

section Order

variable [DecidableEq A] {a : A} {k : Nat} {as bs : List (Nat × A)}

theorem inOrder_nil : inOrder ([] : List (Nat × A)) = [] := rfl

theorem inOrder_single : inOrder [(k, a)] = [a] := by
  simp only [inOrder, List.insertionSort, List.foldr_cons, List.foldr_nil, List.orderedInsert,
    List.map_cons, List.map_nil, List.eraseDups_cons, List.filter_nil, List.eraseDups_nil]

theorem mem_inOrder : a ∈ inOrder as ↔ ∃ k, (k, a) ∈ as := by
  simp only [inOrder, List.mem_eraseDups, List.mem_map, List.mem_insertionSort, Prod.exists,
    exists_eq_right]

theorem inOrder_eq_nil : inOrder as = [] ↔ as = [] := by
  constructor
  · intro nothing
    refine List.eq_nil_iff_forall_not_mem.mpr fun x member => ?_
    have inside := mem_inOrder.mpr ⟨x.1, member⟩
    rw [nothing] at inside
    cases inside
  · rintro rfl
    rfl

theorem inOrder_append (either : inOrder as = [] ∨ inOrder bs = []) :
    inOrder (as ++ bs) = inOrder as ++ inOrder bs := by
  rcases either with nothing | nothing
  · rw [inOrder_eq_nil.mp nothing, inOrder_nil, List.nil_append, List.nil_append]
  · rw [inOrder_eq_nil.mp nothing, inOrder_nil, List.append_nil, List.append_nil]

omit [DecidableEq A] in
theorem insertionSort_append_max (below : ∀ b ∈ as, b.1 ≤ k) :
    (as ++ [(k, a)]).insertionSort (fun a b => a.1 ≤ b.1) =
      as.insertionSort (fun a b => a.1 ≤ b.1) ++ [(k, a)] := by
  have insert : ∀ (b : Nat × A) (l : List (Nat × A)), b.1 ≤ k →
      (l ++ [(k, a)]).orderedInsert (fun a b => a.1 ≤ b.1) b =
        l.orderedInsert (fun a b => a.1 ≤ b.1) b ++ [(k, a)] := by
    intro b l le
    induction l with
    | nil => simp only [List.nil_append, List.orderedInsert, le, ↓reduceIte, List.cons_append]
    | cons c l ih =>
        simp only [List.cons_append, List.orderedInsert, ih]
        split <;> rfl
  induction as with
  | nil => rfl
  | cons b as ih =>
      rw [List.cons_append, List.insertionSort, List.foldr_cons, ← List.insertionSort,
        ih fun c member => below c (List.mem_cons_of_mem _ member),
        insert b _ (below b List.mem_cons_self)]
      rfl

theorem eraseDups_append_of_not_mem {l : List A} (fresh : a ∉ l) :
    (l ++ [a]).eraseDups = l.eraseDups ++ [a] := by
  rw [List.eraseDups_append]
  have kept : List.removeAll [a] l = [a] := by
    simp only [List.removeAll, List.filter_cons, List.elem_eq_mem, fresh, decide_false,
      Bool.not_false, ↓reduceIte, List.filter_nil]
  rw [kept, List.eraseDups_cons, List.filter_nil, List.eraseDups_nil]

/-- A last stamp with an action of its own. -/
theorem inOrder_append_max (below : ∀ b ∈ as, b.1 ≤ k) (fresh : a ∉ inOrder as) :
    inOrder (as ++ [(k, a)]) = inOrder as ++ [a] := by
  rw [inOrder, insertionSort_append_max below, List.map_append, List.map_singleton,
    eraseDups_append_of_not_mem (fun member => fresh (List.mem_eraseDups.mpr member))]
  rfl

theorem inOrder_eq_single : inOrder as = [a] ↔ as ≠ [] ∧ ∀ b ∈ as, b.2 = a := by
  constructor
  · intro single
    refine ⟨?_, ?_⟩
    · rintro rfl
      cases single
    · intro b member
      have inside := mem_inOrder.mpr ⟨b.1, member⟩
      rw [single] at inside
      exact List.mem_singleton.mp inside
  · rintro ⟨some_left, same⟩
    have stamps : ∃ n, ((as.insertionSort fun a b => a.1 ≤ b.1).map Prod.snd) =
        a :: List.replicate n a := by
      refine ⟨as.length - 1, ?_⟩
      rw [← List.replicate_succ, Nat.sub_add_cancel (List.length_pos_iff.mpr some_left)]
      refine List.eq_replicate_iff.mpr ⟨?_, ?_⟩
      · rw [List.length_map, List.length_insertionSort]
      · intro b member
        obtain ⟨x, inside, rfl⟩ := List.mem_map.mp member
        exact same x ((List.mem_insertionSort _).mp inside)
    obtain ⟨n, all⟩ := stamps
    rw [inOrder, all, List.eraseDups_cons]
    have none_left : (List.replicate n a).filter (fun b => !b == a) = [] := by
      refine List.filter_eq_nil_iff.mpr fun b member => ?_
      rw [List.eq_of_mem_replicate member]
      simp only [beq_self_eq_true, Bool.not_true, Bool.false_eq_true, not_false_eq_true]
    rw [none_left, List.eraseDups_nil]

end Order

/-! ### First characters -/

namespace Expr

def nullable : Expr α A → Bool
  | empty | star _ => true
  | chars _ => false
  | alt e f => e.nullable || f.nullable
  | cat e f | guard e f | finGuard e f => e.nullable && f.nullable
  | enter e _ | leave e _ | finish e _ => e.nullable

/-- The characters that a word of the expression can begin with. -/
def begins : Expr α A → α → Bool
  | empty, _ => false
  | chars p, c => p c
  | alt e f, c => e.begins c || f.begins c
  | cat e f, c | guard e f, c | finGuard e f, c => e.begins c || (e.nullable && f.begins c)
  | star e, c | enter e _, c | leave e _, c | finish e _, c => e.begins c

variable {e f : Expr α A} {n : Nat} {c : α}

theorem catFinal_start {M N : Machine α A}
    (either : M.final M.start = none ∨ N.final N.start = none) :
    M.catFinal N (some M.start, []) = none := by
  rcases either with nonempty | nonempty
  · exact Machine.catFinal_left nonempty
  · exact Machine.catFinal_before nonempty

theorem final_start (e : Expr α A) (n : Nat) (nonempty : e.nullable = false) :
    (e.machine n).final (e.machine n).start = none := by
  induction e generalizing n with
  | empty => cases nonempty
  | star e ih => cases nonempty
  | chars p => rfl
  | alt e f ihe ihf =>
      obtain ⟨first, second⟩ := Bool.or_eq_false_iff.mp nonempty
      simp only [machine, Machine.alt, Option.bind_some, ihe n first, Option.toList_none,
        List.filterMap_cons, ihf _ second, List.filterMap_nil, List.append_nil, gather]
  | cat e f ihe ihf | guard e f ihe ihf | finGuard e f ihe ihf =>
      exact catFinal_start ((Bool.and_eq_false_iff.mp nonempty).imp (ihe n) (ihf _))
  | enter e a ih =>
      simp only [machine, Machine.enter, ih (n + 1) nonempty, Option.map_none]
  | leave e a ih => simp only [machine, Machine.leave, ih n nonempty, Option.map_none]
  | finish e a ih => exact ih n nonempty

theorem step_start (e : Expr α A) (n : Nat) (outside : e.begins c = false) :
    (e.machine n).step (e.machine n).start c = none := by
  induction e generalizing n with
  | empty => rfl
  | chars p =>
      have stops : p c = false := outside
      simp only [machine, Machine.chars, stops, Bool.and_false, Bool.false_eq_true, ↓reduceIte]
  | alt e f ihe ihf =>
      obtain ⟨first, second⟩ := Bool.or_eq_false_iff.mp outside
      simp only [machine, Machine.alt, Machine.left, Option.bind_some, ihe n first,
        Machine.right_single_none (ihf _ second), join]
  | star e ih =>
      simp only [machine, Machine.star, Machine.right, List.filterMap_nil, ih n outside,
        Option.map_none, Machine.again, List.isEmpty_nil, ↓reduceIte, Option.bind_some,
        Option.toList_none, List.nil_append]
  | cat e f ihe ihf | guard e f ihe ihf | finGuard e f ihe ihf =>
      obtain ⟨first, second⟩ := Bool.or_eq_false_iff.mp outside
      have apart := (Bool.and_eq_false_iff.mp second).imp (final_start e n) (ihf (n + e.embeddings))
      simp only [machine, Machine.cat, Machine.guard, Machine.finGuard, Machine.left,
        Option.bind_some, ihe n first, Machine.entry_eq_none apart, Option.toList_none,
        Machine.right, List.filterMap_nil, List.append_nil, join, List.any_nil,
        Bool.false_eq_true, ↓reduceIte]
  | enter e a ih => simp only [machine, Machine.enter, ih (n + 1) outside, Option.map_none]
  | leave e a ih => exact ih n outside
  | finish e a ih => simp only [machine, Machine.finish, ih n outside, Option.map_none]

/-! ### Expressions without actions -/

/-- The machine does not depend on where the stamps begin. -/
theorem machine_silent (silent : e.actions = []) (n k : Nat) : e.machine n = e.machine k := by
  induction e generalizing n k with
  | empty => rfl
  | chars p => rfl
  | alt e f ihe ihf | cat e f ihe ihf | guard e f ihe ihf | finGuard e f ihe ihf =>
      obtain ⟨first, second⟩ := List.append_eq_nil_iff.mp silent
      simp only [machine, ihe first n k, ihf second (n + e.embeddings) (k + e.embeddings)]
  | star e ih => simp only [machine, ih silent n k]
  | enter e a ih | leave e a ih | finish e a ih => cases silent

/-! ### Parsing -/

section Parsing

variable [DecidableEq A]

/-- Wherever its stamps begin, the machine parses the word with these actions, and these are
waiting behind it. -/
def Parses (e : Expr α A) (w : List α) (tr : List (List A)) (waiting : List A)
    (stuck : α → Prop) : Prop :=
  ∀ n, ∃ raw left, (e.machine n).Parses (e.machine n).start w raw left stuck ∧
    raw.map inOrder = tr ∧ inOrder left = waiting

variable {u v w : List α} {b d : α} {a : A} {as bs waiting later : List A} {tr tr' : List (List A)}
  {stuck : α → Prop}

theorem Parses.mono {q : α → Prop} (parses : e.Parses w tr waiting stuck)
    (fewer : ∀ c, q c → stuck c) : e.Parses w tr waiting q := by
  intro n
  obtain ⟨raw, left, parsed, trace, waits⟩ := parses n
  exact ⟨raw, left, parsed.mono fewer, trace, waits⟩

theorem Parses.reads (parses : e.Parses w tr waiting stuck) : ∀ c ∈ w, e.reads c = true := by
  obtain ⟨raw, left, ⟨t, run, -⟩, -⟩ := parses 0
  generalize (e.machine 0).start = s at run
  clear parses
  induction run with
  | nil =>
      intro c member
      cases member
  | cons step _ ih =>
      intro c member
      rcases List.mem_cons.mp member with rfl | later
      · exact ((machine_within e 0).step _ c _ _ step).1
      · exact ih c later

theorem Parses.chars {p : α → Bool} (holds : p c = true) :
    (chars p : Expr α A).Parses [c] [[]] [] (fun _ => True) := by
  intro n
  refine ⟨[[]], [], ⟨true, .cons (M := Machine.chars p) (t := true) ?_ (.nil _), rfl, ?_⟩, rfl, rfl⟩
  · have opens : (!false && p c) = true := holds
    exact if_pos opens
  · intro x _
    simp only [machine, Machine.chars, Bool.not_true, Bool.false_and, Bool.false_eq_true,
      ↓reduceIte]

/-- A word of an expression without actions. -/
theorem Parses.silent (silent : e.actions = []) (accepted : (e.machine 0).accepts w = true) :
    e.Parses w (List.replicate w.length []) [] (fun c => e.reads c = false) := by
  intro n
  rw [machine_silent silent n 0]
  refine ⟨_, [], parses_of_accepts silent accepted, ?_, rfl⟩
  rw [List.map_replicate, inOrder_nil]

theorem Parses.altLeft (parses : e.Parses (c :: w) tr waiting stuck)
    (other : f.begins c = false) : (e.alt f).Parses (c :: w) tr waiting stuck := by
  intro n
  obtain ⟨raw, left, parsed, trace, waits⟩ := parses n
  exact ⟨raw, left, parsed.altLeft (step_start f _ other), trace, waits⟩

theorem Parses.altRight (parses : f.Parses (c :: w) tr waiting stuck)
    (other : e.begins c = false) : (e.alt f).Parses (c :: w) tr waiting stuck := by
  intro n
  obtain ⟨raw, left, parsed, trace, waits⟩ := parses (n + e.embeddings)
  exact ⟨raw, left, parsed.altRight (step_start e _ other), trace, waits⟩

/-- The border of two parts, where one of them has no actions. -/
theorem border {raw raw' : List (List (Nat × A))} {left first : List (Nat × A)}
    (trace : raw.map inOrder = tr) (waits : inOrder left = waiting)
    (trace' : (first :: raw').map inOrder = as :: tr') (either : waiting = [] ∨ as = []) :
    (raw ++ (left ++ first) :: raw').map inOrder = tr ++ (waiting ++ as) :: tr' := by
  obtain ⟨begins, rest⟩ := List.cons_eq_cons.mp ((List.map_cons ..).symm.trans trace')
  subst waits begins
  rw [List.map_append, List.map_cons, inOrder_append either, trace, rest]

/-- The second expression cannot begin inside of a word of the first one. -/
def Clear (e f : Expr α A) (w : List α) : Prop :=
  (e.nullable = false ∧ w.length = 1) ∨ ∀ x ∈ w, f.begins x = false

omit [DecidableEq A] in
theorem Clear.machine (clear : Clear e f w) (n k : Nat) :
    Machine.Clear (e.machine n) (f.machine k) w :=
  clear.imp (fun one => ⟨final_start e n one.1, one.2⟩)
    fun apart x member => step_start f k (apart x member)

theorem Parses.cat (first : e.Parses u tr waiting (· = c)) (clear : Clear e f u)
    (second : f.Parses (c :: v) (as :: tr') later stuck) (either : waiting = [] ∨ as = []) :
    (e.cat f).Parses (u ++ c :: v) (tr ++ (waiting ++ as) :: tr') later stuck := by
  intro n
  obtain ⟨raw, left, parsed, trace, waits⟩ := first n
  obtain ⟨raw', left', parsed', trace', waits'⟩ := second (n + e.embeddings)
  cases raw' with
  | nil => cases trace'
  | cons begin_ raw' =>
      exact ⟨_, left', parsed.seq (clear.machine n _) parsed',
        border trace waits trace' either, waits'⟩

/-- The second part may be empty, with its own actions waiting. -/
theorem Parses.catEmpty (first : e.Parses u tr waiting stuck) (clear : Clear e f u)
    (empty : f.Parses [] [] later stuck) (either : waiting = [] ∨ later = []) :
    (e.cat f).Parses u tr (waiting ++ later) stuck := by
  intro n
  obtain ⟨raw, left, parsed, trace, rfl⟩ := first n
  obtain ⟨raw', left', ⟨t, run, final, stops⟩, -, rfl⟩ := empty (n + e.embeddings)
  cases run
  refine ⟨raw, left ++ left', ?_, trace, inOrder_append either⟩
  exact parsed.seqEmpty (clear.machine n _) final stops

theorem Parses.optEmpty (nonempty : e.nullable = false) :
    (opt e).Parses [] [] [] (fun c => e.begins c = false) := by
  intro n
  refine ⟨[], [], ⟨_, .nil _, ?_, ?_⟩, rfl, rfl⟩
  · simp only [machine, opt, Machine.alt, Option.bind_some, final_start e n nonempty,
      Option.toList_none, Machine.empty, List.filterMap_cons, List.filterMap_nil, List.nil_append,
      gather, List.flatten_cons, List.flatten_nil]
  · intro c outside
    exact step_start (opt e) n (Bool.or_eq_false_iff.mpr ⟨outside, rfl⟩)

theorem Parses.enter (parses : e.Parses (c :: w) ([] :: tr) waiting stuck) :
    (e.enter a).Parses (c :: w) ([a] :: tr) waiting stuck := by
  intro n
  obtain ⟨raw, left, parsed, trace, waits⟩ := parses (n + 1)
  cases raw with
  | nil => cases trace
  | cons first raw =>
      obtain ⟨nothing, rest⟩ := List.cons_eq_cons.mp ((List.map_cons ..).symm.trans trace)
      cases inOrder_eq_nil.mp nothing
      refine ⟨_, left, parsed.enter, ?_, waits⟩
      rw [List.map_cons, inOrder_single, rest]

theorem Parses.enterEmpty (parses : e.Parses [] [] [] stuck) :
    (e.enter a).Parses [] [] [a] stuck := by
  intro n
  obtain ⟨raw, left, ⟨t, run, final, stops⟩, -, nothing⟩ := parses (n + 1)
  cases run
  cases inOrder_eq_nil.mp nothing
  exact ⟨[], [(n, a)], Machine.Parses.enterEmpty final stops, rfl, inOrder_single⟩

/-- A leaving action waits behind the others. -/
theorem Parses.leave (parses : e.Parses w tr waiting stuck) (fresh : a ∉ waiting) :
    (e.leave a).Parses w tr (waiting ++ [a]) stuck := by
  intro n
  obtain ⟨raw, left, parsed, trace, rfl⟩ := parses n
  refine ⟨raw, left ++ [(n + e.embeddings, a)], parsed.leave, trace, ?_⟩
  obtain ⟨t, -, final, -⟩ := parsed
  exact inOrder_append_max
    (fun b member => Nat.le_of_lt ((machine_below e n).final t left final b member)) fresh

/-- A word between an entering and a leaving action. -/
theorem Parses.marked {a' : A} (silent : e.actions = [])
    (accepted : (e.machine 0).accepts (c :: w) = true) :
    ((e.enter a).leave a').Parses (c :: w) ([a] :: List.replicate w.length []) [a']
      (fun c => e.reads c = false) :=
  (Parses.silent silent accepted).enter.leave List.not_mem_nil

/-- A character that both parts can read. -/
theorem Parses.overlap {a' : A} (before : e.Parses [] [] [] (fun _ => False))
    (one : e.Parses [b] [[]] [] (· = c))
    (both : f.Parses (b :: c :: v) ([a] :: [] :: List.replicate v.length []) [a'] stuck)
    (later : f.Parses (c :: v) ([a] :: List.replicate v.length []) [a'] stuck) :
    (e.cat f).Parses (b :: c :: v) ([a] :: [a] :: List.replicate v.length []) [a'] stuck := by
  have quiet : ∀ {n : Nat} {raw : List (List (Nat × A))},
      raw.map inOrder = List.replicate n [] → raw = List.replicate n [] := by
    intro n raw trace
    have length := congrArg List.length trace
    rw [List.length_map, List.length_replicate] at length
    refine List.eq_replicate_iff.mpr ⟨length, fun l member => ?_⟩
    have inside : inOrder l ∈ raw.map inOrder := List.mem_map.mpr ⟨l, member, rfl⟩
    rw [trace] at inside
    exact inOrder_eq_nil.mp (List.eq_of_mem_replicate inside)
  intro n
  obtain ⟨_, left, ⟨t, run, begins, -⟩, -, nothing⟩ := before n
  cases run
  cases inOrder_eq_nil.mp nothing
  obtain ⟨raw, left, ⟨m, run, after, stops⟩, trace, nothing⟩ := one n
  cases inOrder_eq_nil.mp nothing
  cases run with
  | cons step rest =>
    cases rest
    obtain ⟨quiet_step, -⟩ := List.cons_eq_cons.mp ((List.map_cons ..).symm.trans trace)
    cases inOrder_eq_nil.mp quiet_step
    obtain ⟨raw, left, parsed, trace, waits⟩ := both (n + e.embeddings)
    obtain ⟨raw', left', parsed', trace', waits'⟩ := later (n + e.embeddings)
    obtain ⟨as, raw, rfl, entered, trace⟩ := List.map_eq_cons_iff.mp trace
    obtain ⟨bs, raw, rfl, nothing, trace⟩ := List.map_eq_cons_iff.mp trace
    obtain ⟨as', raw', rfl, entered', trace'⟩ := List.map_eq_cons_iff.mp trace'
    cases quiet trace
    cases quiet trace'
    cases inOrder_eq_nil.mp nothing
    refine ⟨_, left' ++ left, Machine.Parses.overlap begins step after (stops c rfl) parsed parsed',
      ?_, ?_⟩
    · simp only [List.map_cons, entered, List.append_nil, entered', List.zipWith_replicate,
        Nat.min_self, List.map_replicate, inOrder_nil]
    · obtain ⟨some_left, same⟩ := inOrder_eq_single.mp waits
      obtain ⟨-, same'⟩ := inOrder_eq_single.mp waits'
      refine inOrder_eq_single.mpr ⟨List.append_ne_nil_of_right_ne_nil _ some_left, ?_⟩
      exact fun x member => (List.mem_append.mp member).elim (same' x) (same x)

/-! ### Rounds and the last character -/

/-- The machine reads the word without coming to a final state. -/
def Reads (e : Expr α A) (w : List α) (tr : List (List A)) : Prop :=
  ∀ n, ∃ raw t, (e.machine n).Reads (e.machine n).start w raw t ∧ raw.map inOrder = tr

/-- The word is a round of a loop over the expression. -/
def Round (e : Expr α A) (w : List α) (tr : List (List A)) : Prop :=
  ∀ n, ∃ raw, (e.machine n).Round w raw ∧ raw.map inOrder = tr

/-- The machine comes to a final state with the character behind the word. -/
def Completes (e : Expr α A) (w : List α) (tr : List (List A)) (c : α) (as : List A) : Prop :=
  ∀ n, ∃ raw last, (e.machine n).Completes w raw c last ∧ raw.map inOrder = tr ∧ inOrder last = as

theorem Round.guard (first : e.Parses (c :: v) (as :: tr) waiting stuck)
    (apart : ∀ x ∈ c :: v, f.begins x = false) (nonempty : f.nullable = false)
    (ends : f.Round (d :: w) (bs :: tr')) (either : waiting = [] ∨ bs = []) :
    (e.guard f).Round (c :: v ++ d :: w) (as :: tr ++ (waiting ++ bs) :: tr') := by
  intro n
  obtain ⟨raw, left, parsed, trace, waits⟩ := first n
  obtain ⟨raw', round, trace'⟩ := ends (n + e.embeddings)
  obtain ⟨begin_, raw, rfl, -, -⟩ := List.map_eq_cons_iff.mp trace
  obtain ⟨begin_', raw', rfl, -, -⟩ := List.map_eq_cons_iff.mp trace'
  refine ⟨_, parsed.roundGuard (fun x member => step_start f _ (apart x member))
    (final_start f _ nonempty) round, border trace waits trace' either⟩

theorem Completes.cat (first : e.Parses u tr waiting (· = c)) (clear : Clear e f u)
    (nonempty : f.nullable = false) (second : f.Completes (c :: v) (as :: tr') d bs)
    (either : waiting = [] ∨ as = []) :
    (e.cat f).Completes (u ++ c :: v) (tr ++ (waiting ++ as) :: tr') d bs := by
  intro n
  obtain ⟨raw, left, parsed, trace, waits⟩ := first n
  obtain ⟨raw', last, completed, trace', ends⟩ := second (n + e.embeddings)
  obtain ⟨begin_, raw', rfl, -, -⟩ := List.map_eq_cons_iff.mp trace'
  exact ⟨_, last, Machine.Completes.seq parsed (clear.machine n _)
    (final_start f _ nonempty) completed, border trace waits trace' either, ends⟩

/-- A first expression that is finished only where it ends. -/
theorem Completes.behind (first : e.Round u tr) (unfinished : e.nullable = false)
    (nonempty : f.nullable = false) (second : f.Completes (c :: v) (as :: tr') d bs) :
    (e.cat f).Completes (u ++ c :: v) (tr ++ as :: tr') d bs := by
  intro n
  obtain ⟨raw, round, rfl⟩ := first n
  obtain ⟨raw', last, completed, trace', ends⟩ := second (n + e.embeddings)
  obtain ⟨begin_, raw', rfl, -, -⟩ := List.map_eq_cons_iff.mp trace'
  refine ⟨_, last, Machine.Completes.behind round (final_start e n unfinished)
    (final_start f _ nonempty) completed, ?_, ends⟩
  rw [List.map_append, trace']

theorem Completes.altLeft (completes : e.Completes (c :: w) tr d as)
    (other : f.begins c = false) : (e.alt f).Completes (c :: w) tr d as := by
  intro n
  obtain ⟨raw, last, completed, trace, ends⟩ := completes n
  exact ⟨raw, last, completed.altLeft (step_start f _ other), trace, ends⟩

theorem Completes.finish (completes : e.Completes w tr d []) :
    (e.finish a).Completes w tr d [a] := by
  intro n
  obtain ⟨raw, last, completed, trace, nothing⟩ := completes n
  cases inOrder_eq_nil.mp nothing
  exact ⟨raw, [(n + e.embeddings, a)], completed.finish, trace, inOrder_single⟩

theorem exists_rounds {rounds : List (List α × List (List A))}
    (each : ∀ r ∈ rounds, e.Round r.1 r.2) (n : Nat) :
    ∃ raws : List (List α × List (List (Nat × A))), (∀ r ∈ raws, (e.machine n).Round r.1 r.2) ∧
      raws.map (fun r => (r.1, r.2.map inOrder)) = rounds := by
  induction rounds with
  | nil => exact ⟨[], fun r member => absurd member List.not_mem_nil, rfl⟩
  | cons r rounds ih =>
      obtain ⟨raws, all, rest⟩ := ih fun r member => each r (List.mem_cons_of_mem _ member)
      obtain ⟨raw, round, trace⟩ := each r List.mem_cons_self n
      refine ⟨(r.1, raw) :: raws, ?_, ?_⟩
      · intro x member
        rcases List.mem_cons.mp member with rfl | later
        · exact round
        · exact all x later
      · rw [List.map_cons, rest, trace]

/-- What ends the rounds could have begun another one. -/
theorem Completes.rounds (rounds : List (List α × List (List A)))
    (unfinished : e.nullable = false) (nonempty : f.nullable = false)
    (each : ∀ r ∈ rounds, e.Round r.1 r.2)
    (apart : ∀ r ∈ rounds, ∀ c ∈ r.1.head?, f.begins c = false)
    (opens : e.Reads [c, d] [as, bs]) (ends : f.Round [c, d] [[], []]) :
    (e.star.cat f).Completes (rounds.flatMap Prod.fst ++ [c]) (rounds.flatMap Prod.snd ++ [as]) d
      bs := by
  intro n
  obtain ⟨raws, all, rfl⟩ := exists_rounds each n
  obtain ⟨raw, t, reads, trace⟩ := opens n
  obtain ⟨raw', ⟨c', v, d', as', rest, bs', word, rfl, m, u, reads', ends, final, -⟩, trace'⟩ :=
    ends (n + e.embeddings)
  obtain ⟨rfl, tail⟩ := List.cons_eq_cons.mp (word.trans (List.cons_append ..))
  obtain ⟨rfl, rfl⟩ : v = [] ∧ d = d' := by
    cases v with
    | nil => exact ⟨rfl, List.singleton_inj.mp tail⟩
    | cons x v => simp at tail
  cases reads with
  | cons first inside reads =>
    cases reads with
    | cons goes_on _ reads =>
      cases reads
      cases reads' with
      | cons enters still reads' =>
        cases reads'
        simp only [List.map_cons, List.map_nil, List.cons_append, List.nil_append,
          List.cons.injEq, and_true, inOrder_eq_nil] at trace trace'
        obtain ⟨rfl, rfl⟩ := trace
        obtain ⟨rfl, rfl⟩ := trace'
        rw [List.flatMap_map, List.flatMap_map]
        refine ⟨_, _, Machine.Completes.rounds (final_start e n unfinished)
          (final_start f _ nonempty) all ?_ first inside goes_on enters still ends ?_, ?_, ?_⟩
        · intro r member x head
          exact step_start f _ (apart _ (List.mem_map.mpr ⟨r, member, rfl⟩) x head)
        · exact congrArg Option.isSome final
        · simp only [List.map_append, List.map_flatMap, List.append_nil, List.map_cons,
            List.map_nil]
        · rw [List.append_nil]

end Parsing

end Expr

end Ragel
