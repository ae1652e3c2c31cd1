import CorReactor.RagelFinish
import Mathlib.Data.List.Lattice

set_option autoImplicit false

/-! Words that come to a final state where actions may wait, alternatives that go along with such
a word, and what a scanner does on it. -/

namespace Ragel

variable {α A P : Type}

/-! ### Actions up to their order -/

section Order

variable [DecidableEq A] {as bs : List (Nat × A)} {xs ys : List (List (Nat × A))}
  {ts us : List (List A)}

theorem nodup_eraseDups (l : List A) : l.eraseDups.Nodup := by
  induction length : l.length using Nat.strongRecOn generalizing l with
  | ind n ih =>
      cases l with
      | nil => exact List.nodup_nil
      | cons a l =>
          rw [List.eraseDups_cons, List.nodup_cons, List.mem_eraseDups]
          refine ⟨?_, ih _ ?_ _ rfl⟩
          · simp only [List.mem_filter, beq_self_eq_true, Bool.not_true, Bool.false_eq_true,
              and_false, not_false_eq_true]
          · rw [← length, List.length_cons]
            exact Nat.lt_succ_of_le (List.length_filter_le _ _)

theorem nodup_inOrder : (inOrder as).Nodup := nodup_eraseDups _

theorem inOrder_append_perm : (inOrder (as ++ bs)).Perm (inOrder as ∪ inOrder bs) := by
  refine (List.perm_ext_iff_of_nodup nodup_inOrder (nodup_inOrder.union _)).mpr fun a => ?_
  simp only [mem_inOrder, List.mem_append, List.mem_union_iff, exists_or]

/-- The actions of each transition are these, in some order. -/
def Like (raw : List (List (Nat × A))) (tr : List (List A)) : Prop :=
  List.Forall₂ (fun as bs => (inOrder as).Perm bs) raw tr

theorem Like.of_eq (same : xs.map inOrder = ts) : Like xs ts := by
  subst same
  induction xs with
  | nil => exact .nil
  | cons as xs ih => exact .cons (List.Perm.refl _) ih

theorem Like.zip (first : Like xs ts) (second : Like ys us) :
    Like (List.zipWith (· ++ ·) xs ys) (List.zipWith (· ∪ ·) ts us) := by
  induction first generalizing ys us with
  | nil => exact .nil
  | cons same _ ih =>
      cases second with
      | nil => exact .nil
      | cons same' rest' =>
          exact .cons (inOrder_append_perm.trans (same.union same')) (ih rest')

theorem Like.append (first : Like xs ts) (second : Like ys us) : Like (xs ++ ys) (ts ++ us) :=
  List.rel_append first second

end Order

namespace Machine

variable {M N : Machine α A} {b c d : α} {u v w : List α} {as bs waiting later : List A}
  {tr tr' : List (List A)}

/-! ### Words to their ends -/

/-- The machine reads the word to a final state, where it stops, and comes to none before. -/
inductive Ends (M : Machine α A) : M.State → List α → List (List A) → List A → Prop
  | last {s t : M.State} {c : α} {as waiting : List A} (step : M.step s c = some (as, t))
      (final : M.final t = some waiting) (stops : ∀ x, M.step t x = none) :
      Ends M s [c] [as] waiting
  | cons {s t : M.State} {c : α} {w : List α} {as waiting : List A} {tr : List (List A)}
      (step : M.step s c = some (as, t)) (still : M.final t = none)
      (rest : Ends M t w tr waiting) : Ends M s (c :: w) (as :: tr) waiting

/-- The same, or it stops inside of the word. -/
inductive Goes (M : Machine α A) : M.State → List α → List (List A) → List A → Prop
  | dies {s : M.State} {c : α} {w : List α} (stops : M.step s c = none) :
      Goes M s (c :: w) (List.replicate (w.length + 1) []) []
  | last {s t : M.State} {c : α} {as waiting : List A} (step : M.step s c = some (as, t))
      (final : M.final t = some waiting) (stops : ∀ x, M.step t x = none) :
      Goes M s [c] [as] waiting
  | cons {s t : M.State} {c : α} {w : List α} {as waiting : List A} {tr : List (List A)}
      (step : M.step s c = some (as, t)) (still : M.final t = none)
      (rest : Goes M t w tr waiting) : Goes M s (c :: w) (as :: tr) waiting

theorem Ends.goes {s : M.State} (ends : M.Ends s w tr waiting) : M.Goes s w tr waiting := by
  induction ends with
  | last step final stops => exact .last step final stops
  | cons step still _ ih => exact .cons step still ih

theorem Reads.ends {s t : M.State} (reads : M.Reads s u tr t) (rest : M.Ends t v tr' waiting) :
    M.Ends s (u ++ v) (tr ++ tr') waiting := by
  induction reads with
  | nil => exact rest
  | cons step still _ ih => exact .cons step still (ih rest)

theorem Reads.goes {s t : M.State} (reads : M.Reads s u tr t) (rest : M.Goes t v tr' waiting) :
    M.Goes s (u ++ v) (tr ++ tr') waiting := by
  induction reads with
  | nil => exact rest
  | cons step still _ ih => exact .cons step still (ih rest)

theorem Reads.length {s t : M.State} (reads : M.Reads s w tr t) : tr.length = w.length := by
  induction reads with
  | nil => rfl
  | cons _ _ _ ih => exact congrArg (· + 1) ih

theorem Round.ends (round : M.Round w tr) : M.Ends M.start w tr [] := by
  obtain ⟨c, v, d, as, tr', bs, rfl, rfl, m, t, reads, step, final, stops⟩ := round
  exact reads.ends (.last step final stops)

theorem Ends.catRight {n : N.State} (ends : N.Ends n w tr waiting) :
    (M.cat N).Ends (none, [n]) w tr waiting := by
  induction ends with
  | last step final stops =>
      exact .last (cat_right step) (catFinal_right.trans final) fun x => cat_right_none (stops x)
  | cons step still _ ih => exact .cons (cat_right step) (catFinal_right.trans still) ih

theorem Goes.catRight {n : N.State} (goes : N.Goes n w tr waiting) :
    (M.cat N).Goes (none, [n]) w tr waiting := by
  induction goes with
  | dies stops => exact .dies (cat_right_none stops)
  | last step final stops =>
      exact .last (cat_right step) (catFinal_right.trans final) fun x => cat_right_none (stops x)
  | cons step still _ ih => exact .cons (cat_right step) (catFinal_right.trans still) ih

theorem Parses.seqEnds (first : M.Parses M.start u tr waiting (· = c)) (clear : Clear M N u)
    (nonempty : N.final N.start = none) (second : N.Ends N.start (c :: v) (as :: tr') later) :
    (M.cat N).Ends (M.cat N).start (u ++ c :: v) (tr ++ (waiting ++ as) :: tr') later := by
  obtain ⟨m, run, final, stops⟩ := first
  refine (run.catReads clear nonempty).ends ?_
  cases second with
  | last enters final' stops' =>
      exact .last (cat_entry final (stops c rfl) enters) (catFinal_right.trans final')
        fun x => cat_right_none (stops' x)
  | cons enters still rest =>
      exact .cons (cat_entry final (stops c rfl) enters) (catFinal_right.trans still) rest.catRight

/-- The first part is parsed, and the second one goes along from there. -/
theorem Parses.seqGoes (first : M.Parses M.start u tr [] (· = c)) (clear : Clear M N u)
    (nonempty : N.final N.start = none) (second : N.Goes N.start (c :: v) tr' later) :
    (M.cat N).Goes (M.cat N).start (u ++ c :: v) (tr ++ tr') later := by
  obtain ⟨m, run, final, stops⟩ := first
  refine (run.catReads clear nonempty).goes ?_
  cases second with
  | dies out =>
      refine .dies ?_
      simp only [cat, left, Option.bind_some, stops c rfl, entry_eq_none (Or.inr out),
        Option.toList_none, right, List.filterMap_nil, List.append_nil, join]
  | last enters final' stops' =>
      exact .last (cat_entry final (stops c rfl) enters) (catFinal_right.trans final')
        fun x => cat_right_none (stops' x)
  | cons enters still rest =>
      exact .cons (cat_entry final (stops c rfl) enters) (catFinal_right.trans still) rest.catRight

theorem Ends.leave {a : A} {s : M.State} (ends : M.Ends s w tr waiting) :
    (M.leave a).Ends s w tr (waiting ++ [a]) := by
  induction ends with
  | last step final stops =>
      exact .last (M := M.leave a) step (by simp only [Machine.leave, final, Option.map_some]) stops
  | cons step still _ ih =>
      exact .cons (M := M.leave a) step (by simp only [Machine.leave, still, Option.map_none]) ih

/-! ### Alternatives -/

theorem Ends.altRight {n : N.State} (ends : N.Ends n w tr waiting) :
    (M.alt N).Ends (none, [n]) w tr waiting := by
  induction ends with
  | last step final stops =>
      refine .last (alt_right step rfl) (alt_final_right.trans final) fun x => ?_
      simp only [alt, left, Option.bind_none, right_single_none (stops x), join]
  | cons step still _ ih => exact .cons (alt_right step rfl) (alt_final_right.trans still) ih

theorem zipWith_nils (tr : List (List A)) :
    List.zipWith (· ++ ·) (List.replicate tr.length []) tr = tr := by
  induction tr with
  | nil => rfl
  | cons as tr ih => exact congrArg (as :: ·) ih

theorem Ends.length {s : M.State} (ends : M.Ends s w tr waiting) : tr.length = w.length := by
  induction ends with
  | last => rfl
  | cons _ _ _ ih => exact congrArg (· + 1) ih

theorem alt_both {m m' : M.State} {n n' : N.State} (step : M.step m c = some (as, m'))
    (step' : N.step n c = some (bs, n')) :
    (M.alt N).step (some m, [n]) c = some (as ++ bs, (some m', [n'])) := by
  simp only [alt, left, Option.bind_some, step, right_single step', join_some, List.flatMap_cons,
    List.flatMap_nil, List.append_nil, List.map_cons, List.map_nil]

/-- One alternative ends with the word, and the other one goes along. -/
theorem Ends.alt {m : M.State} {n : N.State} (ends : N.Ends n w tr waiting)
    (goes : M.Goes m w tr' later) :
    (M.alt N).Ends (some m, [n]) w (List.zipWith (· ++ ·) tr' tr) (later ++ waiting) := by
  induction ends generalizing m tr' later with
  | last step final stops =>
      cases goes with
      | dies out =>
          have alone : (M.alt N).Ends (some m, [_]) [_] [_] _ :=
            .last (alt_right step (by simp only [left, Option.bind_some, out]))
              (alt_final_right.trans final) fun x => by
                simp only [Machine.alt, left, Option.bind_none, right_single_none (stops x), join]
          exact alone
      | last step' final' stops' =>
          refine .last (alt_both step' step) ?_ fun x => ?_
          · simp only [Machine.alt, Option.bind_some, final', Option.toList_some,
              List.filterMap_cons, final, List.filterMap_nil, List.singleton_append, gather,
              List.flatten_cons, List.flatten_nil, List.append_nil]
          · simp only [Machine.alt, left, Option.bind_some, stops' x, right_single_none (stops x),
              join]
      | cons _ _ rest => cases rest
  | cons step still rest ih =>
      cases goes with
      | dies out =>
          refine .cons (alt_right step (by simp only [left, Option.bind_some, out]))
            (alt_final_right.trans still) ?_
          have alone := rest.altRight (M := M)
          rw [← rest.length, zipWith_nils]
          exact alone
      | last => cases rest
      | cons step' still' rest' =>
          refine .cons (alt_both step' step) ?_ (ih rest')
          simp only [Machine.alt, Option.bind_some, still', Option.toList_none,
            List.filterMap_cons, still, List.filterMap_nil, List.append_nil, gather]

/-- An alternative that begins with another word goes along until it is refuted, and does
nothing. `R` are the states where it does nothing. -/
theorem goes_apart {R : M.State → Prop}
    (quiet : ∀ s c as t, R s → M.step s c = some (as, t) → as = [] ∧ R t) {s : M.State} (held : R s)
    (rejected : M.acceptsFrom s u = false) (apart : ∀ x ∈ u, N.step N.start x = none)
    (nonempty : N.final N.start = none) (stops : ∀ t, M.step t c = none) :
    (M.cat N).Goes (some s, []) (u ++ c :: v) (List.replicate (u ++ c :: v).length []) [] := by
  induction u generalizing s with
  | nil =>
      refine .dies ?_
      have unfinished : M.final s = none := Option.isNone_iff_eq_none.mp (by
        rw [← Option.not_isSome]
        exact (Bool.not_eq_true' _).mpr rejected)
      simp only [cat, left, Option.bind_some, stops s, entry_eq_none (Or.inl unfinished),
        Option.toList_none, right, List.filterMap_nil, List.append_nil, join]
  | cons x u ih =>
      have free := apart x List.mem_cons_self
      cases step : M.step s x with
      | none =>
          refine .dies ?_
          simp only [cat, left, Option.bind_some, step, entry_eq_none (Or.inr free),
            Option.toList_none, right, List.filterMap_nil, List.append_nil, join]
      | some r =>
          obtain ⟨as, t⟩ := r
          obtain ⟨rfl, held'⟩ := quiet s x as t held step
          have later : M.acceptsFrom t u = false := by
            rw [acceptsFrom, step] at rejected
            exact rejected
          exact .cons (cat_left step (Or.inr free)) (catFinal_before nonempty)
            (ih held' later fun y member => apart y (List.mem_cons_of_mem x member))

/-! ### Words of one character after the other -/

theorem acceptsFrom_catRight {n : N.State} :
    (M.cat N).acceptsFrom (none, [n]) w = N.acceptsFrom n w := by
  induction w generalizing n with
  | nil => exact congrArg Option.isSome catFinal_right
  | cons c w ih =>
      cases step : N.step n c with
      | none => simp only [acceptsFrom, cat_right_none step, step]
      | some r => simp only [acceptsFrom, cat_right step, step, ih]

/-- Where the first part is at its end, the second one is left. -/
theorem acceptsFrom_cat_behind {m : M.State} (final : M.final m = some waiting)
    (ended : ∀ x, M.step m x = none) : (M.cat N).acceptsFrom (some m, []) w = N.accepts w := by
  cases w with
  | nil =>
      change (catFinal M N (some m, [])).isSome = (N.final N.start).isSome
      cases inner : N.final N.start with
      | none => rw [catFinal_before inner]
      | some later => rw [catFinal_through final inner, Option.isSome_some, Option.isSome_some]
  | cons c v =>
      cases step : N.step N.start c with
      | none =>
          have stops : (M.cat N).step (some m, []) c = none := by
            simp only [cat, left, Option.bind_some, ended c, entry_eq_none (Or.inr step),
              Option.toList_none, right, List.filterMap_nil, List.append_nil, join]
          simp only [accepts, acceptsFrom, stops, step]
      | some r =>
          simp only [accepts, acceptsFrom, cat_entry final (ended c) step, step,
            acceptsFrom_catRight]

theorem of_accepts_chars {p : α → Bool} (accepted : (chars p : Machine α A).accepts w = true) :
    ∃ c, w = [c] ∧ p c = true := by
  cases w with
  | nil => cases accepted
  | cons c w =>
      cases held : p c with
      | false =>
          have stops : (chars p : Machine α A).step (chars p : Machine α A).start c = none := by
            simp only [chars, held, Bool.and_false, Bool.false_eq_true, if_false]
          rw [accepts, acceptsFrom, stops] at accepted
          cases accepted
      | true =>
          have reads : (chars p : Machine α A).step (chars p : Machine α A).start c =
              some ([], true) := by
            simp only [chars, Bool.not_false, held, Bool.and_self, if_true]
          rw [accepts, acceptsFrom, reads] at accepted
          cases w with
          | nil => exact ⟨c, rfl, held⟩
          | cons d w => cases accepted

theorem accepts_chars_cat {p : α → Bool} (accepted : ((chars p).cat N).accepts w = true) :
    ∃ c v, w = c :: v ∧ p c = true ∧ N.accepts v = true := by
  cases w with
  | nil => cases accepted
  | cons c v =>
      cases held : p c with
      | false =>
          have stops : ((chars p).cat N).step ((chars p).cat N).start c = none := by
            simp only [cat, left, chars, Option.bind_some, held, Bool.and_false,
              Bool.false_eq_true, if_false, entry, Option.bind_none, Option.toList_none, right,
              List.filterMap_nil, List.append_nil, join]
          rw [accepts, acceptsFrom, stops] at accepted
          cases accepted
      | true =>
          have reads : ((chars p).cat N).step ((chars p).cat N).start c =
              some ([], (some true, [])) := by
            refine cat_left ?_ (Or.inl rfl)
            simp only [chars, Bool.not_false, held, Bool.and_self, if_true]
          rw [accepts, acceptsFrom, reads] at accepted
          exact ⟨c, v, rfl, held, (acceptsFrom_cat_behind rfl fun _ => rfl).symm.trans accepted⟩

/-! ### Loops -/

/-- Inside of a round, in front of what follows the loop. -/
theorem Ends.star {m : M.State} (ends : M.Ends m w tr waiting) (unfinished : M.final m = none)
    (nonempty : N.final N.start = none) :
    ∃ t, (M.star.cat N).Reads (some [m], []) w tr (some [t], []) ∧ M.Resting [t] waiting := by
  induction ends with
  | last step final stops =>
      refine ⟨_, .cons ?_ (catFinal_before nonempty) (.nil _), resting_single final stops⟩
      exact cat_left (star_inside step unfinished) (Or.inl (again_single.trans unfinished))
  | cons step still _ ih =>
      obtain ⟨t, reads, resting⟩ := ih still
      refine ⟨t, .cons ?_ (catFinal_before nonempty) reads, resting⟩
      exact cat_left (star_inside step unfinished) (Or.inl (again_single.trans unfinished))

/-- A round, with what has been waiting. -/
theorem Ends.round {ms : List M.State} (resting : M.Resting ms waiting)
    (ends : M.Ends M.start (c :: w) (as :: tr) later) (apart : N.step N.start c = none)
    (nonempty : N.final N.start = none) :
    ∃ t, (M.star.cat N).Reads (some ms, []) (c :: w) ((waiting ++ as) :: tr) (some [t], []) ∧
      M.Resting [t] later := by
  cases ends with
  | last step final stops =>
      exact ⟨_, .cons (cat_left (star_round resting step) (Or.inr apart))
        (catFinal_before nonempty) (.nil _), resting_single final stops⟩
  | cons step still rest =>
      obtain ⟨t, reads, rested⟩ := rest.star still nonempty
      exact ⟨t, .cons (cat_left (star_round resting step) (Or.inr apart))
        (catFinal_before nonempty) reads, rested⟩

/-! ### Loops with stamps -/

section Stamps

variable [DecidableEq A] {L K : Machine α (Nat × A)} {W W' W'' xs : List A} {ts us : List (List A)}

/-- Rounds of a loop from where the first actions are waiting to where the others are. -/
def Looping (L K : Machine α (Nat × A)) (W : List A) (w : List α) (tr : List (List A))
    (W' : List A) : Prop :=
  ∀ ms waiting, L.Resting ms waiting → (inOrder waiting).Perm W →
    ∃ ms' raw later, (L.star.cat K).Reads (some ms, []) w raw (some ms', []) ∧
      L.Resting ms' later ∧ Like raw tr ∧ (inOrder later).Perm W'

theorem Looping.nil : Looping L K W [] [] W :=
  fun ms waiting resting same => ⟨ms, [], waiting, .nil _, resting, .nil, same⟩

theorem Looping.append (first : Looping L K W u ts W') (second : Looping L K W' v us W'') :
    Looping L K W (u ++ v) (ts ++ us) W'' := by
  intro ms waiting resting same
  obtain ⟨ms', raw, later, reads, resting', like, same'⟩ := first ms waiting resting same
  obtain ⟨ms'', raw', last, reads', resting'', like', same''⟩ := second ms' later resting' same'
  exact ⟨ms'', _, last, reads.append reads', resting'', like.append like', same''⟩

theorem Looping.round {raw : List (List (Nat × A))} {later : List (Nat × A)}
    (ends : L.Ends L.start (c :: w) raw later) (like : Like raw (xs :: ts))
    (same : (inOrder later).Perm W') (apart : K.step K.start c = none)
    (nonempty : K.final K.start = none) :
    Looping L K W (c :: w) ((W ∪ xs) :: ts) W' := by
  intro ms waiting resting before
  cases like with
  | cons first rest =>
      obtain ⟨t, reads, rested⟩ := ends.round resting apart nonempty
      exact ⟨[t], _, later, reads, rested,
        .cons (inOrder_append_perm.trans (before.union first)) rest, same⟩

/-- Behind the rounds the two characters of what follows the loop. -/
theorem Looping.completes {n n' : K.State} (looping : Looping L K [] w ts W)
    (unfinished : L.final L.start = none) (outside : L.step L.start c = none)
    (enters : K.step K.start c = some ([], n)) (still : K.final n = none)
    (ends : K.step n d = some ([], n')) (final : (K.final n').isSome = true) :
    ∃ raw, (L.star.cat K).Completes (w ++ [c]) raw d [] ∧ Like raw (ts ++ [W]) := by
  obtain ⟨ms, raw, waiting, reads, resting, like, same⟩ :=
    looping [] [] (resting_start unfinished) (List.Perm.refl _)
  have leaves : (L.star.cat K).step (some ms, []) c = some (waiting, (none, [n])) := by
    have stays : L.star.step ms c = none := by
      simp only [Machine.star, resting.1, resting.2, Option.bind_some, outside, Option.map_none,
        Option.toList_none, List.append_nil]
    have opens : L.star.final ms = some waiting := resting.1
    rw [cat_entry opens stays enters, List.append_nil]
  refine ⟨raw ++ [waiting], ⟨(none, [n]), (none, [n']), ?_, cat_right ends, ?_⟩, ?_⟩
  · exact reads.append (.cons leaves (catFinal_right.trans still) (.nil _))
  · exact (congrArg Option.isSome catFinal_right).trans final
  · exact like.append (.cons same .nil)

end Stamps

/-! ### Scanning -/

section Scan

variable {perform : Nat → List A → P → Option (P × Bool)} {s t : M.State} {p : Nat} {x y z : P}

/-- The actions of the characters from offset `p` on, none of which breaks the loop. -/
def play (perform : Nat → List A → P → Option (P × Bool)) : Nat → List (List A) → P → Option P
  | _, [], x => some x
  | p, as :: rest, x =>
      match perform p as x with
      | some (y, false) => play perform (p + 1) rest y
      | _ => none

theorem exec_of_reads (reads : M.Reads s w tr t) (played : play perform p tr x = some y)
    (rest : List α) :
    M.exec perform s p (w ++ rest) x = M.exec perform t (p + w.length) rest y := by
  induction reads generalizing p x with
  | nil =>
      cases played
      rfl
  | @cons _ _ _ c w _ _ step _ _ ih =>
      rw [play] at played
      split at played
      case h_1 next performed =>
        rw [List.cons_append, exec, step]
        dsimp only
        rw [performed, Option.bind_some]
        dsimp only
        rw [if_neg Bool.false_ne_true, ih played, List.length_cons, Nat.add_assoc, Nat.add_comm 1]
      case h_2 => cases played

/-- The loop is broken off by the character that completes a word. -/
theorem exec_of_completes (completes : M.Completes w tr c as)
    (played : play perform p tr x = some y)
    (performed : perform (p + w.length) as y = some (z, true)) (rest : List α) :
    ∃ u, M.exec perform M.start p (w ++ c :: rest) x = some (some u, p + w.length + 1, z) ∧
      (M.final u).isSome = true := by
  obtain ⟨t, u, reads, step, final⟩ := completes
  refine ⟨u, ?_, final⟩
  rw [exec_of_reads reads played, exec, step]
  dsimp only
  rw [performed, Option.bind_some]
  dsimp only
  rw [if_pos rfl]

end Scan

end Machine

namespace Expr

variable [DecidableEq A] {e f g : Expr α A} {u v w : List α} {c x : α} {a b : A}
  {as waiting later : List A} {tr tr' : List (List A)}

/-- The word ends in a final state with these actions waiting, wherever the stamps begin. -/
def Ends (e : Expr α A) (w : List α) (tr : List (List A)) (waiting : List A) : Prop :=
  ∀ n, ∃ raw left, (e.machine n).Ends (e.machine n).start w raw left ∧ Like raw tr ∧
    (inOrder left).Perm waiting

def Goes (e : Expr α A) (w : List α) (tr : List (List A)) (waiting : List A) : Prop :=
  ∀ n, ∃ raw left, (e.machine n).Goes (e.machine n).start w raw left ∧ Like raw tr ∧
    (inOrder left).Perm waiting

theorem Ends.goes (ends : e.Ends w tr waiting) : e.Goes w tr waiting := by
  intro n
  obtain ⟨raw, left, ended, rest⟩ := ends n
  exact ⟨raw, left, ended.goes, rest⟩

theorem Round.ends (round : e.Round w tr) : e.Ends w tr [] := by
  intro n
  obtain ⟨raw, ended, trace⟩ := round n
  exact ⟨raw, [], ended.ends, .of_eq trace, List.Perm.refl _⟩

theorem Parses.ends (first : e.Parses u tr waiting (· = c)) (clear : Clear e f u)
    (nonempty : f.nullable = false) (second : f.Ends (c :: v) (as :: tr') later)
    (either : waiting = [] ∨ as = []) :
    (e.cat f).Ends (u ++ c :: v) (tr ++ (waiting ++ as) :: tr') later := by
  intro n
  obtain ⟨raw, left, parsed, trace, rfl⟩ := first n
  obtain ⟨raw', left', ended, like, same⟩ := second (n + e.embeddings)
  cases like with
  | cons here rest =>
      refine ⟨_, left', parsed.seqEnds (clear.machine n _) (final_start f _ nonempty) ended,
        (Like.of_eq trace).append (.cons ?_ rest), same⟩
      rcases either with nothing | rfl
      · rw [inOrder_append (Or.inl nothing)]
        exact here.append_left _
      · rw [inOrder_append (Or.inr here.eq_nil), here.eq_nil]

theorem Parses.goes (first : e.Parses u tr [] (· = c)) (clear : Clear e f u)
    (nonempty : f.nullable = false) (second : f.Goes (c :: v) tr' later) :
    (e.cat f).Goes (u ++ c :: v) (tr ++ tr') later := by
  intro n
  obtain ⟨raw, left, parsed, trace, nothing⟩ := first n
  obtain ⟨raw', left', gone, like, same⟩ := second (n + e.embeddings)
  cases inOrder_eq_nil.mp nothing
  exact ⟨_, left', parsed.seqGoes (clear.machine n _) (final_start f _ nonempty) gone,
    (Like.of_eq trace).append like, same⟩

theorem Ends.leave (ends : e.Ends w tr []) : (e.leave a).Ends w tr [a] := by
  intro n
  obtain ⟨raw, left, ended, like, same⟩ := ends n
  cases inOrder_eq_nil.mp same.eq_nil
  refine ⟨raw, _, ended.leave, like, ?_⟩
  rw [List.nil_append, inOrder_single]

theorem Ends.alt (ends : f.Ends w tr waiting) (goes : e.Goes w tr' later) :
    (e.alt f).Ends w (List.zipWith (· ∪ ·) tr' tr) (later ∪ waiting) := by
  intro n
  obtain ⟨raw, left, ended, like, same⟩ := ends (n + e.embeddings)
  obtain ⟨raw', left', gone, like', same'⟩ := goes n
  exact ⟨_, _, ended.alt gone, like'.zip like, inOrder_append_perm.trans (same'.union same)⟩

omit [DecidableEq A] in
/-- A word of classes of characters. -/
theorem forall₂_of_accepts {n : Nat} {ps : List (α → Bool)} (some_class : ps ≠ [])
    (accepted : ((seq (ps.map (chars (A := A)))).machine n).accepts w = true) :
    List.Forall₂ (fun c p => p c = true) w ps := by
  induction ps generalizing n w with
  | nil => exact absurd rfl some_class
  | cons p ps ih =>
      cases ps with
      | nil =>
          obtain ⟨c, rfl, held⟩ := Machine.of_accepts_chars accepted
          exact .cons held .nil
      | cons q ps =>
          obtain ⟨c, v, rfl, held, rest⟩ := Machine.accepts_chars_cat accepted
          exact .cons held (ih (List.cons_ne_nil q ps) rest)

/-! ### Alternatives that begin with another word -/

theorem like_nils {n : Nat} :
    Like (List.replicate n ([] : List (Nat × A))) (List.replicate n []) :=
  .of_eq (by rw [List.map_replicate, inOrder_nil])

theorem goes_of_begins (other : e.begins c = false) :
    e.Goes (c :: w) (List.replicate (w.length + 1) []) [] :=
  fun n => ⟨_, [], .dies (step_start e n other), like_nils, List.Perm.refl _⟩

omit [DecidableEq A] in
theorem silent_step (silent : e.actions = []) {n : Nat} {s t : (e.machine n).State}
    {as : List (Nat × A)} (step : (e.machine n).step s c = some (as, t)) : as = [] := by
  refine List.eq_nil_iff_forall_not_mem.mpr fun a member => ?_
  have inside := (((machine_within e n).step s c as t step).2 a member).2
  rw [silent] at inside
  cases inside

/-- A word without actions. -/
theorem goes_word (silent : e.actions = []) (rejected : (e.machine 0).accepts u = false)
    (apart : ∀ x ∈ u, f.begins x = false) (nonempty : f.nullable = false)
    (stops : e.reads c = false) :
    (e.cat f).Goes (u ++ c :: v) (List.replicate (u ++ c :: v).length []) [] := by
  intro n
  rw [machine_silent silent 0 n] at rejected
  refine ⟨_, [], ?_, like_nils, List.Perm.refl _⟩
  exact Machine.goes_apart (R := fun _ => True)
    (fun s d as t _ step => ⟨silent_step silent step, trivial⟩) trivial rejected
    (fun y member => step_start f _ (apart y member)) (final_start f _ nonempty)
    fun t => step_eq_none stops

/-- A word with an entering action and a leaving one: the first one may be executed. -/
theorem goes_marked (silent : e.actions = []) (rejected : (e.machine 0).accepts (x :: u) = false)
    (apart : ∀ y ∈ x :: u, f.begins y = false) (nonempty : f.nullable = false)
    (stops : e.reads c = false) :
    ∃ first, (first = [] ∨ first = [a]) ∧ (((e.enter a).leave b).cat f).Goes
      (x :: u ++ c :: v) (first :: List.replicate (u ++ c :: v).length []) [] := by
  cases opens : ((e.machine 0).step (e.machine 0).start x).isSome with
  | false =>
      refine ⟨[], .inl rfl, fun n => ⟨_, [], .dies ?_, like_nils, List.Perm.refl _⟩⟩
      rw [machine_silent silent 0 (n + 1), ← Bool.not_eq_true, Option.not_isSome_iff_eq_none]
        at opens
      have free := step_start f (n + ((e.enter a).leave b).embeddings) (apart x List.mem_cons_self)
      simp only [machine, Machine.cat, Machine.left, Machine.leave, Machine.enter,
        Option.bind_some, opens, Option.map_none, Machine.right, List.filterMap_nil,
        List.append_nil]
      rw [Machine.entry_eq_none (Or.inr free)]
      rfl
  | true =>
      refine ⟨[a], .inr rfl, fun n => ?_⟩
      rw [machine_silent silent 0 (n + 1), Option.isSome_iff_exists] at opens
      rw [machine_silent silent 0 (n + 1)] at rejected
      obtain ⟨⟨as, t⟩, opens⟩ := opens
      cases silent_step silent opens
      have free (y : α) (member : y ∈ x :: u) :=
        step_start f (n + ((e.enter a).leave b).embeddings) (apart y member)
      have enters : (((e.enter a).leave b).machine n).step (((e.enter a).leave b).machine n).start
          x = some ([(n, a)], some t) := by
        simp only [machine, Machine.leave, Machine.enter, opens, Option.map_some]
      have later : (((e.enter a).leave b).machine n).acceptsFrom (some t) u = false := by
        rw [Machine.accepts, Machine.acceptsFrom, opens] at rejected
        exact Machine.acceptsFrom_leave.trans (Machine.acceptsFrom_enter.trans rejected)
      have rest := Machine.goes_apart (N := f.machine (n + ((e.enter a).leave b).embeddings))
        (v := v) (R := fun s => s ≠ none) ?_ (Option.some_ne_none t) later
        (fun y member => free y (List.mem_cons_of_mem x member)) (final_start f _ nonempty)
        fun s => step_eq_none (e := (e.enter a).leave b) stops
      · refine ⟨_, [], .cons (Machine.cat_left enters (Or.inr (free x List.mem_cons_self)))
          (Machine.catFinal_before (final_start f _ nonempty)) rest, ?_, List.Perm.refl _⟩
        exact .cons (by rw [inOrder_single]) like_nils
      · intro s y bs m held step
        cases s with
        | none => exact absurd rfl held
        | some s =>
            obtain ⟨⟨cs, m'⟩, inside, same⟩ := Option.map_eq_some_iff.mp step
            cases same
            exact ⟨silent_step silent inside, Option.some_ne_none m'⟩

/-! ### Rounds of a loop -/

/-- A round, in front of a part that begins with other words. -/
theorem Ends.looping {W W' xs : List A} {ts : List (List A)} (ends : e.Ends (c :: w) (xs :: ts) W')
    (apart : f.begins c = false) (nonempty : f.nullable = false) (n k : Nat) :
    Machine.Looping (e.machine n) (f.machine k) W (c :: w) ((W ∪ xs) :: ts) W' := by
  obtain ⟨raw, left, ended, like, same⟩ := ends n
  exact .round ended like same (step_start f k apart) (final_start f k nonempty)

/-! ### Together with such alternatives -/

theorem union_nils (tr : List (List A)) :
    List.zipWith (· ∪ ·) (List.replicate tr.length []) tr = tr := by
  induction tr with
  | nil => rfl
  | cons as tr ih => exact congrArg (as :: ·) ih

theorem Ends.length (ends : e.Ends w tr waiting) : tr.length = w.length := by
  obtain ⟨raw, left, ended, like, -⟩ := ends 0
  rw [← List.Forall₂.length_eq like]
  exact ended.length

theorem Ends.altQuiet (ends : f.Ends w tr waiting)
    (goes : e.Goes w (List.replicate w.length []) []) : (e.alt f).Ends w tr waiting := by
  have both := ends.alt goes
  rw [← ends.length, union_nils] at both
  exact both

/-- The other alternative does at first what this one does, if anything. -/
theorem Ends.altSame {first : List A} (ends : f.Ends (c :: w) ([a] :: tr) waiting)
    (either : first = [] ∨ first = [a])
    (goes : e.Goes (c :: w) (first :: List.replicate w.length []) []) :
    (e.alt f).Ends (c :: w) ([a] :: tr) waiting := by
  have both := ends.alt goes
  have length : tr.length = w.length := Nat.succ.inj ends.length
  rw [← length, List.zipWith_cons_cons, union_nils] at both
  rcases either with rfl | rfl
  · exact both
  · have same : ([a] ∪ [a] : List A) = [a] := List.insert_of_mem (List.mem_singleton_self a)
    rw [same] at both
    exact both

end Expr

end Ragel
