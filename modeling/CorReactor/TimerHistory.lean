import CorReactor.TimerInvariant
import Mathlib.Algebra.Order.BigOperators.Group.List

set_option autoImplicit false

/-! How often a timer is handed out or cancelled over a whole run. -/

namespace CorReactor

/-- How often a call hands out the callback of `t`. -/
def TimerRet.handouts {γ : Type} (t : TimerId) : TimerRet γ → Nat
  | .expired cbs => (cbs.map Prod.fst).count t
  | _ => 0

/-- How often a call cancels `t` successfully. -/
def TimerRet.cancels {γ : Type} (t : TimerId) : TimerRet γ → Nat
  | .cancelled u true => if u = t then 1 else 0
  | _ => 0

/-- Hand-outs and successful cancels together. -/
def TimerRet.spends {γ : Type} (t : TimerId) (ret : TimerRet γ) : Nat :=
  ret.handouts t + ret.cancels t

namespace TimerManager

variable {γ : Type} {m next : TimerManager γ} {op : TimerOp γ} {ret : TimerRet γ} {t : TimerId}

/-! ### One operation -/

theorem Expiry.handouts {now_ms : UInt64} {expired : List TimerId}
    {cbs : List (TimerId × Option γ)} (expiry : Expiry m now_ms expired cbs next) :
    (TimerRet.expired cbs).handouts t = expired.count t := by
  change (cbs.map Prod.fst).count t = _
  rw [expiry.names]

/-- What one operation means for the timer `t`. -/
structure Local (m next : TimerManager γ) (ret : TimerRet γ) (t : TimerId) : Prop where
  member : 0 < ret.spends t → t ∈ m.m_timers
  once : ret.spends t ≤ 1
  cancelled : 0 < ret.cancels t → t ∉ next.m_timers
  handed : 0 < ret.handouts t → (m.timer t).m_recurring = false → t ∉ next.m_timers
  recurring : t < m.count → (next.timer t).m_recurring = (m.timer t).m_recurring
  gone : t < m.count → t ∉ m.m_timers → t ∉ next.m_timers
  count : m.count ≤ next.count

/-- An operation that hands out and cancels nothing. -/
theorem Local.quiet (handouts : ret.handouts t = 0) (cancels : ret.cancels t = 0)
    (recurring : t < m.count → (next.timer t).m_recurring = (m.timer t).m_recurring)
    (gone : t < m.count → t ∉ m.m_timers → t ∉ next.m_timers) (count : m.count ≤ next.count) :
    Local m next ret t := by
  have nothing : ret.spends t = 0 := by rw [TimerRet.spends, handouts, cancels]
  refine ⟨?_, ?_, ?_, ?_, recurring, gone, count⟩
  · intro spent
    omega
  · omega
  · intro cancelled
    omega
  · intro handed
    omega

/-- A timer object is replaced by one of the same kind. -/
theorem recurring_of_update {u : TimerId} {timer : Timer γ}
    (objects : next.timer = Function.update m.timer u timer)
    (kind : timer.m_recurring = (m.timer u).m_recurring) (t : TimerId) :
    (next.timer t).m_recurring = (m.timer t).m_recurring := by
  rw [objects, Function.update_apply]
  split
  · rename_i same
    rw [kind, same]
  · rfl

theorem Local.cancelled_here {u : TimerId} (inside : u ∈ m.m_timers)
    (timer : next.timer = Function.update m.timer u { m.timer u with m_cb := none })
    (count : next.count = m.count) (mem : ∀ v, v ∈ next.m_timers ↔ v ∈ m.m_timers ∧ v ≠ u)
    (t : TimerId) : Local m next (TimerRet.cancelled u true) t := by
  have spends : (TimerRet.cancelled u true : TimerRet γ).spends t = if u = t then 1 else 0 :=
    Nat.zero_add _
  refine ⟨?_, ?_, ?_, ?_, ?_, ?_, Nat.le_of_eq count.symm⟩
  · intro spent
    rw [spends] at spent
    split at spent
    · rename_i same
      exact same ▸ inside
    · exact absurd spent (Nat.lt_irrefl 0)
  · rw [spends]
    split <;> omega
  · intro cancelled present
    have same : u = t := by
      by_contra ne
      have zero : (TimerRet.cancelled u true : TimerRet γ).cancels t = 0 := if_neg ne
      omega
    exact ((mem t).mp present).2 same.symm
  · intro handed
    exact absurd handed (Nat.lt_irrefl 0)
  · exact fun _ => recurring_of_update timer rfl t
  · intro _ outside present
    exact outside ((mem t).mp present).1

theorem Local.expired_here (stored : Stored [] m) {now : UInt64} {expired : List TimerId}
    {cbs : List (TimerId × Option γ)} (expiry : Expiry m now expired cbs next) (t : TimerId) :
    Local m next (TimerRet.expired cbs) t := by
  have nodup : expired.Nodup := stored.nodup.sublist expiry.front.sublist
  have spends : (TimerRet.expired cbs).spends t = expired.count t := expiry.handouts
  refine ⟨?_, ?_, ?_, ?_, ?_, ?_, Nat.le_of_eq expiry.count.symm⟩
  · intro spent
    rw [spends] at spent
    exact expiry.front.subset (List.count_pos_iff.mp spent)
  · rw [spends]
    exact List.nodup_iff_count_le_one.mp nodup t
  · intro cancelled
    exact absurd cancelled (Nat.lt_irrefl 0)
  · intro handed once present
    rw [expiry.handouts] at handed
    have again := ((expiry.mem t).mp present).2 (List.count_pos_iff.mp handed)
    rw [once] at again
    cases again
  · intro _
    rw [expiry.timer]
    split
    · unfold expiredTimer
      split <;> rfl
    · rfl
  · intro _ outside present
    exact outside ((expiry.mem t).mp present).1

theorem Effect.local (stored : Stored [] m) (effect : Effect m op ret next) (t : TimerId) :
    Local m next ret t := by
  cases effect with
  | added timer count mem =>
      refine Local.quiet rfl rfl ?_ ?_ (by omega)
      · intro old
        rw [timer, Function.update_of_ne (Nat.ne_of_lt old)]
      · intro old outside inside
        rcases (mem t).mp inside with rfl | inside
        · exact Nat.lt_irrefl _ old
        · exact outside inside
  | cancelled callable timer count mem =>
      exact .cancelled_here (stored.mem_of_callable callable) timer count mem t
  | refreshed callable timer count mem | resetDone callable timer count mem =>
      refine Local.quiet rfl rfl ?_ ?_ (Nat.le_of_eq count.symm)
      · exact fun _ => recurring_of_update timer rfl t
      · intro _ outside present
        exact outside ((mem t).mp present)
  | expired expiry => exact .expired_here stored expiry t
  | next timer count mem =>
      refine Local.quiet rfl rfl ?_ ?_ (Nat.le_of_eq count.symm)
      · intro _
        rw [timer]
      · intro _ outside present
        exact outside ((mem t).mp present)
  | cancelSpent | refreshSpent | resetSame _ | resetSpent =>
      exact Local.quiet rfl rfl (fun _ => rfl) (fun _ outside => outside) (Nat.le_refl _)

/-! ### Whole runs -/

/-- The timer `t` in the results of a run that ends in `m`. -/
structure HandedOut (m : TimerManager γ) (rets : List (TimerRet γ)) (t : TimerId) : Prop where
  once_a_call : ∀ ret ∈ rets, ret.handouts t ≤ 1
  not_after_cancel : rets.Pairwise fun ret later => 0 < ret.cancels t → later.handouts t = 0
  not_cancelled_after : (m.timer t).m_recurring = false →
    rets.Pairwise fun ret later => 0 < ret.handouts t → later.cancels t = 0
  total : (m.timer t).m_recurring = false →
    (rets.map (TimerRet.handouts t)).sum + (rets.map (TimerRet.cancels t)).sum ≤ 1

/-- The invariant: a timer that was cancelled, or handed out without recurring, has left
the set for good. -/
structure Traced (m : TimerManager γ) (rets : List (TimerRet γ)) (t : TimerId) : Prop
    extends HandedOut m rets t where
  known : ∀ ret ∈ rets, 0 < ret.spends t → t < m.count
  cancelled_gone : ∀ ret ∈ rets, 0 < ret.cancels t → t ∉ m.m_timers
  handed_gone : (m.timer t).m_recurring = false →
    ∀ ret ∈ rets, 0 < ret.handouts t → t ∉ m.m_timers

theorem sum_spends (rets : List (TimerRet γ)) (t : TimerId) :
    (rets.map (TimerRet.handouts t)).sum + (rets.map (TimerRet.cancels t)).sum =
      (rets.map (TimerRet.spends t)).sum := by
  induction rets with
  | nil => rfl
  | cons ret rest ih =>
      have head : ret.spends t = ret.handouts t + ret.cancels t := rfl
      simp only [List.map_cons, List.sum_cons]
      omega

theorem sum_quiet {rets : List (TimerRet γ)} (quiet : ∀ ret ∈ rets, ret.spends t = 0) :
    (rets.map (TimerRet.spends t)).sum = 0 := by
  apply List.sum_eq_zero_iff_forall_eq_nat.mpr
  intro n member
  obtain ⟨ret, inside, rfl⟩ := List.mem_map.mp member
  exact quiet ret inside

theorem handouts_le (ret : TimerRet γ) (t : TimerId) : ret.handouts t ≤ ret.spends t :=
  Nat.le_add_right _ _

theorem cancels_le (ret : TimerRet γ) (t : TimerId) : ret.cancels t ≤ ret.spends t :=
  Nat.le_add_left _ _

section

variable {rets : List (TimerRet γ)}

/-- A timer that an earlier call has spent keeps its kind. -/
theorem Traced.earlier (traced : Traced m rets t) (here : Local m next ret t)
    (once : (next.timer t).m_recurring = false) {old : TimerRet γ} (member : old ∈ rets)
    (spent : 0 < old.spends t) : (m.timer t).m_recurring = false := by
  rw [← here.recurring (traced.known old member spent)]
  exact once

/-- A call that spends a timer that does not recur is the first to do so. -/
theorem Traced.fresh (stored : Stored [] m) (traced : Traced m rets t)
    (here : Local m next ret t) (once : (next.timer t).m_recurring = false)
    (spent : 0 < ret.spends t) : ∀ old ∈ rets, old.spends t = 0 := by
  intro old member
  have inside := here.member spent
  have same := here.recurring (stored.created t (Or.inl inside))
  have handed := traced.handed_gone (same ▸ once) old member
  have cancelled := traced.cancelled_gone old member
  unfold TimerRet.spends
  by_contra positive
  rcases Nat.eq_zero_or_pos (old.handouts t) with none | some
  · exact cancelled (by omega) inside
  · exact handed some inside

theorem Traced.not_cancelled (stored : Stored [] m) (traced : Traced m rets t)
    (here : Local m next ret t) (once : (next.timer t).m_recurring = false) :
    (rets ++ [ret]).Pairwise fun ret later => 0 < ret.handouts t → later.cancels t = 0 := by
  have past : rets.Pairwise fun ret later => 0 < ret.handouts t → later.cancels t = 0 := by
    by_cases any : ∃ old ∈ rets, 0 < old.spends t
    · obtain ⟨old, member, spent⟩ := any
      exact traced.not_cancelled_after (traced.earlier here once member spent)
    · refine List.pairwise_of_forall_mem_list ?_
      intro first member second _ handed
      have := handouts_le first t
      exact absurd ⟨first, member, by omega⟩ any
  refine List.pairwise_append.mpr ⟨past, List.pairwise_singleton _ _, ?_⟩
  intro old member new same handed
  rw [List.mem_singleton.mp same]
  by_contra positive
  have none := traced.fresh stored here once (by have := cancels_le ret t; omega) old member
  have := handouts_le old t
  omega

theorem Traced.once (stored : Stored [] m) (traced : Traced m rets t)
    (here : Local m next ret t) (once : (next.timer t).m_recurring = false) :
    ((rets ++ [ret]).map (TimerRet.handouts t)).sum +
      ((rets ++ [ret]).map (TimerRet.cancels t)).sum ≤ 1 := by
  rw [sum_spends, List.map_append, List.sum_append, List.map_singleton, List.sum_singleton]
  rcases Nat.eq_zero_or_pos (ret.spends t) with none | some
  · rw [none, Nat.add_zero]
    by_cases any : ∃ old ∈ rets, 0 < old.spends t
    · obtain ⟨old, member, spent⟩ := any
      rw [← sum_spends]
      exact traced.total (traced.earlier here once member spent)
    · rw [sum_quiet]
      · exact Nat.zero_le 1
      · intro old member
        by_contra positive
        exact any ⟨old, member, Nat.pos_of_ne_zero positive⟩
  · rw [sum_quiet (traced.fresh stored here once some), Nat.zero_add]
    exact here.once

theorem Traced.step (stored : Stored [] m) (traced : Traced m rets t)
    (effect : Effect m op ret next) : Traced next (rets ++ [ret]) t := by
  have here := effect.local stored t
  have known_member (inside : t ∈ m.m_timers) : t < m.count := stored.created t (Or.inl inside)
  refine ⟨⟨?_, ?_, traced.not_cancelled stored here, traced.once stored here⟩, ?_, ?_, ?_⟩
  · intro r member
    rcases List.mem_append.mp member with old | new
    · exact traced.once_a_call r old
    · rw [List.mem_singleton.mp new]
      exact Nat.le_trans (handouts_le ret t) here.once
  · refine List.pairwise_append.mpr ⟨traced.not_after_cancel, List.pairwise_singleton _ _, ?_⟩
    intro old member new same cancelled
    rw [List.mem_singleton.mp same]
    by_contra positive
    have inside := here.member (by have := handouts_le ret t; omega)
    exact traced.cancelled_gone old member cancelled inside
  · intro r member spent
    apply Nat.lt_of_lt_of_le _ here.count
    rcases List.mem_append.mp member with old | new
    · exact traced.known r old spent
    · rw [List.mem_singleton.mp new] at spent
      exact known_member (here.member spent)
  · intro r member cancelled
    rcases List.mem_append.mp member with old | new
    · have spent : 0 < r.spends t := Nat.lt_of_lt_of_le cancelled (cancels_le r t)
      exact here.gone (traced.known r old spent) (traced.cancelled_gone r old cancelled)
    · rw [List.mem_singleton.mp new] at cancelled
      exact here.cancelled cancelled
  · intro once r member handed
    rcases List.mem_append.mp member with old | new
    · have spent : 0 < r.spends t := Nat.lt_of_lt_of_le handed (handouts_le r t)
      exact here.gone (traced.known r old spent)
        (traced.handed_gone (traced.earlier here once old spent) r old handed)
    · rw [List.mem_singleton.mp new] at handed
      have spent : 0 < ret.spends t := Nat.lt_of_lt_of_le handed (handouts_le ret t)
      have same := here.recurring (known_member (here.member spent))
      exact here.handed handed (same ▸ once)

end

/-- Over any run, at any clock readings, each timer is handed out and cancelled as often
as it may be. -/
theorem run_handedOut {now : UInt64} {ops : List (TimerOp γ)} {rets : List (TimerRet γ)}
    (taken : Transition.run step (new now) ops = some (rets, m)) (t : TimerId) :
    HandedOut m rets t := by
  have keep : ∀ (h : List (TimerOp γ × TimerRet γ)) (s : TimerManager γ) (op : TimerOp γ)
      (ret : TimerRet γ) (s' : TimerManager γ), Stored [] s ∧ Traced s (h.map Prod.snd) t →
      True → s.step op = some (ret, s') →
      Stored [] s' ∧ Traced s' ((h ++ [(op, ret)]).map Prod.snd) t := by
    intro h s op ret s' before _ done
    obtain ⟨stored, effect⟩ := step_effect before.1 done
    rw [List.map_append]
    exact ⟨stored, before.2.step before.1 effect⟩
  have start : Traced (new now : TimerManager γ) ([] : List (TimerRet γ)) t :=
    ⟨⟨fun _ member => absurd member List.not_mem_nil, List.Pairwise.nil,
      fun _ => List.Pairwise.nil, fun _ => Nat.zero_le 1⟩,
      fun _ member => absurd member List.not_mem_nil,
      fun _ member => absurd member List.not_mem_nil,
      fun _ _ member => absurd member List.not_mem_nil⟩
  have along : Transition.Along step (fun _ _ => True) (new now) ops :=
    Transition.Along.of_mem (fun _ _ _ => trivial) _
  have last := (Transition.run_history keep (h := []) ⟨new_stored now, start⟩ along taken).2
  have same : (ops.zip rets).map Prod.snd = rets :=
    List.map_snd_zip (Nat.le_of_eq (Transition.run_length step taken))
  rw [List.nil_append, same] at last
  exact last.toHandedOut

/-- A timer cancelled in time and one handed out before it could be. -/
theorem run_handedOut_two :
    ∃ rets m, Transition.run step (new 1000 : TimerManager Unit)
      [.addTimer 1000 8 10 (some ()) false, .addTimer 1000 16 5 (some ()) false,
        .cancel 1, .listExpiredCb 1010 24, .cancel 0] = some (rets, m) ∧
      rets.map (TimerRet.handouts 0) = [0, 0, 0, 1, 0] ∧ HandedOut m rets 0 := by
  have shown : (Transition.run step (new 1000 : TimerManager Unit)
      [.addTimer 1000 8 10 (some ()) false, .addTimer 1000 16 5 (some ()) false,
        .cancel 1, .listExpiredCb 1010 24, .cancel 0]).map
      (fun r => r.1.map (TimerRet.handouts 0)) = some [0, 0, 0, 1, 0] := by
    decide
  obtain ⟨⟨rets, m⟩, taken, counts⟩ := Option.map_eq_some_iff.mp shown
  exact ⟨rets, m, taken, counts, run_handedOut taken 0⟩

end TimerManager

end CorReactor
