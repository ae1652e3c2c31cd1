import CorReactor.TimerInvariant
import Mathlib.Logic.Relation
import Mathlib.Tactic.FinCases

set_option autoImplicit false

/-! The pending timers are the members of the set, and every lookup of one succeeds. -/

namespace CorReactor

/-- A timer is added with a non-empty callback. -/
def TimerOp.Callable {γ : Type} : TimerOp γ → Prop
  | .addTimer _ _ _ cb _ => cb.isSome
  | _ => True

namespace TimerManager

variable {γ : Type}

/-! ### Single mutations -/

/-- One mutation under `m_mutex`: of the set, of an object or of the flags. The deadline
and the address of an object are written only while the object is not in the set. -/
inductive Mutation : TimerManager γ → TimerManager γ → Prop
  | insert (m : TimerManager γ) (t : TimerId) : Mutation m (m.insertTimer t)
  | erase (m : TimerManager γ) {left : List TimerId} (sub : left.Sublist m.m_timers) :
      Mutation m { m with m_timers := left }
  | write (m : TimerManager γ) {t : TimerId} {timer : Timer γ}
      (outside : t ∈ m.m_timers →
        timer.m_next = (m.timer t).m_next ∧ timer.addr = (m.timer t).addr) :
      Mutation m (m.setTimer t timer)
  | flags (m : TimerManager γ) (count : Nat) (m_tickled : Bool) (m_previouseTime : UInt64) :
      Mutation m
        { m with count := count, m_tickled := m_tickled, m_previouseTime := m_previouseTime }

/-- A chain of single mutations. -/
abbrev Mutations : TimerManager γ → TimerManager γ → Prop :=
  Relation.ReflTransGen Mutation

section Mutations

variable {m : TimerManager γ} {t : TimerId}

theorem addTimer_mutations (stored : Stored [] m) (now : UInt64) (addr : Nat) (ms : UInt64)
    (cb : Option γ) (recurring : Bool) :
    Mutations m (m.addTimer now addr ms cb recurring).2 := by
  have fresh : m.count ∉ m.m_timers :=
    fun inside => Nat.lt_irrefl _ (stored.created m.count (Or.inl inside))
  have written : Mutations m (m.setTimer m.count (Timer.new addr now ms cb recurring)) :=
    Relation.ReflTransGen.single (.write m fun inside => absurd inside fresh)
  have counted := (written.tail (.flags _ (m.count + 1) m.m_tickled m.m_previouseTime)).tail
    (.insert _ m.count)
  unfold addTimer
  dsimp only
  split
  · exact counted.tail (.flags _ (m.count + 1) true m.m_previouseTime)
  · exact counted

theorem rearm_mutations (stored : Stored [] m) (timer : Timer γ) :
    Mutations m (((m.eraseTimer t).setTimer t timer).insertTimer t) := by
  have erased : Mutations m (m.eraseTimer t) :=
    Relation.ReflTransGen.single (.erase m List.erase_sublist)
  have outside : t ∉ (m.eraseTimer t).m_timers := stored.nodup.not_mem_erase
  exact (erased.tail (.write _ fun inside => absurd inside outside)).tail (.insert _ t)

theorem collect_mutations (now_ms : UInt64) {expired : List TimerId} (stored : Stored expired m) :
    Mutations m (collect now_ms expired m).2 := by
  induction expired generalizing m with
  | nil => exact Relation.ReflTransGen.refl
  | cons t rest ih =>
      have outside := stored.off t List.mem_cons_self
      have first : Mutations m (m.expireTimer now_ms t) := by
        unfold expireTimer
        dsimp only
        split
        · exact (Relation.ReflTransGen.single
            (.write m fun inside => absurd inside outside)).tail (.insert _ t)
        · exact Relation.ReflTransGen.single (.write m fun inside => absurd inside outside)
      exact first.trans (ih (expireTimer_stored stored now_ms))

theorem listExpiredCb_mutations (stored : Stored [] m) (now_ms : UInt64) (addr : Nat) :
    Mutations m (m.listExpiredCb now_ms addr).2 := by
  rcases m.listExpiredCb_cases now_ms addr with ⟨previous, early⟩ | ⟨expired, front, -, cut⟩
  · rw [early]
    exact Relation.ReflTransGen.single (.flags m m.count m.m_tickled previous)
  · have noted : Mutations m { m with m_previouseTime := now_ms } :=
      Relation.ReflTransGen.single (.flags m m.count m.m_tickled now_ms)
    have erased := noted.tail (.erase _ (List.drop_sublist expired.length m.m_timers))
    rw [cut]
    exact erased.trans (collect_mutations now_ms (stored.expiredOut now_ms front))

/-- Every operation is made of single mutations. -/
theorem step_mutations {next : TimerManager γ} {op : TimerOp γ} {ret : TimerRet γ}
    (stored : Stored [] m) (taken : m.step op = some (ret, next)) : Mutations m next := by
  cases op with
  | addTimer now addr ms cb recurring =>
      simp only [step] at taken
      split at taken
      · cases taken
        exact addTimer_mutations stored now addr ms cb recurring
      · cases taken
  | cancel t =>
      simp only [step, cancel_eq stored] at taken
      split at taken
      · split at taken
        · cases taken
          have erased : Mutations m (m.eraseTimer t) :=
            Relation.ReflTransGen.single (.erase m List.erase_sublist)
          exact erased.tail (.write _ fun _ => ⟨rfl, rfl⟩)
        · cases taken
          exact Relation.ReflTransGen.refl
      · cases taken
  | refresh now t =>
      simp only [step, refresh_eq stored] at taken
      split at taken
      · split at taken
        · cases taken
          exact rearm_mutations stored _
        · cases taken
          exact Relation.ReflTransGen.refl
      · cases taken
  | reset now t ms from_now =>
      simp only [step, reset_eq stored] at taken
      split at taken
      · split at taken
        · cases taken
          exact Relation.ReflTransGen.refl
        · split at taken
          · cases taken
            exact rearm_mutations stored _
          · cases taken
            exact Relation.ReflTransGen.refl
      · cases taken
  | listExpiredCb now addr =>
      cases taken
      exact listExpiredCb_mutations stored now addr
  | getNextTimer now =>
      simp only [step, getNextTimer_state] at taken
      cases taken
      exact Relation.ReflTransGen.single (.flags m m.count false m.m_previouseTime)

end Mutations

/-! ### Members are callable -/

def AllCallable (m : TimerManager γ) : Prop := ∀ t ∈ m.m_timers, (m.timer t).m_cb.isSome

theorem step_callable {m next : TimerManager γ} {op : TimerOp γ} {ret : TimerRet γ}
    (stored : Stored [] m) (members : AllCallable m) (callable : op.Callable)
    (taken : m.step op = some (ret, next)) : AllCallable next := by
  intro u inside
  cases (step_effect stored taken).2 with
  | added timer count mem =>
      rw [timer]
      rcases (mem u).mp inside with rfl | old
      · rw [Function.update_self]
        exact callable
      · have lower := stored.created u (Or.inl old)
        rw [Function.update_of_ne (Nat.ne_of_lt lower)]
        exact members u old
  | cancelled _ timer count mem =>
      obtain ⟨old, ne⟩ := (mem u).mp inside
      rw [timer, Function.update_of_ne ne]
      exact members u old
  | refreshed pending timer count mem | resetDone pending timer count mem =>
      rw [timer, Function.update_apply]
      split
      · exact pending
      · exact members u ((mem u).mp inside)
  | expired expiry =>
      obtain ⟨old, again⟩ := (expiry.mem u).mp inside
      rw [expiry.timer]
      split
      · rename_i member
        rw [expiredTimer, if_pos (again member)]
        exact members u old
      · exact members u old
  | next timer count mem =>
      rw [timer]
      exact members u ((mem u).mp inside)
  | cancelSpent | refreshSpent | resetSame _ | resetSpent => exact members u inside

/-- The set and the callbacks agree, the set is strictly ordered, and no operation on a
timer misses it. -/
structure Consistent (m : TimerManager γ) : Prop where
  mem_iff : ∀ t, t ∈ m.m_timers ↔ (m.timer t).m_cb.isSome
  nodup : m.m_timers.Nodup
  ordered : m.m_timers.Pairwise fun a b =>
    (m.timer a).m_next < (m.timer b).m_next ∨
      (m.timer a).m_next = (m.timer b).m_next ∧ (m.timer a).addr < (m.timer b).addr
  finds : ∀ t ∈ m.m_timers, OrderedSet.find? m.before m.m_timers t = some t
  cancels : ∀ t, (m.cancel t).isSome
  steps : ∀ op ret next, m.step op = some (ret, next) → Mutations m next

theorem Stored.consistent {m : TimerManager γ} (stored : Stored [] m)
    (members : AllCallable m) : Consistent m where
  mem_iff := fun t => ⟨members t, stored.mem_of_callable⟩
  nodup := stored.nodup
  ordered := by
    refine List.Pairwise.imp ?_ stored.sorted
    intro a b less
    rw [UInt64.lt_iff_toNat_lt, ← UInt64.toNat_inj]
    exact (m.before_iff a b).mp less
  finds := fun t => stored.find_eq
  cancels := by
    intro t
    rw [cancel_eq stored]
    split <;> rfl
  steps := fun _ _ _ => step_mutations stored

/-- Every interleaving of the operations, at any clock readings, leaves the timers and
the set consistent. -/
theorem run_consistent {now : UInt64} {ops : List (TimerOp γ)} {rets : List (TimerRet γ)}
    {m : TimerManager γ} (callable : ∀ op ∈ ops, op.Callable)
    (taken : Transition.run step (new now) ops = some (rets, m)) : Consistent m := by
  have keep : ∀ (s : TimerManager γ) (op : TimerOp γ) (ret : TimerRet γ) (t : TimerManager γ),
      Stored [] s ∧ AllCallable s → op.Callable → s.step op = some (ret, t) →
      Stored [] t ∧ AllCallable t := by
    intro s op ret t before guard done
    exact ⟨(step_effect before.1 done).1, step_callable before.1 before.2 guard done⟩
  have along : Transition.Along step (fun _ op => op.Callable) (new now) ops :=
    Transition.Along.of_mem (fun op member _ => callable op member) _
  have empty : AllCallable (new now : TimerManager γ) :=
    fun _ inside => absurd inside List.not_mem_nil
  obtain ⟨stored, members⟩ :=
    Transition.run_invariant keep ⟨new_stored now, empty⟩ along taken
  exact stored.consistent members

/-- One recurring timer and one cancelled timer, the clock jumping back to zero. -/
theorem run_consistent_two :
    ∃ rets m, Transition.run step (new 7200000 : TimerManager Unit)
      [.addTimer 7200000 8 10 (some ()) true, .addTimer 7200000 16 5 (some ()) false,
        .refresh 7200004 0, .cancel 1, .listExpiredCb 0 24] = some (rets, m) ∧
      m.m_timers = [0] ∧ Consistent m := by
  have shown : (Transition.run step (new 7200000 : TimerManager Unit)
      [.addTimer 7200000 8 10 (some ()) true, .addTimer 7200000 16 5 (some ()) false,
        .refresh 7200004 0, .cancel 1, .listExpiredCb 0 24]).map (·.2.m_timers) = some [0] := by
    decide
  obtain ⟨⟨rets, m⟩, taken, left⟩ := Option.map_eq_some_iff.mp shown
  refine ⟨rets, m, taken, left, run_consistent ?_ taken⟩
  intro op member
  fin_cases member <;> trivial

end TimerManager

end CorReactor
