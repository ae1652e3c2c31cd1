import CorReactor.TimerDeadline

set_option autoImplicit false

/-! What the results of `cancel`, `refresh` and `reset` say about the timer. -/

namespace CorReactor

variable {γ : Type}

/-- The boolean that an operation on a timer returns. -/
def TimerRet.done : TimerRet γ → Bool
  | .cancelled _ done | .refreshed _ done | .reset _ done => done
  | _ => false

namespace TimerManager

variable {m next : TimerManager γ} {op : TimerOp γ} {ret : TimerRet γ}

/-- The operation returns true exactly for a pending timer, and otherwise changes nothing. -/
structure Told (m : TimerManager γ) (t : TimerId) (ret : TimerRet γ) (next : TimerManager γ) :
    Prop where
  done_iff : ret.done = true ↔ t ∈ m.m_timers
  unchanged : ret.done = false → next = m

/-- The timer is pending, for the interval from the start. -/
structure ArmedAt (m : TimerManager γ) (t : TimerId) (start ms : UInt64) : Prop where
  pending : t ∈ m.m_timers
  m_ms : (m.timer t).m_ms = ms
  m_next : (m.timer t).m_next = start + ms

/-- What a call is to return and to do, the timers having been armed as given before it. -/
def Answers (armed : Armed) (m : TimerManager γ) : TimerOp γ → TimerRet γ → TimerManager γ → Prop
  | .cancel t, ret, next => Told m t ret next
  | .refresh now t, ret, next =>
      Told m t ret next ∧ (ret.done = true → next.ArmedAt t now (m.timer t).m_ms)
  | .reset now t ms from_now, ret, next =>
      Told m t ret next ∧
        (ret.done = true →
          next.ArmedAt t (if from_now then now else UInt64.ofNat (armed.start t)) ms)
  | _, _, _ => True

/-- The call takes the shortcut of `reset`. -/
def Shortcut (m : TimerManager γ) (t : TimerId) (ms : UInt64) (from_now : Bool) : Prop :=
  ms = (m.timer t).m_ms ∧ from_now = false

instance (m : TimerManager γ) (t : TimerId) (ms : UInt64) (from_now : Bool) :
    Decidable (m.Shortcut t ms from_now) :=
  inferInstanceAs (Decidable (_ ∧ _))

/-- A pending timer has a callback, or the shortcut is taken; and that is taken for a pending
timer only. -/
def Tellable (m : TimerManager γ) : TimerOp γ → Prop
  | .cancel t | .refresh _ t => t ∈ m.m_timers → (m.timer t).m_cb.isSome = true
  | .reset _ t ms from_now =>
      if m.Shortcut t ms from_now then t ∈ m.m_timers
      else t ∈ m.m_timers → (m.timer t).m_cb.isSome = true
  | _ => True

instance (m : TimerManager γ) : (op : TimerOp γ) → Decidable (m.Tellable op)
  | .cancel t | .refresh _ t =>
      inferInstanceAs (Decidable (t ∈ m.m_timers → (m.timer t).m_cb.isSome = true))
  | .reset _ t ms from_now =>
      inferInstanceAs (Decidable (if m.Shortcut t ms from_now then t ∈ m.m_timers
        else t ∈ m.m_timers → (m.timer t).m_cb.isSome = true))
  | .addTimer .. | .listExpiredCb .. | .getNextTimer _ => isTrue trivial

/-! ### The start of a pending timer -/

/-- Every pending timer is due an interval after it was armed, modulo 2^64. -/
def Started (armed : Armed) (m : TimerManager γ) : Prop :=
  ∀ t ∈ m.m_timers, (m.timer t).m_next = UInt64.ofNat (armed.start t) + (m.timer t).m_ms

/-- One timer is armed, the others stay. -/
theorem Started.set {armed : Armed} (started : Started armed m) {t : TimerId} {timer : Timer γ}
    (objects : next.timer = Function.update m.timer t timer)
    (mem : ∀ u ∈ next.m_timers, u = t ∨ u ∈ m.m_timers) {start interval : Nat}
    (deadline : timer.m_next = UInt64.ofNat start + timer.m_ms) :
    Started (armed.set t start interval) next := by
  intro u inside
  change (next.timer u).m_next = UInt64.ofNat (Function.update armed.start t start u) + _
  rw [objects, Function.update_apply, Function.update_apply]
  split
  · exact deadline
  · rename_i differs
    exact started u ((mem u inside).resolve_left differs)

theorem Started.step {armed : Armed} (stored : Stored [] m) (started : Started armed m)
    (effect : Effect m op ret next) : Started (armed.after (op, ret)) next := by
  cases effect with
  | added timer count mem =>
      refine started.set timer (fun u => (mem u).mp) ?_
      rw [UInt64.ofNat_toNat]
      rfl
  | cancelled callable timer count mem =>
      intro u inside
      obtain ⟨inside, differs⟩ := (mem u).mp inside
      rw [timer, Function.update_of_ne differs]
      exact started u inside
  | refreshed callable timer count mem =>
      refine started.set timer (fun u inside => Or.inr ((mem u).mp inside)) ?_
      rw [UInt64.ofNat_toNat]
  | @resetDone now t ms from_now _ callable timer count mem =>
      refine started.set timer (fun u inside => Or.inr ((mem u).mp inside)) ?_
      have deadline := started t (stored.mem_of_callable callable)
      cases from_now with
      | true =>
          simp only [↓reduceIte]
          rw [UInt64.ofNat_toNat]
      | false =>
          simp only [Bool.false_eq_true, ↓reduceIte]
          rw [deadline, UInt64.add_sub_cancel]
  | @resetSame now t old =>
      intro u inside
      change _ = UInt64.ofNat (Function.update armed.start t (armed.start t) u) + _
      rw [Function.update_eq_self]
      exact started u inside
  | @expired now addr expired cbs _ expiry =>
      intro u inside
      obtain ⟨inside, again⟩ := (expiry.mem u).mp inside
      change _ = UInt64.ofNat (if u ∈ cbs.map Prod.fst then now.toNat else armed.start u) + _
      rw [expiry.timer, expiry.names]
      split
      · rename_i member
        rw [expiredTimer, if_pos (again member), UInt64.ofNat_toNat]
      · exact started u inside
  | next timer count mem =>
      intro u inside
      rw [timer]
      exact started u ((mem u).mp inside)
  | cancelSpent | refreshSpent | resetSpent => exact started

theorem run_started {now : UInt64} {ops : List (TimerOp γ)} {rets : List (TimerRet γ)}
    (taken : Transition.run step (new now) ops = some (rets, m)) :
    Stored [] m ∧ Started ((ops.zip rets).foldl Armed.after Armed.none) m := by
  have keep : ∀ (h : List (TimerOp γ × TimerRet γ)) (s : TimerManager γ) (op : TimerOp γ)
      (ret : TimerRet γ) (s' : TimerManager γ),
      Stored [] s ∧ Started (h.foldl Armed.after Armed.none) s → True →
      s.step op = some (ret, s') →
      Stored [] s' ∧ Started ((h ++ [(op, ret)]).foldl Armed.after Armed.none) s' := by
    rintro h s op ret s' ⟨stored, started⟩ - done
    obtain ⟨stored', effect⟩ := step_effect stored done
    rw [List.foldl_append]
    exact ⟨stored', started.step stored effect⟩
  have start : Started Armed.none (new now : TimerManager γ) :=
    fun _ inside => absurd inside List.not_mem_nil
  have always : Transition.Along step (fun _ _ => True) (new now : TimerManager γ) ops :=
    Transition.Along.of_mem (fun _ _ _ => trivial) _
  exact Transition.run_history keep (h := []) ⟨new_stored now, start⟩ always taken

/-! ### Single calls -/

section Calls

variable {armed : Armed} {t : TimerId}

theorem told_of_done (done : ret.done = true) : Told m t ret next ↔ t ∈ m.m_timers := by
  constructor
  · intro told
    exact told.done_iff.mp done
  · intro pending
    refine ⟨iff_of_true done pending, ?_⟩
    intro failed
    rw [done] at failed
    cases failed

theorem told_of_failed (failed : ret.done = false) : Told m t ret m ↔ t ∉ m.m_timers := by
  constructor
  · intro told pending
    have done := told.done_iff.mpr pending
    rw [failed] at done
    cases done
  · intro spent
    refine ⟨iff_of_false ?_ spent, fun _ => rfl⟩
    rw [failed]
    exact Bool.false_ne_true

/-- A timer that is taken out, armed and put back. -/
theorem armedAt_rearm (stored : Stored [] m) (pending : t ∈ m.m_timers) (timer : Timer γ)
    (addr : timer.addr = (m.timer t).addr) {start : UInt64}
    (deadline : timer.m_next = start + timer.m_ms) :
    (((m.eraseTimer t).setTimer t timer).insertTimer t).ArmedAt t start timer.m_ms where
  pending := (mem_rearm stored pending addr t).mpr pending
  m_ms := by rw [insertTimer_timer, setTimer_timer_self]
  m_next := by rw [insertTimer_timer, setTimer_timer_self, deadline]

theorem cancel_answers (stored : Stored [] m) (taken : m.step (.cancel t) = some (ret, next)) :
    Answers armed m (.cancel t) ret next ↔ m.Tellable (.cancel t) := by
  simp only [step, cancel_eq stored] at taken
  simp only [Answers, Tellable]
  split at taken
  · split at taken
    · rename_i callable
      have pending := stored.mem_of_callable callable
      cases taken
      rw [told_of_done rfl]
      exact iff_of_true pending fun _ => callable
    · rename_i silent
      cases taken
      rw [told_of_failed rfl]
      simp only [silent, Bool.false_eq_true, imp_false]
  · cases taken

theorem refresh_answers (stored : Stored [] m) {now : UInt64}
    (taken : m.step (.refresh now t) = some (ret, next)) :
    Answers armed m (.refresh now t) ret next ↔ m.Tellable (.refresh now t) := by
  simp only [step, refresh_eq stored] at taken
  simp only [Answers, Tellable]
  split at taken
  · split at taken
    · rename_i callable
      have pending := stored.mem_of_callable callable
      cases taken
      rw [told_of_done rfl]
      have again := armedAt_rearm stored pending
        { m.timer t with m_next := now + (m.timer t).m_ms } rfl rfl
      exact iff_of_true ⟨pending, fun _ => again⟩ fun _ => callable
    · rename_i silent
      cases taken
      rw [told_of_failed rfl]
      simp only [silent, TimerRet.done, Bool.false_eq_true, false_implies, and_true, imp_false]
  · cases taken

theorem reset_answers (stored : Stored [] m) (started : Started armed m) {now ms : UInt64}
    {from_now : Bool} (taken : m.step (.reset now t ms from_now) = some (ret, next)) :
    Answers armed m (.reset now t ms from_now) ret next ↔
      m.Tellable (.reset now t ms from_now) := by
  simp only [step, reset_eq stored] at taken
  simp only [Answers, Tellable]
  split at taken
  · split at taken
    · -- The shortcut: nothing changes, and a pending timer is as it is asked to be.
      rename_i same
      have shortcut : m.Shortcut t ms from_now := same
      rw [if_pos shortcut]
      obtain ⟨rfl, rfl⟩ := same
      cases taken
      rw [told_of_done rfl]
      exact ⟨And.left, fun pending => ⟨pending, fun _ => ⟨pending, rfl, started t pending⟩⟩⟩
    · rename_i differs
      have longer : ¬ m.Shortcut t ms from_now := differs
      rw [if_neg longer]
      split at taken
      · rename_i callable
        have pending := stored.mem_of_callable callable
        have start : (if from_now then now else (m.timer t).m_next - (m.timer t).m_ms) =
            if from_now then now else UInt64.ofNat (armed.start t) := by
          rw [started t pending, UInt64.add_sub_cancel]
        cases taken
        rw [told_of_done rfl, ← start]
        have again := armedAt_rearm stored pending
          { m.timer t with
            m_ms := ms
            m_next := (if from_now then now else (m.timer t).m_next - (m.timer t).m_ms) + ms }
          rfl rfl
        exact iff_of_true ⟨pending, fun _ => again⟩ fun _ => callable
      · rename_i silent
        cases taken
        rw [told_of_failed rfl]
        simp only [silent, TimerRet.done, Bool.false_eq_true, false_implies, and_true, imp_false]
  · cases taken

end Calls

/-- In every reachable state `cancel`, `refresh` and `reset` answer for every timer exactly when
a pending timer has a callback and `reset` takes its shortcut for pending timers only. -/
theorem run_answers_iff {now : UInt64} {ops : List (TimerOp γ)} {rets : List (TimerRet γ)}
    (taken : Transition.run step (new now) ops = some (rets, m))
    (done : m.step op = some (ret, next)) :
    Answers ((ops.zip rets).foldl Armed.after Armed.none) m op ret next ↔ m.Tellable op := by
  obtain ⟨stored, started⟩ := run_started taken
  cases op with
  | cancel t => exact cancel_answers stored done
  | refresh now t => exact refresh_answers stored done
  | reset now t ms from_now => exact reset_answers stored started done
  | addTimer | listExpiredCb | getNextTimer => exact Iff.rfl

/-- A pending timer that is given another interval from its start. -/
theorem run_answers_reset :
    ∃ rets m ret next, Transition.run step (new 100 : TimerManager Nat)
        [.addTimer 100 8 10 (some 0) false, .refresh 104 0] = some (rets, m) ∧
      m.step (.reset 107 0 20 false) = some (ret, next) ∧ ret.done = true ∧
      (next.timer 0).m_next = 124 ∧
      Answers
        ((([.addTimer 100 8 10 (some 0) false, .refresh 104 0] : List (TimerOp Nat)).zip
          rets).foldl Armed.after Armed.none)
        m (.reset 107 0 20 false) ret next :=
  ⟨_, _, _, _, rfl, rfl, by decide, by decide, (run_answers_iff
    (show Transition.run step (new 100 : TimerManager Nat)
      [.addTimer 100 8 10 (some 0) false, .refresh 104 0] = some (_, _) from rfl) rfl).mpr
    (by decide)⟩

/-- A timer that has expired: `reset` to the interval it has had returns true. And a timer with
an empty callback: it is pending, but `cancel` returns false. -/
theorem run_not_answers :
    (∃ rets m ret next, Transition.run step (new 100 : TimerManager Nat)
        [.addTimer 100 8 10 (some 0) false, .listExpiredCb 120 16] = some (rets, m) ∧
      m.step (.reset 125 0 10 false) = some (ret, next) ∧ ret.done = true ∧ m.m_timers = [] ∧
      next.m_timers = [] ∧
      ¬ Answers
        ((([.addTimer 100 8 10 (some 0) false, .listExpiredCb 120 16] : List (TimerOp Nat)).zip
          rets).foldl Armed.after Armed.none)
        m (.reset 125 0 10 false) ret next) ∧
    ∃ rets m ret next, Transition.run step (new 100 : TimerManager Nat)
        [.addTimer 100 8 10 none false] = some (rets, m) ∧
      m.step (.cancel 0) = some (ret, next) ∧ ret.done = false ∧ m.m_timers = [0] ∧
      ¬ Answers
        ((([.addTimer 100 8 10 none false] : List (TimerOp Nat)).zip rets).foldl Armed.after
          Armed.none)
        m (.cancel 0) ret next := by
  refine ⟨⟨_, _, _, _, rfl, rfl, by decide, by decide, by decide, ?_⟩,
    ⟨_, _, _, _, rfl, rfl, by decide, by decide, ?_⟩⟩
  · rintro ⟨told, -⟩
    have pending := told.done_iff.mp (by decide)
    revert pending
    decide
  · intro told
    have done := told.done_iff.mpr (by decide)
    revert done
    decide

end TimerManager

end CorReactor
