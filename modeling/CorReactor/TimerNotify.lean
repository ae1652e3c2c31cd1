import CorReactor.TimerDeadline
import Mathlib.Data.ENat.Basic

set_option autoImplicit false

/-! A poller that sleeps until the earliest deadline it was told of is notified when an
earlier one appears. -/

namespace CorReactor

variable {γ : Type}

/-- The clock once an operation is done: its reading, where it makes one. -/
def TimerOp.clock (clock : UInt64) : TimerOp γ → UInt64
  | .addTimer now _ _ _ _ => now
  | .cancel _ => clock
  | .refresh now _ => now
  | .reset now _ _ from_now => if from_now then now else clock
  | .listExpiredCb now _ => now
  | .getNextTimer now => now

/-- From `clock` on the clock never goes back. -/
def Clocked : UInt64 → List (TimerOp γ) → Prop
  | _, [] => True
  | clock, op :: rest => clock ≤ op.clock clock ∧ Clocked (op.clock clock) rest

instance Clocked.decidable :
    (clock : UInt64) → (ops : List (TimerOp γ)) → Decidable (Clocked clock ops)
  | _, [] => isTrue trivial
  | clock, op :: rest =>
      have := Clocked.decidable (op.clock clock) rest
      inferInstanceAs (Decidable (_ ∧ _))

theorem clocked_append {clock : UInt64} {first second : List (TimerOp γ)}
    (clocked : Clocked clock (first ++ second)) :
    Clocked clock first ∧ Clocked (first.foldl TimerOp.clock clock) second := by
  induction first generalizing clock with
  | nil => exact ⟨trivial, clocked⟩
  | cons op rest ih => exact ⟨⟨clocked.1, (ih clocked.2).1⟩, (ih clocked.2).2⟩

def TimerOp.polls : TimerOp γ → Bool
  | .getNextTimer _ => true
  | _ => false

/-- The call goes on to `onTimerInsertedAtFront`. -/
def TimerRet.notified : TimerRet γ → Bool
  | .added _ at_front => at_front
  | _ => false

namespace TimerManager

variable {m next : TimerManager γ} {op : TimerOp γ} {ret : TimerRet γ}

/-! ### Deadlines -/

/-- The earliest `m_next` in the set; infinite where the set is empty. -/
def earliest (m : TimerManager γ) : ℕ∞ :=
  match m.m_timers with
  | [] => ⊤
  | first :: _ => ((m.timer first).m_next.toNat : ℕ∞)

theorem earliest_le (stored : Stored [] m) {t : TimerId} (member : t ∈ m.m_timers) :
    m.earliest ≤ ((m.timer t).m_next.toNat : ℕ∞) := by
  have sorted := stored.sorted
  unfold earliest
  cases timers : m.m_timers with
  | nil =>
      rw [timers] at member
      cases member
  | cons first rest =>
      rw [timers] at member sorted
      apply ENat.natCast_le_natCast.mpr
      rcases List.mem_cons.mp member with rfl | inside
      · exact Nat.le_refl _
      · have less := (m.before_iff first t).mp ((List.pairwise_cons.mp sorted).1 t inside)
        omega

/-- A bound on every deadline in the set is a bound on the earliest one. -/
theorem le_earliest {front : ℕ∞}
    (bound : ∀ t ∈ m.m_timers, front ≤ ((m.timer t).m_next.toNat : ℕ∞)) :
    front ≤ m.earliest := by
  unfold earliest
  cases timers : m.m_timers with
  | nil => exact le_top
  | cons first rest =>
      rw [timers] at bound
      exact bound first List.mem_cons_self

/-- The deadline a poller gets by adding what `getNextTimer` returned to its reading. -/
def reported (now_ms ms : UInt64) : ℕ∞ :=
  if ms = 0xFFFFFFFFFFFFFFFF then ⊤ else ((now_ms.toNat + ms.toNat : Nat) : ℕ∞)

/-- It is the earliest deadline, unless that has passed already or is so far ahead that
the difference reads as no timer at all. -/
theorem reported_eq (m : TimerManager γ) (now_ms : UInt64)
    (ahead : (now_ms.toNat : ℕ∞) ≤ m.earliest)
    (near : m.earliest ≠ ((now_ms.toNat + (2 ^ 64 - 1) : Nat) : ℕ∞)) :
    reported now_ms (m.getNextTimer now_ms).1 = m.earliest := by
  unfold getNextTimer earliest at *
  dsimp only at *
  cases timers : m.m_timers with
  | nil => rfl
  | cons first rest =>
      simp only [timers] at ahead near
      have later := ENat.natCast_le_natCast.mp ahead
      dsimp only
      unfold reported
      split
      · rename_i passed
        have same : now_ms.toNat = (m.timer first).m_next.toNat := by
          have := UInt64.le_iff_toNat_le.mp passed
          omega
        have positive : (0 : UInt64) ≠ 0xFFFFFFFFFFFFFFFF := by decide
        rw [if_neg positive, same]
        rfl
      · have exact_sub : ((m.timer first).m_next - now_ms).toNat =
            (m.timer first).m_next.toNat - now_ms.toNat :=
          UInt64.toNat_sub_of_le _ _ (UInt64.le_iff_toNat_le.mpr later)
        have reached : now_ms.toNat + ((m.timer first).m_next - now_ms).toNat =
            (m.timer first).m_next.toNat := by
          omega
        have finite : (m.timer first).m_next - now_ms ≠ 0xFFFFFFFFFFFFFFFF := by
          intro full
          apply near
          rw [← reached, full]
          rfl
        rw [if_neg finite, reached]

/-! ### The flags -/

@[simp] theorem setTimer_tickled (m : TimerManager γ) (t : TimerId) (timer : Timer γ) :
    (m.setTimer t timer).m_tickled = m.m_tickled := rfl

@[simp] theorem insertTimer_tickled (m : TimerManager γ) (t : TimerId) :
    (m.insertTimer t).m_tickled = m.m_tickled := rfl

/-- What a call that neither polls nor notifies does to the flag. -/
theorem tickled_of_silent {flag : Bool} (kept : flag = m.m_tickled) (polls : op.polls = false)
    (silent : ret.notified = false) : flag = (!op.polls && (m.m_tickled || ret.notified)) := by
  rw [kept, polls, silent, Bool.not_false, Bool.true_and, Bool.or_false]

theorem expireTimer_flags (m : TimerManager γ) (now_ms : UInt64) (t : TimerId) :
    (m.expireTimer now_ms t).m_tickled = m.m_tickled ∧
      (m.expireTimer now_ms t).m_previouseTime = m.m_previouseTime := by
  unfold expireTimer
  dsimp only
  split <;> exact ⟨rfl, rfl⟩

theorem collect_flags (now_ms : UInt64) (expired : List TimerId) (m : TimerManager γ) :
    (collect now_ms expired m).2.m_tickled = m.m_tickled ∧
      (collect now_ms expired m).2.m_previouseTime = m.m_previouseTime := by
  induction expired generalizing m with
  | nil => exact ⟨rfl, rfl⟩
  | cons t rest ih =>
      obtain ⟨tickled, previous⟩ := expireTimer_flags m now_ms t
      rw [collect_cons, (ih _).1, (ih _).2]
      exact ⟨tickled, previous⟩

/-- Only `addTimer` sets `m_tickled`, on its way to the notification. -/
theorem step_tickled (stored : Stored [] m) (taken : m.step op = some (ret, next)) :
    next.m_tickled = (!op.polls && (m.m_tickled || ret.notified)) := by
  cases op with
  | addTimer now addr ms cb recurring =>
      simp only [step] at taken
      split at taken
      · cases taken
        unfold addTimer
        dsimp only [TimerRet.notified, TimerOp.polls]
        split
        · rename_i front
          rw [front, Bool.or_true]
          rfl
        · rename_i behind
          rw [Bool.not_eq_true] at behind
          rw [behind, Bool.or_false, insertTimer_tickled, setTimer_tickled]
          rfl
      · cases taken
  | cancel t =>
      simp only [step, cancel_eq stored] at taken
      split at taken
      · split at taken <;> cases taken <;> exact tickled_of_silent rfl rfl rfl
      · cases taken
  | refresh now t =>
      simp only [step, refresh_eq stored] at taken
      split at taken
      · split at taken <;> cases taken <;> exact tickled_of_silent rfl rfl rfl
      · cases taken
  | reset now t ms from_now =>
      simp only [step, reset_eq stored] at taken
      split at taken
      · split at taken
        · cases taken
          exact tickled_of_silent rfl rfl rfl
        · split at taken <;> cases taken <;> exact tickled_of_silent rfl rfl rfl
      · cases taken
  | listExpiredCb now addr =>
      cases taken
      refine tickled_of_silent ?_ rfl rfl
      rcases m.listExpiredCb_cases now addr with ⟨previous, early⟩ | ⟨expired, -, -, cut⟩
      · rw [early]
      · rw [cut]
        exact (collect_flags now expired _).1
  | getNextTimer now =>
      simp only [step, getNextTimer_state] at taken
      cases taken
      rfl

theorem listExpiredCb_previous (m : TimerManager γ) (now_ms : UInt64) (addr : Nat) :
    (m.listExpiredCb now_ms addr).2.m_previouseTime = m.m_previouseTime ∨
      (m.listExpiredCb now_ms addr).2.m_previouseTime = now_ms := by
  unfold listExpiredCb
  split
  · exact Or.inl rfl
  · dsimp only [detectClockRollover]
    split
    · exact Or.inr rfl
    · exact Or.inr (collect_flags now_ms _ _).2

/-- Only `listExpiredCb` stores a reading. -/
theorem step_previous (stored : Stored [] m) (taken : m.step op = some (ret, next)) :
    next.m_previouseTime = m.m_previouseTime ∨
      ∃ now addr, op = .listExpiredCb now addr ∧ next.m_previouseTime = now := by
  cases op with
  | addTimer now addr ms cb recurring =>
      simp only [step] at taken
      split at taken
      · cases taken
        unfold addTimer
        dsimp only
        split <;> exact Or.inl rfl
      · cases taken
  | cancel t =>
      simp only [step, cancel_eq stored] at taken
      split at taken
      · split at taken <;> cases taken <;> exact Or.inl rfl
      · cases taken
  | refresh now t =>
      simp only [step, refresh_eq stored] at taken
      split at taken
      · split at taken <;> cases taken <;> exact Or.inl rfl
      · cases taken
  | reset now t ms from_now =>
      simp only [step, reset_eq stored] at taken
      split at taken
      · split at taken
        · cases taken
          exact Or.inl rfl
        · split at taken <;> cases taken <;> exact Or.inl rfl
      · cases taken
  | listExpiredCb now addr =>
      cases taken
      exact (m.listExpiredCb_previous now addr).imp_right fun read => ⟨now, addr, rfl, read⟩
  | getNextTimer now =>
      simp only [step, getNextTimer_state] at taken
      cases taken
      exact Or.inl rfl

/-- A new timer that is not announced stands behind another one, unless the poller has
been notified already. -/
theorem step_behind (stored : Stored [] m) {now : UInt64} {addr : Nat} {ms : UInt64}
    {cb : Option γ} {recurring : Bool}
    (taken : m.step (.addTimer now addr ms cb recurring) = some (ret, next))
    (silent : next.m_tickled = false) :
    ∃ u ∈ m.m_timers, (m.timer u).m_next.toNat ≤ (now + ms).toNat := by
  simp only [step] at taken
  split at taken
  · cases taken
    unfold addTimer at silent
    dsimp only at silent
    split at silent
    · cases silent
    · rename_i behind
      have calm : m.m_tickled = false := silent
      simp only [calm, Bool.not_false, Bool.and_true, List.isEmpty_iff, setTimer] at behind
      cases timers : m.m_timers with
      | nil =>
          rw [timers] at behind
          exact absurd rfl behind
      | cons u rest =>
          have old : u < m.count := stored.created u (Or.inl (timers ▸ List.mem_cons_self))
          refine ⟨u, List.mem_cons_self, ?_⟩
          rw [timers, List.takeWhile_cons] at behind
          split at behind
          · rename_i less
            rw [before_iff] at less
            dsimp only at less
            rw [Function.update_of_ne (Nat.ne_of_lt old), Function.update_self] at less
            have deadline : (Timer.new addr now ms cb recurring).m_next = now + ms := rfl
            rw [deadline] at less
            omega
          · exact absurd rfl behind
  · cases taken

/-! ### The clock and the deadlines -/

/-- The readings that the manager works with are not ahead of the clock. -/
structure Paced (clock : UInt64) (m : TimerManager γ) : Prop where
  started : ∀ t ∈ m.m_timers, (m.timer t).m_next - (m.timer t).m_ms ≤ clock
  previous : m.m_previouseTime ≤ clock

theorem new_paced (now : UInt64) : Paced now (new now : TimerManager γ) :=
  ⟨fun _ member => absurd member List.not_mem_nil, UInt64.le_refl now⟩

/-- What is left of a deadline without its interval is the reading it was made at. -/
theorem deadline_sub (start ms : UInt64) : start + ms - ms = start := by
  apply UInt64.toNat_inj.mp
  rw [UInt64.toNat_sub, UInt64.toNat_add]
  have := start.toNat_lt
  have := ms.toNat_lt
  omega

theorem Paced.step {clock : UInt64} (stored : Stored [] m) (paced : Paced clock m)
    (forward : clock ≤ op.clock clock) (taken : m.step op = some (ret, next)) :
    Paced (op.clock clock) next := by
  have kept : ∀ t ∈ m.m_timers, (m.timer t).m_next - (m.timer t).m_ms ≤ op.clock clock :=
    fun t inside => UInt64.le_trans (paced.started t inside) forward
  obtain ⟨-, effect⟩ := step_effect stored taken
  constructor
  · cases effect with
    | added timer count mem =>
        intro u inside
        rw [timer, Function.update_apply]
        split
        · exact Nat.le_of_eq (congrArg UInt64.toNat (deadline_sub _ _))
        · rename_i ne
          exact kept u (((mem u).mp inside).resolve_left ne)
    | cancelled callable timer count mem =>
        intro u inside
        obtain ⟨inside, ne⟩ := (mem u).mp inside
        rw [timer, Function.update_of_ne ne]
        exact kept u inside
    | refreshed callable timer count mem =>
        intro u inside
        rw [timer, Function.update_apply]
        split
        · exact Nat.le_of_eq (congrArg UInt64.toNat (deadline_sub _ _))
        · exact kept u ((mem u).mp inside)
    | @resetDone now t ms from_now _ callable timer count mem =>
        intro u inside
        rw [timer, Function.update_apply]
        split
        · rw [deadline_sub]
          cases from_now with
          | true => exact UInt64.le_refl now
          | false => exact kept t (stored.mem_of_callable callable)
        · exact kept u ((mem u).mp inside)
    | @expired now addr expired cbs _ expiry =>
        intro u inside
        obtain ⟨inside, again⟩ := (expiry.mem u).mp inside
        rw [expiry.timer]
        split
        · rename_i member
          rw [expiredTimer, if_pos (again member), deadline_sub]
          exact UInt64.le_refl now
        · exact kept u inside
    | next timer count mem =>
        intro u inside
        rw [timer]
        exact kept u ((mem u).mp inside)
    | cancelSpent | refreshSpent | resetSpent | resetSame => exact kept
  · rcases step_previous stored taken with same | ⟨now, addr, rfl, read⟩
    · rw [same]
      exact UInt64.le_trans paced.previous forward
    · rw [read]
      exact UInt64.le_refl now

/-! ### The front of the set -/

/-- What the operations may do as long as nobody was notified: no deadline wraps around
where a timer is armed again, and `reset` leaves no timer in front of `front`. -/
def KeepsFront (front : ℕ∞) (m : TimerManager γ) (op : TimerOp γ) : Prop :=
  m.m_tickled = false →
    match op with
    | .refresh now t => (m.timer t).m_cb.isSome → Fits now.toNat (m.timer t).m_ms.toNat
    | .reset now t ms from_now =>
        (m.timer t).m_cb.isSome →
          front ≤
            (((if from_now then now else (m.timer t).m_next - (m.timer t).m_ms) + ms).toNat : ℕ∞)
    | .listExpiredCb now _ =>
        ∀ t ∈ m.m_timers, (m.timer t).m_recurring = true → (m.timer t).m_next ≤ now →
          Fits now.toNat (m.timer t).m_ms.toNat
    | _ => True

/-- While nobody was notified, no timer of the set is in front of `front`. -/
def Ahead (front : ℕ∞) (m : TimerManager γ) : Prop :=
  m.m_tickled = false → ∀ t ∈ m.m_timers, front ≤ ((m.timer t).m_next.toNat : ℕ∞)

/-- An armed timer moves back when it is armed again at a later reading. -/
theorem Paced.rearm {clock now : UInt64} (paced : Paced clock m) (forward : clock ≤ now)
    {t : TimerId} (inside : t ∈ m.m_timers) (fits : Fits now.toNat (m.timer t).m_ms.toNat) :
    (m.timer t).m_next.toNat ≤ (now + (m.timer t).m_ms).toNat := by
  have started := UInt64.le_iff_toNat_le.mp (UInt64.le_trans (paced.started t inside) forward)
  rw [UInt64.toNat_sub] at started
  rw [toNat_deadline fits]
  have := (m.timer t).m_next.toNat_lt
  have := (m.timer t).m_ms.toNat_lt
  omega

theorem Ahead.step {front : ℕ∞} {clock : UInt64} (stored : Stored [] m) (paced : Paced clock m)
    (forward : clock ≤ op.clock clock) (unpolled : op.polls = false)
    (keeps : KeepsFront front m op) (ahead : Ahead front m)
    (taken : m.step op = some (ret, next)) : Ahead front next := by
  intro silent
  have calm : m.m_tickled = false := by
    have flag := step_tickled stored taken
    rw [silent, unpolled, Bool.not_false, Bool.true_and] at flag
    exact (Bool.or_eq_false_iff.mp flag.symm).1
  have bound := ahead calm
  have later : ∀ t ∈ m.m_timers, ∀ deadline : Nat, (m.timer t).m_next.toNat ≤ deadline →
      front ≤ (deadline : ℕ∞) :=
    fun t inside deadline le => le_trans (bound t inside) (ENat.natCast_le_natCast.mpr le)
  have guard := keeps calm
  obtain ⟨-, effect⟩ := step_effect stored taken
  cases effect with
  | added timer count mem =>
      intro u inside
      rw [timer, Function.update_apply]
      split
      · obtain ⟨v, member, before⟩ := step_behind stored taken silent
        exact later v member _ before
      · rename_i ne
        exact bound u (((mem u).mp inside).resolve_left ne)
  | cancelled callable timer count mem =>
      intro u inside
      obtain ⟨inside, ne⟩ := (mem u).mp inside
      rw [timer, Function.update_of_ne ne]
      exact bound u inside
  | refreshed callable timer count mem =>
      intro u inside
      rw [timer, Function.update_apply]
      split
      · have member := stored.mem_of_callable callable
        exact later _ member _ (paced.rearm forward member (guard callable))
      · exact bound u ((mem u).mp inside)
  | resetDone callable timer count mem =>
      intro u inside
      rw [timer, Function.update_apply]
      split
      · exact guard callable
      · exact bound u ((mem u).mp inside)
  | @expired now addr expired cbs _ expiry =>
      -- the clock is not behind the reading stored last, so only due timers are re-armed
      have ordered := UInt64.le_iff_toNat_le.mp (UInt64.le_trans paced.previous forward)
      have due := expiry.due (m.rollover_silent (Or.inl ordered))
      intro u inside
      obtain ⟨inside, again⟩ := (expiry.mem u).mp inside
      rw [expiry.timer]
      split
      · rename_i member
        have recurring := again member
        rw [expiredTimer, if_pos recurring]
        exact later u inside _
          (paced.rearm forward inside (guard u inside recurring (due u member)))
      · exact bound u inside
  | next timer count mem => cases unpolled
  | cancelSpent | refreshSpent | resetSpent | resetSame => exact bound

/-! ### Whole runs -/

theorem run_paced {clock : UInt64} {ops : List (TimerOp γ)} {rets : List (TimerRet γ)}
    (stored : Stored [] m) (paced : Paced clock m) (clocked : Clocked clock ops)
    (taken : Transition.run step m ops = some (rets, next)) :
    Stored [] next ∧ Paced (ops.foldl TimerOp.clock clock) next := by
  induction ops generalizing m clock rets with
  | nil =>
      cases taken
      exact ⟨stored, paced⟩
  | cons op rest ih =>
      obtain ⟨ret, mid, tail, first, after, -⟩ := (Transition.run_cons_iff ..).mp taken
      exact ih (step_effect stored first).1 (paced.step stored clocked.1 first) clocked.2 after

/-- Either somebody was notified along the run, or no timer got in front of `front`. -/
theorem run_ahead {front : ℕ∞} {clock : UInt64} {ops : List (TimerOp γ)}
    {rets : List (TimerRet γ)} (stored : Stored [] m) (paced : Paced clock m)
    (clocked : Clocked clock ops) (unpolled : ∀ op ∈ ops, op.polls = false)
    (keeps : Transition.Along step (KeepsFront front) m ops) (ahead : Ahead front m)
    (taken : Transition.run step m ops = some (rets, next)) :
    Ahead front next ∧
      (next.m_tickled = true → m.m_tickled = true ∨ ∃ ret ∈ rets, ret.notified = true) := by
  induction ops generalizing m clock rets with
  | nil =>
      cases taken
      exact ⟨ahead, Or.inl⟩
  | cons op rest ih =>
      obtain ⟨ret, mid, tail, first, after, rfl⟩ := (Transition.run_cons_iff ..).mp taken
      have here := unpolled op List.mem_cons_self
      have flag := step_tickled stored first
      rw [here, Bool.not_false, Bool.true_and] at flag
      obtain ⟨ahead, told⟩ := ih (step_effect stored first).1 (paced.step stored clocked.1 first)
        clocked.2 (fun op member => unpolled op (List.mem_cons_of_mem _ member))
        (keeps.2 ret mid first)
        (ahead.step stored paced clocked.1 here keeps.1 first) after
      refine ⟨ahead, ?_⟩
      intro tickled
      rcases told tickled with already | ⟨later, member, notified⟩
      · rw [flag, Bool.or_eq_true] at already
        exact already.imp_right fun notified => ⟨ret, List.mem_cons_self, notified⟩
      · exact Or.inr ⟨later, List.mem_cons_of_mem _ member, notified⟩

/-- After a call of `getNextTimer`, an earlier deadline than the earliest one of then
comes with a notification; that one is what the call reported, unless it had passed or
was too far ahead to tell. -/
theorem run_notified {now read ms : UInt64} {before after : List (TimerOp γ)}
    {past rets : List (TimerRet γ)} {m polled last : TimerManager γ}
    (clocked : Clocked now (before ++ .getNextTimer read :: after))
    (reached : Transition.run step (new now) before = some (past, m))
    (asked : m.step (.getNextTimer read) = some (.next ms, polled))
    (unpolled : ∀ op ∈ after, op.polls = false)
    (keeps : Transition.Along step (KeepsFront polled.earliest) polled after)
    (taken : Transition.run step polled after = some (rets, last)) :
    (((read.toNat : ℕ∞) ≤ polled.earliest ∧
        polled.earliest ≠ ((read.toNat + (2 ^ 64 - 1) : Nat) : ℕ∞) →
      reported read ms = polled.earliest)) ∧
    (last.earliest < polled.earliest → ∃ ret ∈ rets, ret.notified = true) := by
  obtain ⟨clocked, still⟩ := clocked_append clocked
  obtain ⟨stored, paced⟩ := run_paced (new_stored now) (new_paced now) clocked reached
  have stored' := (step_effect stored asked).1
  have paced' := paced.step stored still.1 asked
  have state : polled = { m with m_tickled := false } := by
    simp only [step, getNextTimer_state] at asked
    cases asked
    rfl
  constructor
  · rintro ⟨ahead, near⟩
    have same : polled.earliest = m.earliest := by
      rw [state]
      rfl
    have value : (m.getNextTimer read).1 = ms := by
      cases asked
      rfl
    rw [← value, m.reported_eq read (same ▸ ahead) (same ▸ near), same]
  · intro earlier
    obtain ⟨ahead, told⟩ := run_ahead stored' paced' still.2 unpolled keeps
      (fun _ t inside => earliest_le stored' inside) taken
    have tickled : last.m_tickled = true := by
      by_contra silent
      rw [Bool.not_eq_true] at silent
      exact absurd earlier (not_lt.mpr (le_earliest (ahead silent)))
    refine (told tickled).resolve_left ?_
    rw [state]
    exact Bool.false_ne_true

/-- The second timer is due before the first, which the poller waits for. -/
theorem run_notified_second :
    ∃ past m ms polled rets last,
      Transition.run step (new 1000 : TimerManager Unit)
        [.addTimer 1000 8 500 (some ()) false] = some (past, m) ∧
      m.step (.getNextTimer 1000) = some (.next ms, polled) ∧
      Transition.run step polled [.cancel 0, .addTimer 1010 16 20 (some ()) true] =
        some (rets, last) ∧
      last.earliest < polled.earliest ∧ ∃ ret ∈ rets, ret.notified = true := by
  have keeps : ∀ m : TimerManager Unit, Transition.Along step (KeepsFront m.earliest) m
      [.cancel 0, .addTimer 1010 16 20 (some ()) true] := by
    intro m
    exact ⟨fun _ => trivial, fun _ _ _ => ⟨fun _ => trivial, fun _ _ _ => trivial⟩⟩
  have clocked : Clocked 1000 ([.addTimer 1000 8 500 (some ()) false] ++
      .getNextTimer 1000 :: [.cancel 0, .addTimer 1010 16 20 (some ()) true] :
        List (TimerOp Unit)) := by
    decide
  refine ⟨_, _, _, _, _, _, rfl, rfl, rfl, ?_, ?_⟩
  · exact ENat.natCast_lt_natCast.mpr (by decide)
  · apply (run_notified clocked rfl rfl (by decide) (keeps _) rfl).2
    exact ENat.natCast_lt_natCast.mpr (by decide)

/-- The operations leave the poller a deadline earlier than the one reported, and nobody
was notified, though the clock never went back. -/
def Missed (now read : UInt64) (before after : List (TimerOp γ)) : Prop :=
  Clocked now (before ++ .getNextTimer read :: after) ∧ (∀ op ∈ after, op.polls = false) ∧
    ∃ past m ms polled rets last,
      Transition.run step (new now) before = some (past, m) ∧
      m.step (.getNextTimer read) = some (.next ms, polled) ∧
      Transition.run step polled after = some (rets, last) ∧
      last.earliest < reported read ms ∧ ∀ ret ∈ rets, ret.notified = false

/-- A timer that is overdue at the call, one that is reset to an earlier deadline, and
two whose deadline wraps around when they are armed again. -/
theorem getNextTimer_missed :
    Missed 1000 2000 [.addTimer 1000 8 10 (some ()) false] [] ∧
    Missed 1000 1000 [.addTimer 1000 8 5000 (some ()) false] [.reset 1000 0 10 true] ∧
    Missed 1 1 [.addTimer 1 8 18446744073709551614 (some ()) false] [.refresh 3 0] ∧
    Missed 1 1 [.addTimer 1 8 9223372036854775808 (some ()) true]
      [.listExpiredCb 9223372036854775809 16] := by
  refine ⟨⟨by decide, by decide, _, _, _, _, _, _, rfl, rfl, rfl, ?_, by decide⟩,
    ⟨by decide, by decide, _, _, _, _, _, _, rfl, rfl, rfl, ?_, by decide⟩,
    ⟨by decide, by decide, _, _, _, _, _, _, rfl, rfl, rfl, ?_, by decide⟩,
    ⟨by decide, by decide, _, _, _, _, _, _, rfl, rfl, rfl, ?_, by decide⟩⟩
  all_goals exact ENat.natCast_lt_natCast.mpr (by decide)

end TimerManager

end CorReactor
