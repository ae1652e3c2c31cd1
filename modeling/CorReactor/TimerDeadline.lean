import CorReactor.TimerInvariant

set_option autoImplicit false

/-! A timer is handed out only once its interval has passed, as long as no deadline
wraps around and the rollover detector stays silent. -/

namespace CorReactor

variable {γ : Type}

/-! ### What the caller asked for -/

/-- The clock reading of the last arming of each timer and its interval then, as
mathematical integers. -/
structure Armed where
  start : TimerId → Nat
  interval : TimerId → Nat

def Armed.none : Armed := ⟨fun _ => 0, fun _ => 0⟩

def Armed.set (armed : Armed) (t : TimerId) (start interval : Nat) : Armed where
  start := Function.update armed.start t start
  interval := Function.update armed.interval t interval

/-- Follow a completed operation. A timer that `listExpiredCb` hands out starts anew at
that reading, which matters where it recurs. -/
def Armed.after (armed : Armed) : TimerOp γ × TimerRet γ → Armed
  | (.addTimer now _ ms _ _, .added t _) => armed.set t now.toNat ms.toNat
  | (.refresh now _, .refreshed t true) => armed.set t now.toNat (armed.interval t)
  | (.reset now _ ms from_now, .reset t true) =>
      armed.set t (if from_now then now.toNat else armed.start t) ms.toNat
  | (.listExpiredCb now _, .expired cbs) =>
      { armed with start := fun t => if t ∈ cbs.map Prod.fst then now.toNat else armed.start t }
  | _ => armed

/-- A call hands a timer out only when its interval has passed. -/
def Armed.Due (armed : Armed) : TimerOp γ × TimerRet γ → Prop
  | (.listExpiredCb now _, .expired cbs) =>
      ∀ t ∈ cbs.map Prod.fst, armed.start t + armed.interval t ≤ now.toNat
  | _ => True

/-- Every call of a history hands out due timers only. -/
def Armed.Timely : Armed → List (TimerOp γ × TimerRet γ) → Prop
  | _, [] => True
  | armed, call :: rest => armed.Due call ∧ (armed.after call).Timely rest

namespace TimerManager

variable {m next : TimerManager γ} {op : TimerOp γ} {ret : TimerRet γ}

/-! ### The condition -/

/-- The deadline fits in 64 bits. -/
def Fits (start interval : Nat) : Prop := start + interval < 2 ^ 64

instance (start interval : Nat) : Decidable (Fits start interval) :=
  inferInstanceAs (Decidable (_ < _))

/-- No deadline that the operation computes wraps around, where `reset` without
`from_now` keeps the start `m_next - m_ms`. The clock stands at most an hour behind the
reading stored last, which is then itself past the first hour. -/
def Unwrapped (m : TimerManager γ) : TimerOp γ → Prop
  | .addTimer now _ ms _ _ => Fits now.toNat ms.toNat
  | .refresh now t => Fits now.toNat (m.timer t).m_ms.toNat
  | .reset now t ms from_now =>
      Fits (if from_now then now.toNat else (m.timer t).m_next.toNat - (m.timer t).m_ms.toNat)
        ms.toNat
  | .listExpiredCb now _ =>
      (m.m_previouseTime.toNat ≤ now.toNat ∨
        hour.toNat ≤ m.m_previouseTime.toNat ∧
          m.m_previouseTime.toNat ≤ now.toNat + hour.toNat) ∧
      ∀ t ∈ m.m_timers, (m.timer t).m_recurring = true → Fits now.toNat (m.timer t).m_ms.toNat
  | _ => True

instance (m : TimerManager γ) : (op : TimerOp γ) → Decidable (m.Unwrapped op)
  | .addTimer .. => inferInstanceAs (Decidable (Fits _ _))
  | .refresh .. => inferInstanceAs (Decidable (Fits _ _))
  | .reset .. => inferInstanceAs (Decidable (Fits _ _))
  | .listExpiredCb .. => inferInstanceAs (Decidable ((_ ∨ _ ∧ _) ∧ ∀ t ∈ m.m_timers, _ → _))
  | .cancel _ => isTrue trivial
  | .getNextTimer _ => isTrue trivial

/-- With the clock at most an hour back, and past the first hour, the detector is silent. -/
theorem rollover_silent (m : TimerManager γ) {now_ms : UInt64}
    (close : m.m_previouseTime.toNat ≤ now_ms.toNat ∨
      hour.toNat ≤ m.m_previouseTime.toNat ∧
        m.m_previouseTime.toNat ≤ now_ms.toNat + hour.toNat) :
    m.rollover now_ms = false := by
  unfold rollover
  rw [Bool.and_eq_false_iff, decide_eq_false_iff_not, decide_eq_false_iff_not,
    UInt64.lt_iff_toNat_lt, UInt64.lt_iff_toNat_lt]
  rcases close with ahead | ⟨past, close⟩
  · exact Or.inl (by omega)
  · have exact_sub : (m.m_previouseTime - hour).toNat =
        m.m_previouseTime.toNat - hour.toNat :=
      UInt64.toNat_sub_of_le _ _ (UInt64.le_iff_toNat_le.mpr past)
    rw [exact_sub]
    exact Or.inr (by omega)

theorem toNat_deadline {start ms : UInt64} (fits : Fits start.toNat ms.toNat) :
    (start + ms).toNat = start.toNat + ms.toNat := by
  unfold Fits at fits
  rw [UInt64.toNat_add]
  exact Nat.mod_eq_of_lt fits

/-! ### The invariant -/

/-- The intervals asked for are the ones stored, and each deadline in the set is the
start plus the interval. -/
structure Punctual (armed : Armed) (m : TimerManager γ) : Prop where
  interval : ∀ t < m.count, (m.timer t).m_ms.toNat = armed.interval t
  deadline : ∀ t ∈ m.m_timers, (m.timer t).m_next.toNat = armed.start t + armed.interval t

theorem Punctual.set {armed : Armed} (punctual : Punctual armed m) {t : TimerId} {timer : Timer γ}
    {start interval : Nat} (objects : next.timer = Function.update m.timer t timer)
    (count : next.count = m.count ∨ next.count = m.count + 1 ∧ t = m.count)
    (mem : ∀ u, u ∈ next.m_timers → u = t ∨ u ∈ m.m_timers)
    (ms : timer.m_ms.toNat = interval) (deadline : timer.m_next.toNat = start + interval) :
    Punctual (armed.set t start interval) next := by
  unfold Armed.set
  constructor
  · intro u old
    dsimp only
    rw [objects, Function.update_apply, Function.update_apply]
    split
    · exact ms
    · rename_i ne
      have before : u < m.count := by
        rcases count with same | ⟨more, fresh⟩
        · exact same ▸ old
        · rw [more] at old
          exact Nat.lt_of_le_of_ne (Nat.le_of_lt_succ old) (fresh ▸ ne)
      exact punctual.interval u before
  · intro u inside
    dsimp only
    rw [objects, Function.update_apply, Function.update_apply, Function.update_apply]
    split
    · exact deadline
    · rename_i ne
      exact punctual.deadline u ((mem u inside).resolve_left ne)

/-- The deadline that `reset` computes, from the start it keeps or from now. -/
theorem Punctual.reset {armed : Armed} (punctual : Punctual armed m) {t : TimerId}
    (old : t < m.count) (inside : t ∈ m.m_timers) {now ms : UInt64} {from_now : Bool}
    (unwrapped : m.Unwrapped (.reset now t ms from_now)) :
    ((if from_now then now else (m.timer t).m_next - (m.timer t).m_ms) + ms).toNat =
      (if from_now then now.toNat else armed.start t) + ms.toNat := by
  have interval := punctual.interval t old
  have deadline := punctual.deadline t inside
  have kept : ((m.timer t).m_next - (m.timer t).m_ms).toNat = armed.start t := by
    rw [UInt64.toNat_sub_of_le _ _ (UInt64.le_iff_toNat_le.mpr (by omega))]
    omega
  cases from_now with
  | true => exact toNat_deadline unwrapped
  | false =>
      have fits : Fits ((m.timer t).m_next - (m.timer t).m_ms).toNat ms.toNat := by
        rw [kept]
        have start : (m.timer t).m_next.toNat - (m.timer t).m_ms.toNat = armed.start t := by
          omega
        rw [← start]
        exact unwrapped
      change ((m.timer t).m_next - (m.timer t).m_ms + ms).toNat = armed.start t + ms.toNat
      rw [toNat_deadline fits, kept]

/-- `reset` to the interval the timer has changes nothing. -/
theorem Punctual.after_same {armed : Armed} (punctual : Punctual armed m) {t : TimerId}
    (old : t < m.count) (now : UInt64) :
    armed.after (TimerOp.reset now t (m.timer t).m_ms false, TimerRet.reset (γ := γ) t true) =
      armed := by
  have start : Function.update armed.start t (armed.start t) = armed.start :=
    Function.update_eq_self t armed.start
  have interval : Function.update armed.interval t (m.timer t).m_ms.toNat = armed.interval := by
    rw [punctual.interval t old]
    exact Function.update_eq_self t armed.interval
  change armed.set t (armed.start t) (m.timer t).m_ms.toNat = armed
  unfold Armed.set
  rw [start, interval]

/-- The timers that `listExpiredCb` arms again start from the clock it is given. -/
theorem Punctual.expired {armed : Armed} (stored : Stored [] m) (punctual : Punctual armed m)
    {now : UInt64} {addr : Nat} {expired : List TimerId} {cbs : List (TimerId × Option γ)}
    (expiry : Expiry m now expired cbs next)
    (fits : ∀ t ∈ m.m_timers, (m.timer t).m_recurring = true →
      Fits now.toNat (m.timer t).m_ms.toNat) :
    Punctual (armed.after (.listExpiredCb now addr, .expired cbs)) next := by
  constructor
  · intro u old
    rw [expiry.count] at old
    rw [expiry.timer]
    split
    · unfold expiredTimer
      split <;> exact punctual.interval u old
    · exact punctual.interval u old
  · intro u inside
    obtain ⟨inside, again⟩ := (expiry.mem u).mp inside
    change ((next.timer u).m_next).toNat =
      (if u ∈ cbs.map Prod.fst then now.toNat else armed.start u) + armed.interval u
    rw [expiry.timer, expiry.names]
    split
    · rename_i member
      have known : u < m.count := stored.created u (Or.inl inside)
      rw [expiredTimer, if_pos (again member), ← punctual.interval u known]
      exact toNat_deadline (fits u inside (again member))
    · exact punctual.deadline u inside

/-- One operation under the condition hands out due timers only. -/
theorem Punctual.step {armed : Armed} (stored : Stored [] m) (punctual : Punctual armed m)
    (unwrapped : m.Unwrapped op) (effect : Effect m op ret next) :
    armed.Due (op, ret) ∧ Punctual (armed.after (op, ret)) next := by
  have known : ∀ t ∈ m.m_timers, t < m.count := fun t inside => stored.created t (Or.inl inside)
  cases effect with
  | added timer count mem =>
      refine ⟨trivial, punctual.set timer (Or.inr ⟨count, rfl⟩) (fun u => (mem u).mp) rfl ?_⟩
      exact toNat_deadline unwrapped
  | cancelled callable timer count mem =>
      refine ⟨trivial, ?_, ?_⟩
      · intro u old
        rw [timer, Function.update_apply]
        split
        · rename_i same
          subst same
          exact punctual.interval u (count ▸ old)
        · exact punctual.interval u (count ▸ old)
      · intro u inside
        obtain ⟨inside, ne⟩ := (mem u).mp inside
        rw [timer, Function.update_of_ne ne]
        exact punctual.deadline u inside
  | refreshed callable timer count mem =>
      have old := known _ (stored.mem_of_callable callable)
      refine ⟨trivial,
        punctual.set timer (Or.inl count) (fun u inside => Or.inr ((mem u).mp inside))
        (punctual.interval _ old) ?_⟩
      rw [← punctual.interval _ old]
      exact toNat_deadline unwrapped
  | @resetDone now t ms from_now _ callable timer count mem =>
      have inside := stored.mem_of_callable callable
      refine ⟨trivial, punctual.set timer (Or.inl count)
        (fun u inside => Or.inr ((mem u).mp inside)) rfl ?_⟩
      exact punctual.reset (known t inside) inside unwrapped
  | resetSame old =>
      rw [punctual.after_same old]
      exact ⟨trivial, punctual⟩
  | @expired now addr expired cbs _ expiry =>
      obtain ⟨close, fits⟩ := unwrapped
      have due := expiry.due (m.rollover_silent close)
      refine ⟨?_, punctual.expired stored expiry fits⟩
      intro t member
      rw [expiry.names] at member
      have inside := expiry.front.subset member
      rw [← punctual.deadline t inside]
      exact UInt64.le_iff_toNat_le.mp (due t member)
  | next timer count mem =>
      refine ⟨trivial, ?_, ?_⟩
      · intro u old
        rw [timer]
        exact punctual.interval u (count ▸ old)
      · intro u inside
        rw [timer]
        exact punctual.deadline u ((mem u).mp inside)
  | cancelSpent | refreshSpent | resetSpent => exact ⟨trivial, punctual⟩

/-! ### Whole runs -/

theorem timely_append {armed : Armed} {history : List (TimerOp γ × TimerRet γ)}
    (timely : armed.Timely history) {call : TimerOp γ × TimerRet γ}
    (due : (history.foldl Armed.after armed).Due call) : armed.Timely (history ++ [call]) := by
  induction history generalizing armed with
  | nil => exact ⟨due, trivial⟩
  | cons first rest ih => exact ⟨timely.1, ih timely.2 due⟩

/-- A run whose operations all meet the condition hands out due timers only. -/
theorem run_timely {now : UInt64} {ops : List (TimerOp γ)} {rets : List (TimerRet γ)}
    (unwrapped : Transition.Along step Unwrapped (new now) ops)
    (taken : Transition.run step (new now) ops = some (rets, m)) :
    Armed.none.Timely (ops.zip rets) := by
  have keep : ∀ (h : List (TimerOp γ × TimerRet γ)) (s : TimerManager γ) (op : TimerOp γ)
      (ret : TimerRet γ) (s' : TimerManager γ),
      Armed.none.Timely h ∧ Stored [] s ∧ Punctual (h.foldl Armed.after Armed.none) s →
      s.Unwrapped op → s.step op = some (ret, s') →
      Armed.none.Timely (h ++ [(op, ret)]) ∧ Stored [] s' ∧
        Punctual ((h ++ [(op, ret)]).foldl Armed.after Armed.none) s' := by
    rintro h s op ret s' ⟨timely, stored, punctual⟩ guard done
    obtain ⟨stored', effect⟩ := step_effect stored done
    obtain ⟨due, punctual'⟩ := punctual.step stored guard effect
    rw [List.foldl_append]
    exact ⟨timely_append timely due, stored', punctual'⟩
  have start : Punctual Armed.none (new now : TimerManager γ) :=
    ⟨fun _ old => absurd old (Nat.not_lt_zero _), fun _ inside => absurd inside List.not_mem_nil⟩
  have last := Transition.run_history keep (h := []) ⟨trivial, new_stored now, start⟩
    unwrapped taken
  exact last.1

/-- A recurring timer that is handed out twice, the clock a minute back in between. -/
theorem run_timely_twice :
    ∃ rets m, Transition.run step (new 7200000 : TimerManager Unit)
      [.addTimer 7200000 8 10 (some ()) true, .listExpiredCb 7200010 16,
        .reset 7140000 0 60000 true, .listExpiredCb 7200000 16] = some (rets, m) ∧
      Armed.none.Timely
        (([.addTimer 7200000 8 10 (some ()) true, .listExpiredCb 7200010 16,
          .reset 7140000 0 60000 true, .listExpiredCb 7200000 16] : List (TimerOp Unit)).zip
          rets) := by
  have unwrapped : Transition.Along step Unwrapped (new 7200000 : TimerManager Unit)
      [.addTimer 7200000 8 10 (some ()) true, .listExpiredCb 7200010 16,
        .reset 7140000 0 60000 true, .listExpiredCb 7200000 16] := by
    decide
  have completes : (Transition.run step (new 7200000 : TimerManager Unit)
      [.addTimer 7200000 8 10 (some ()) true, .listExpiredCb 7200010 16,
        .reset 7140000 0 60000 true, .listExpiredCb 7200000 16]).isSome := by
    decide
  obtain ⟨⟨rets, m⟩, taken⟩ := Option.isSome_iff_exists.mp completes
  exact ⟨rets, m, taken, run_timely unwrapped taken⟩

/-- An interval close to 2^64 wraps around, and the timer is handed out at the reading
at which it was added. -/
theorem addTimer_wraps :
    ∃ rets m, Transition.run step (new 1000 : TimerManager Unit)
      [.addTimer 1000 8 18446744073709551615 (some ()) false, .listExpiredCb 1000 16] =
        some (rets, m) ∧
      ¬ Armed.none.Timely
        (([.addTimer 1000 8 18446744073709551615 (some ()) false, .listExpiredCb 1000 16] :
          List (TimerOp Unit)).zip rets) := by
  refine ⟨_, _, rfl, ?_⟩
  intro timely
  have due := timely.2.1 0 (by decide)
  exact absurd due (by decide)

end TimerManager

end CorReactor
