import CorReactor.Timer

set_option autoImplicit false

/-! How long `IOManager::idle` lets `epoll_wait` wait. -/

namespace CorReactor.IOManager

def MAX_TIMEOUT : UInt64 := 3000

/-- The cast of a `uint64_t` to `int`. -/
def toInt (n : UInt64) : Int := (n.toNat : Int).bmod (2 ^ 32)

/-- `next_timeout` as the body of the loop around `epoll_wait` assigns it. -/
def clamped (next_timeout : UInt64) : UInt64 :=
  if next_timeout ≠ 0xFFFFFFFFFFFFFFFF then
    if toInt next_timeout > 3000 then MAX_TIMEOUT else next_timeout
  else MAX_TIMEOUT

/-- The loop around `epoll_wait`, which gives its result and whether `errno` is `EINTR`: the
timeouts passed to it, and the result that the loop ends with. -/
def wait : UInt64 → List (Int × Bool) → List Int × Option Int
  | _, [] => ([], none)
  | next_timeout, (rt, interrupted) :: rest =>
      let next_timeout := clamped next_timeout
      if rt < 0 ∧ interrupted = true then
        let later := wait next_timeout rest
        (toInt next_timeout :: later.1, later.2)
      else ([toInt next_timeout], some rt)

/-- The part of a turn of `idle` from `getNextTimer`, which `stopping` calls, up to the end of
the loop around `epoll_wait`. -/
def idleWait {γ : Type} (timers : TimerManager γ) (now_ms : UInt64) (answers : List (Int × Bool)) :
    List Int × Option Int :=
  wait (timers.getNextTimer now_ms).1 answers

/-- From 0 to 3000 milliseconds, and not past the next timer. -/
def Bounded (next_timeout : UInt64) (timeout : Int) : Prop :=
  0 ≤ timeout ∧ timeout ≤ 3000 ∧ timeout ≤ next_timeout.toNat

instance (next_timeout : UInt64) (timeout : Int) : Decidable (Bounded next_timeout timeout) :=
  inferInstanceAs (Decidable (_ ∧ _ ∧ _))

/-- No timer, or a distance whose cast to `int` is not negative. -/
def Castable (next_timeout : UInt64) : Prop :=
  next_timeout = 0xFFFFFFFFFFFFFFFF ∨ next_timeout.toNat % 2 ^ 32 < 2 ^ 31

instance (next_timeout : UInt64) : Decidable (Castable next_timeout) :=
  inferInstanceAs (Decidable (_ ∨ _))

variable {next_timeout : UInt64}

theorem toInt_eq (n : UInt64) :
    toInt n = if n.toNat % 4294967296 < 2147483648 then (n.toNat % 4294967296 : Int)
      else (n.toNat % 4294967296 : Int) - 4294967296 := by
  have unfolded : toInt n = (n.toNat : Int).bmod 4294967296 := rfl
  rw [unfolded, Int.bmod_def]
  split <;> split <;> omega

/-- `next_timeout` becomes the maximum, or stays as it is. -/
theorem clamped_cases (n : UInt64) : clamped n = MAX_TIMEOUT ∨ clamped n = n := by
  unfold clamped
  split
  · split
    · exact Or.inl rfl
    · exact Or.inr rfl
  · exact Or.inl rfl

/-- An interrupted call is made again with the same timeout. -/
theorem clamped_clamped (n : UInt64) : clamped (clamped n) = clamped n := by
  have fixed : clamped MAX_TIMEOUT = MAX_TIMEOUT := by decide
  rcases clamped_cases n with max | same
  · rw [max, fixed]
  · rw [same, same]

theorem wait_timeouts (answers : List (Int × Bool)) :
    ∀ timeout ∈ (wait next_timeout answers).1, timeout = toInt (clamped next_timeout) := by
  induction answers generalizing next_timeout with
  | nil =>
      intro timeout member
      cases member
  | cons answer rest ih =>
      intro timeout member
      unfold wait at member
      dsimp only at member
      split at member
      · rcases List.mem_cons.mp member with same | later
        · exact same
        · rw [ih timeout later, clamped_clamped]
      · exact List.mem_singleton.mp member

theorem bounded_iff :
    Bounded next_timeout (toInt (clamped next_timeout)) ↔ Castable next_timeout := by
  unfold Castable Bounded
  by_cases max : next_timeout = 0xFFFFFFFFFFFFFFFF
  · refine iff_of_true ?_ (Or.inl max)
    subst max
    decide
  · have value := toInt_eq next_timeout
    have three : toInt MAX_TIMEOUT = 3000 := by decide
    rw [or_iff_right max, clamped, if_pos max]
    split
    · rw [three]
      split at value <;> omega
    · split at value <;> omega

/-- Every timeout of a turn of `idle`, retries included, is bounded exactly when the distance of
the next timer stays non-negative as an `int`. -/
theorem idleWait_bounded_iff {γ : Type} (timers : TimerManager γ) (now_ms : UInt64) :
    (∀ answers, ∀ timeout ∈ (idleWait timers now_ms answers).1,
      Bounded (timers.getNextTimer now_ms).1 timeout) ↔
      Castable (timers.getNextTimer now_ms).1 := by
  rw [← bounded_iff]
  constructor
  · intro bounded
    exact bounded [(0, false)] _ (List.mem_singleton_self _)
  · intro bounded answers timeout member
    rw [wait_timeouts answers timeout member]
    exact bounded

/-- A timer 2^31 milliseconds away: `epoll_wait` gets a negative timeout, and again after
`EINTR`. -/
theorem idleWait_unbounded :
    ∃ rets timers, Transition.run TimerManager.step (TimerManager.new 100)
        [.addTimer 100 8 2147483648 (some ()) false] = some (rets, timers) ∧
      (timers.getNextTimer 100).1 = 2147483648 ∧
      idleWait timers 100 [(-1, true), (0, false)] = ([-2147483648, -2147483648], some 0) ∧
      ¬ ∀ answers, ∀ timeout ∈ (idleWait timers 100 answers).1,
        Bounded (timers.getNextTimer 100).1 timeout := by
  refine ⟨_, _, rfl, by decide, by decide, ?_⟩
  intro bounded
  have first := bounded [(0, false)] _ (List.mem_singleton_self _)
  revert first
  decide

end CorReactor.IOManager
