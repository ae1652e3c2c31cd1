import CorReactor.TimerInvariant

set_option autoImplicit false

/-! The hooked `sleep`, `usleep` and `nanosleep`, on a thread whose hook is enabled. -/

namespace CorReactor.Hook

structure Timespec where
  tv_sec : Int
  tv_nsec : Int

/-- What the standard asks of a requested interval. -/
def Timespec.Valid (req : Timespec) : Prop :=
  0 ≤ req.tv_sec ∧ 0 ≤ req.tv_nsec ∧ req.tv_nsec < 10 ^ 9

/-- Whether the number is a `long`. -/
def isLong (n : Int) : Bool := -2 ^ 63 ≤ n && n < 2 ^ 63

theorem isLong_iff (n : Int) : isLong n = true ↔ -2 ^ 63 ≤ n ∧ n < 2 ^ 63 := by
  rw [isLong, Bool.and_eq_true, decide_eq_true_eq, decide_eq_true_eq]

theorem toNat_ofInt (ms : Int) : ((UInt64.ofInt ms).toNat : Int) = ms % 2 ^ 64 := by
  rw [UInt64.ofInt, UInt64.toNat_ofNat', Nat.mod_eq_of_lt (by omega)]
  exact Int.toNat_of_nonneg (Int.emod_nonneg ms (by decide))

section Calls

variable {γ : Type} (m : TimerManager γ) (now : UInt64) (addr : Nat) (wake : γ)

/-- `addTimer` with the callback that schedules the calling fiber. -/
def wakeAfter (ms : UInt64) : TimerId × TimerManager γ :=
  let added := m.addTimer now addr ms (some wake) false
  (added.1.1, added.2)

/-- The product is an `unsigned int`. -/
def sleep (seconds : UInt32) : TimerId × TimerManager γ :=
  wakeAfter m now addr wake (seconds * 1000).toUInt64

def usleep (usec : UInt32) : TimerId × TimerManager γ :=
  wakeAfter m now addr wake (usec / 1000).toUInt64

/-- `timeout_ms` is an `int`; `none` is an overflow of the `long` that it is computed as. -/
def nanosleep (req : Timespec) : Option (TimerId × TimerManager γ) :=
  let seconds := req.tv_sec * 1000
  let total := seconds + (req.tv_nsec.tdiv 1000).tdiv 1000
  if isLong seconds && isLong total then
    let timeout_ms := total.bmod (2 ^ 32)
    some (wakeAfter m now addr wake (UInt64.ofNat (timeout_ms % 2 ^ 64).toNat))
  else none

end Calls

/-- The timer's interval is the requested one, in nanoseconds, or less than a millisecond more. -/
def WakesAfter {γ : Type} (nanoseconds : Nat) (slept : TimerId × TimerManager γ) : Prop :=
  let ms := (slept.2.timer slept.1).m_ms.toNat
  nanoseconds ≤ ms * 10 ^ 6 ∧ ms * 10 ^ 6 < nanoseconds + 10 ^ 6

section Intervals

variable {γ : Type} (m : TimerManager γ) (now : UInt64) (addr : Nat) (wake : γ)

theorem wakesAfter_iff (nanoseconds : Nat) (ms : UInt64) :
    WakesAfter nanoseconds (wakeAfter m now addr wake ms) ↔
      nanoseconds ≤ ms.toNat * 10 ^ 6 ∧ ms.toNat * 10 ^ 6 < nanoseconds + 10 ^ 6 := by
  have timer : (wakeAfter m now addr wake ms).2.timer (wakeAfter m now addr wake ms).1 =
      Timer.new addr now ms (some wake) false := by
    change (m.addTimer now addr ms (some wake) false).2.timer m.count = _
    rw [TimerManager.addTimer_timer, Function.update_self]
  unfold WakesAfter
  rw [timer]
  rfl

theorem sleep_iff (seconds : UInt32) :
    WakesAfter (seconds.toNat * 10 ^ 9) (sleep m now addr wake seconds) ↔
      seconds.toNat * 1000 < 2 ^ 32 := by
  have product : (seconds * 1000).toUInt64.toNat = seconds.toNat * 1000 % 2 ^ 32 := by
    rw [UInt32.toNat_toUInt64, UInt32.toNat_mul]
    rfl
  unfold sleep
  rw [wakesAfter_iff, product]
  omega

theorem usleep_iff (usec : UInt32) :
    WakesAfter (usec.toNat * 10 ^ 3) (usleep m now addr wake usec) ↔ 1000 ∣ usec.toNat := by
  have quotient : (usec / 1000).toUInt64.toNat = usec.toNat / 1000 := by
    rw [UInt32.toNat_toUInt64, UInt32.toNat_div]
    rfl
  unfold usleep
  rw [wakesAfter_iff, quotient]
  omega

/-- An `int` with its sign bit set becomes an interval beyond every `long`. -/
theorem toNat_timeout (total : Int) :
    ((UInt64.ofNat (total.bmod (2 ^ 32) % 2 ^ 64).toNat).toNat : Int) =
      if total % 2 ^ 32 < 2 ^ 31 then total % 2 ^ 32 else total % 2 ^ 32 + (2 ^ 64 - 2 ^ 32) := by
  have remainder : total.bmod (2 ^ 32) = if total % 4294967296 < 2147483648 then
      total % 4294967296 else total % 4294967296 - 4294967296 := by
    change total.bmod 4294967296 = _
    rw [Int.bmod_def]
    split <;> split <;> omega
  have number := toNat_ofInt (total.bmod (2 ^ 32))
  rw [UInt64.ofInt, remainder] at number
  rw [remainder, number]
  split <;> split <;> omega

theorem nanosleep_iff {req : Timespec} (valid : req.Valid) :
    (∃ slept, nanosleep m now addr wake req = some slept ∧
        WakesAfter (req.tv_sec * 10 ^ 9 + req.tv_nsec).toNat slept) ↔
      10 ^ 6 ∣ req.tv_nsec ∧ req.tv_sec * 1000 + req.tv_nsec / 10 ^ 6 < 2 ^ 31 := by
  obtain ⟨tv_sec, tv_nsec⟩ := req
  obtain ⟨seconds, low, high⟩ := valid
  dsimp only at seconds low high ⊢
  have millis : (tv_nsec.tdiv 1000).tdiv 1000 = tv_nsec / 10 ^ 6 := by
    rw [Int.tdiv_eq_ediv_of_nonneg low,
      Int.tdiv_eq_ediv_of_nonneg (Int.ediv_nonneg low (by decide)),
      Int.ediv_ediv_of_nonneg (by decide)]
    rfl
  unfold nanosleep
  simp only [millis, Bool.and_eq_true, isLong_iff]
  by_cases long : (-2 ^ 63 ≤ tv_sec * 1000 ∧ tv_sec * 1000 < 2 ^ 63) ∧
      -2 ^ 63 ≤ tv_sec * 1000 + tv_nsec / 10 ^ 6 ∧ tv_sec * 1000 + tv_nsec / 10 ^ 6 < 2 ^ 63
  · rw [if_pos long]
    simp only [Option.some.injEq, exists_eq_left']
    rw [wakesAfter_iff]
    have interval := toNat_timeout (tv_sec * 1000 + tv_nsec / 10 ^ 6)
    generalize (UInt64.ofNat _).toNat = ms at interval ⊢
    omega
  · rw [if_neg long]
    refine iff_of_false ?_ fun short => long ?_
    · rintro ⟨slept, impossible, -⟩
      cases impossible
    · omega

end Intervals

/-- Which calls sleep for as long as they are asked to. -/
theorem sleeps_iff {γ : Type} (m : TimerManager γ) (now : UInt64) (addr : Nat) (wake : γ)
    (seconds usec : UInt32) {req : Timespec} (valid : req.Valid) :
    (WakesAfter (seconds.toNat * 10 ^ 9) (sleep m now addr wake seconds) ↔
      seconds.toNat * 1000 < 2 ^ 32) ∧
    (WakesAfter (usec.toNat * 10 ^ 3) (usleep m now addr wake usec) ↔ 1000 ∣ usec.toNat) ∧
    ((∃ slept, nanosleep m now addr wake req = some slept ∧
        WakesAfter (req.tv_sec * 10 ^ 9 + req.tv_nsec).toNat slept) ↔
      10 ^ 6 ∣ req.tv_nsec ∧ req.tv_sec * 1000 + req.tv_nsec / 10 ^ 6 < 2 ^ 31) :=
  ⟨sleep_iff m now addr wake seconds, usleep_iff m now addr wake usec,
    nanosleep_iff m now addr wake valid⟩

/-- Two seconds, two milliseconds, and two seconds and a half. -/
theorem sleeps_two :
    WakesAfter (2 * 10 ^ 9) (sleep (.new 0) 0 0 () 2) ∧
      WakesAfter (2000 * 10 ^ 3) (usleep (.new 0) 0 0 () 2000) ∧
      ∃ slept, nanosleep (.new 0) 0 0 () ⟨2, 500000000⟩ = some slept ∧
        WakesAfter 2500000000 slept := by
  have valid : Timespec.Valid ⟨2, 500000000⟩ := by
    refine ⟨?_, ?_, ?_⟩ <;> decide
  have sleeps := sleeps_iff (.new 0) 0 0 () 2 2000 valid
  exact ⟨sleeps.1.mpr (by decide), sleeps.2.1.mpr (by decide), sleeps.2.2.mpr (by decide)⟩

/-- The seconds wrap around after 49 days, a microsecond is no time at all, and 2 ^ 31
milliseconds are a negative number. -/
theorem sleeps_short :
    ¬ WakesAfter (4294968 * 10 ^ 9) (sleep (.new 0) 0 0 () 4294968) ∧
      ((usleep (.new 0) 0 0 () 999).2.timer 0).m_ms = 0 ∧
      ¬ WakesAfter (999 * 10 ^ 3) (usleep (.new 0) 0 0 () 999) ∧
      ¬ ∃ slept, nanosleep (.new 0) 0 0 () ⟨2147483, 648000000⟩ = some slept ∧
        WakesAfter 2147483648000000 slept := by
  have long : Timespec.Valid ⟨2147483, 648000000⟩ := by
    refine ⟨?_, ?_, ?_⟩ <;> decide
  refine ⟨?_, by decide, ?_, ?_⟩
  · rw [show 4294968 * 10 ^ 9 = (4294968 : UInt32).toNat * 10 ^ 9 from rfl, sleep_iff]
    decide
  · rw [show 999 * 10 ^ 3 = (999 : UInt32).toNat * 10 ^ 3 from rfl, usleep_iff]
    decide
  · have exact := nanosleep_iff (.new 0 : TimerManager Unit) 0 0 () long
    exact fun wakes => absurd (exact.mp wakes).2 (by decide)

end CorReactor.Hook
