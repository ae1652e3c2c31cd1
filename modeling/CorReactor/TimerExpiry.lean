import CorReactor.TimerDeadline

set_option autoImplicit false

/-! When `listExpiredCb` hands out exactly the timers that are due. -/

namespace CorReactor.TimerManager

variable {γ : Type} {m next : TimerManager γ} {now_ms : UInt64} {addr : Nat}

/-- The deadline of the timer has come. -/
def Due (m : TimerManager γ) (now_ms : UInt64) (t : TimerId) : Prop := (m.timer t).m_next ≤ now_ms

instance (m : TimerManager γ) (now_ms : UInt64) (t : TimerId) : Decidable (m.Due now_ms t) :=
  inferInstanceAs (Decidable (_ ≤ _))

/-- The due timers are handed out once each with their callbacks, in the order of their
deadlines; the recurring ones among them are armed again a whole interval from now, and the
others are as they were. -/
structure ExactExpiry (m : TimerManager γ) (now_ms : UInt64) (cbs : List (TimerId × Option γ))
    (next : TimerManager γ) : Prop where
  handed : ∀ t, t ∈ cbs.map Prod.fst ↔ t ∈ m.m_timers ∧ m.Due now_ms t
  once : (cbs.map Prod.fst).Nodup
  callbacks : ∀ c ∈ cbs, c.2 = (m.timer c.1).m_cb
  ordered : cbs.Pairwise fun a b => (m.timer a.1).m_next ≤ (m.timer b.1).m_next
  pending : ∀ t, t ∈ next.m_timers ↔
    t ∈ m.m_timers ∧ (m.Due now_ms t → (m.timer t).m_recurring = true)
  rearmed : ∀ t ∈ m.m_timers, m.Due now_ms t → (m.timer t).m_recurring = true →
    (next.timer t).m_next.toNat = now_ms.toNat + (m.timer t).m_ms.toNat
  kept : ∀ t ∈ m.m_timers, ¬ m.Due now_ms t → next.timer t = m.timer t
  polled : (next.getNextTimer now_ms).1 = 0 →
    ∃ t ∈ m.m_timers, m.Due now_ms t ∧ (m.timer t).m_recurring = true ∧ (m.timer t).m_ms = 0

/-- No timer that is due right now lies at or behind the address of `now_timer`, and no due
timer that recurs has an interval that wraps around. -/
def ClearCut (m : TimerManager γ) (now_ms : UInt64) (addr : Nat) : Prop :=
  ∀ t ∈ m.m_timers, ((m.timer t).m_next = now_ms → (m.timer t).addr < addr) ∧
    (m.Due now_ms t → (m.timer t).m_recurring = true → Fits now_ms.toNat (m.timer t).m_ms.toNat)

instance (m : TimerManager γ) (now_ms : UInt64) (addr : Nat) :
    Decidable (m.ClearCut now_ms addr) :=
  inferInstanceAs (Decidable (∀ t ∈ m.m_timers, _ ∧ _))

/-- `lower_bound` cuts behind the earlier deadlines and those right now at lower addresses. -/
theorem mem_dueBefore (stored : Stored [] m) (t : TimerId) :
    t ∈ m.dueBefore now_ms addr ↔ t ∈ m.m_timers ∧
      ((m.timer t).m_next.toNat < now_ms.toNat ∨
        (m.timer t).m_next.toNat = now_ms.toNat ∧ (m.timer t).addr < addr) := by
  unfold dueBefore
  rw [stored.sorted.mem_takeWhile, comparator_iff]
  intro a b less
  rw [before_iff] at less
  rw [comparator_iff, comparator_iff]
  dsimp only
  omega

/-- Without a rollover the timers cut off are those in front of `now_timer`, also where the
call returns early. -/
theorem listExpiredCb_silent (stored : Stored [] m) (silent : m.rollover now_ms = false)
    (addr : Nat) :
    Expiry m now_ms (m.dueBefore now_ms addr) (m.listExpiredCb now_ms addr).1
      (m.listExpiredCb now_ms addr).2 := by
  unfold listExpiredCb
  split
  · rename_i empty
    rw [dueBefore, empty]
    exact Expiry.nothing stored now_ms m.m_previouseTime
  · rename_i first rest timers
    simp only [detectClockRollover, silent, Bool.not_false, Bool.true_and, Bool.false_eq_true,
      ↓reduceIte]
    split
    · rename_i later
      have later := UInt64.lt_iff_toNat_lt.mp (of_decide_eq_true later)
      have none_due : m.dueBefore now_ms addr = [] := by
        rw [dueBefore, timers, List.takeWhile_cons_of_neg]
        rw [comparator_iff]
        dsimp only
        omega
      rw [none_due]
      exact Expiry.nothing stored now_ms now_ms
    · exact Expiry.collect stored (List.takeWhile_prefix _) fun _ _ => m.dueBefore_due now_ms addr

/-- `getNextTimer` returns zero only where a timer is due. -/
theorem getNextTimer_zero (zero : (m.getNextTimer now_ms).1 = 0) :
    ∃ t ∈ m.m_timers, m.Due now_ms t := by
  simp only [getNextTimer] at zero
  split at zero
  · cases zero
  · rename_i first rest timers
    have inside : first ∈ m.m_timers := by
      rw [show m.m_timers = first :: rest from timers]
      exact List.mem_cons_self
    refine ⟨first, inside, ?_⟩
    split at zero
    · assumption
    · rename_i later
      have later : now_ms.toNat < (m.timer first).m_next.toNat :=
        Nat.lt_of_not_le fun due => later (UInt64.le_iff_toNat_le.mpr due)
      have nothing : ((m.timer first).m_next - now_ms).toNat = 0 := congrArg UInt64.toNat zero
      rw [UInt64.toNat_sub_of_le _ _ (UInt64.le_iff_toNat_le.mpr (Nat.le_of_lt later))] at nothing
      omega

theorem Expiry.rearmed {expired : List TimerId} {cbs : List (TimerId × Option γ)} {t : TimerId}
    (expiry : Expiry m now_ms expired cbs next) (member : t ∈ expired)
    (recurring : (m.timer t).m_recurring = true) :
    (next.timer t).m_next = now_ms + (m.timer t).m_ms := by
  rw [expiry.timer, if_pos member, expiredTimer, if_pos recurring]

/-- Under the condition the timers in front of `now_timer` are the due ones. -/
theorem dueBefore_iff (stored : Stored [] m) (clear : m.ClearCut now_ms addr) (t : TimerId) :
    t ∈ m.dueBefore now_ms addr ↔ t ∈ m.m_timers ∧ m.Due now_ms t := by
  rw [mem_dueBefore stored]
  apply and_congr_right
  intro inside
  rw [Due, UInt64.le_iff_toNat_le]
  have first := (clear t inside).1
  constructor
  · omega
  · intro due
    rcases Nat.lt_or_eq_of_le due with less | same
    · exact Or.inl less
    · exact Or.inr ⟨same, first (UInt64.toNat_inj.mp same)⟩

theorem ordered_of_sorted (stored : Stored [] m) :
    m.m_timers.Pairwise fun a b => (m.timer a).m_next ≤ (m.timer b).m_next := by
  refine List.Pairwise.imp ?_ stored.sorted
  intro a b less
  rw [before_iff] at less
  rw [UInt64.le_iff_toNat_le]
  omega

theorem Expiry.exact (stored : Stored [] m) (clear : m.ClearCut now_ms addr)
    {cbs : List (TimerId × Option γ)}
    (expiry : Expiry m now_ms (m.dueBefore now_ms addr) cbs next) :
    ExactExpiry m now_ms cbs next := by
  have cut := dueBefore_iff stored clear
  have rearmed : ∀ t ∈ m.m_timers, m.Due now_ms t → (m.timer t).m_recurring = true →
      (next.timer t).m_next.toNat = now_ms.toNat + (m.timer t).m_ms.toNat := by
    intro t inside due recurring
    rw [expiry.rearmed ((cut t).mpr ⟨inside, due⟩) recurring]
    exact toNat_deadline ((clear t inside).2 due recurring)
  have kept : ∀ t ∈ m.m_timers, ¬ m.Due now_ms t → next.timer t = m.timer t := by
    intro t inside later
    rw [expiry.timer, if_neg fun member => later ((cut t).mp member).2]
  have pending : ∀ t, t ∈ next.m_timers ↔
      t ∈ m.m_timers ∧ (m.Due now_ms t → (m.timer t).m_recurring = true) := by
    intro t
    rw [expiry.mem]
    apply and_congr_right
    intro inside
    rw [cut]
    exact ⟨fun again due => again ⟨inside, due⟩, fun again member => again member.2⟩
  refine ⟨?_, ?_, ?_, ?_, pending, rearmed, kept, ?_⟩
  · intro t
    rw [expiry.names]
    exact cut t
  · rw [expiry.names]
    exact stored.nodup.sublist expiry.front.sublist
  · intro c member
    rw [expiry.cbs] at member
    obtain ⟨t, -, rfl⟩ := List.mem_map.mp member
    rfl
  · rw [expiry.cbs, List.pairwise_map]
    exact (ordered_of_sorted stored).sublist expiry.front.sublist
  · intro zero
    obtain ⟨t, present, due_again⟩ := getNextTimer_zero zero
    obtain ⟨inside, again⟩ := (pending t).mp present
    have due : m.Due now_ms t := by
      by_contra later
      rw [Due, kept t inside later] at due_again
      exact later due_again
    refine ⟨t, inside, due, again due, ?_⟩
    have deadline := rearmed t inside due (again due)
    rw [Due, UInt64.le_iff_toNat_le] at due_again
    apply UInt64.toNat_inj.mp
    change (m.timer t).m_ms.toNat = 0
    omega

theorem ExactExpiry.clearCut (stored : Stored [] m) {cbs : List (TimerId × Option γ)}
    (exactly : ExactExpiry m now_ms cbs next)
    (expiry : Expiry m now_ms (m.dueBefore now_ms addr) cbs next) :
    m.ClearCut now_ms addr := by
  intro t inside
  have cut : m.Due now_ms t → t ∈ m.dueBefore now_ms addr := by
    intro due
    rw [← expiry.names]
    exact (exactly.handed t).mpr ⟨inside, due⟩
  constructor
  · intro now
    obtain ⟨-, earlier | ⟨-, lower⟩⟩ := (mem_dueBefore stored t).mp (cut (UInt64.le_of_eq now))
    · rw [now] at earlier
      exact absurd earlier (Nat.lt_irrefl _)
    · exact lower
  · intro due recurring
    have deadline := exactly.rearmed t inside due recurring
    rw [expiry.rearmed (cut due) recurring, UInt64.toNat_add] at deadline
    unfold Fits
    rw [← deadline]
    exact Nat.mod_lt _ (by omega)

/-- Without a rollover `listExpiredCb` is exact exactly when no timer due at this reading lies
at or behind the address of its probe and no recurring one that is due wraps around. -/
theorem listExpiredCb_exact_iff (stored : Stored [] m) (silent : m.rollover now_ms = false) :
    ExactExpiry m now_ms (m.listExpiredCb now_ms addr).1 (m.listExpiredCb now_ms addr).2 ↔
      m.ClearCut now_ms addr := by
  have expiry := listExpiredCb_silent stored silent addr
  exact ⟨fun exactly => exactly.clearCut stored expiry, fun clear => expiry.exact stored clear⟩

/-- Three timers at the addresses 8, 16 and 24, of which the first recurs and is due at 110. -/
def threeTimers : List (TimerOp Nat) :=
  [.addTimer 100 8 10 (some 0) true, .addTimer 100 16 5 (some 1) false,
    .addTimer 100 24 20 (some 2) false]

/-- A probe behind the timer that is due right now. -/
theorem listExpiredCb_exact_two :
    ∃ rets m, Transition.run step (new 100) threeTimers = some (rets, m) ∧
      (m.listExpiredCb 110 12).1 = [(1, some 1), (0, some 0)] ∧
      (m.listExpiredCb 110 12).2.m_timers = [0, 2] ∧
      ExactExpiry m 110 (m.listExpiredCb 110 12).1 (m.listExpiredCb 110 12).2 :=
  ⟨_, _, rfl, by decide, by decide,
    (listExpiredCb_exact_iff
      (run_stored (show Transition.run step (new 100) threeTimers = some (_, _) from rfl))
      (by decide)).mpr (by decide)⟩

/-- A probe in front of that timer: it is not handed out, and `getNextTimer` returns 0. And a
recurring timer whose interval wraps around: it is pending again, and due. -/
theorem listExpiredCb_not_exact :
    (∃ rets m, Transition.run step (new 100) threeTimers = some (rets, m) ∧
      m.rollover 110 = false ∧ (m.timer 0).m_next = 110 ∧
      (m.listExpiredCb 110 4).1 = [(1, some 1)] ∧
      ((m.listExpiredCb 110 4).2.getNextTimer 110).1 = 0 ∧
      ¬ ExactExpiry m 110 (m.listExpiredCb 110 4).1 (m.listExpiredCb 110 4).2) ∧
    ∃ rets m, Transition.run step (new 100)
        [.addTimer 100 8 0xFFFFFFFFFFFFFFFF (some 0) true] = some (rets, m) ∧
      m.rollover 110 = false ∧ (m.listExpiredCb 110 12).1 = [(0, some 0)] ∧
      ((m.listExpiredCb 110 12).2.getNextTimer 110).1 = 0 ∧
      ¬ ExactExpiry m 110 (m.listExpiredCb 110 12).1 (m.listExpiredCb 110 12).2 := by
  refine ⟨⟨_, _, rfl, by decide, by decide, by decide, by decide, ?_⟩,
    ⟨_, _, rfl, by decide, by decide, by decide, ?_⟩⟩
  · intro exactly
    have handed := (exactly.handed 0).mpr (by decide)
    revert handed
    decide
  · intro exactly
    obtain ⟨t, inside, -, -, interval⟩ := exactly.polled (by decide)
    obtain rfl := List.mem_singleton.mp inside
    cases interval

end CorReactor.TimerManager
