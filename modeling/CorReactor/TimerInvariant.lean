import CorReactor.Timer
import Mathlib.Data.List.TakeWhile

set_option autoImplicit false

/-! The set of pending timers and the objects fit together after every operation. -/

namespace CorReactor.TimerManager

variable {γ : Type}

/-! ### The order -/

theorem comparator_iff (a b : Timer γ) :
    Timer.Comparator (some a) (some b) = true ↔
      a.m_next.toNat < b.m_next.toNat ∨ a.m_next.toNat = b.m_next.toNat ∧ a.addr < b.addr := by
  simp only [Timer.Comparator, UInt64.lt_iff_toNat_lt]
  split
  · simp_all
  · split
    · simp only [Bool.false_eq_true, false_iff]
      omega
    · simp only [decide_eq_true_eq]
      omega

theorem before_iff (m : TimerManager γ) (a b : TimerId) :
    m.before a b = true ↔
      (m.timer a).m_next.toNat < (m.timer b).m_next.toNat ∨
        (m.timer a).m_next.toNat = (m.timer b).m_next.toNat ∧
          (m.timer a).addr < (m.timer b).addr :=
  comparator_iff (m.timer a) (m.timer b)

theorem before_irrefl (m : TimerManager γ) (a : TimerId) : m.before a a = false := by
  have never := before_iff m a a
  simp only [Nat.lt_irrefl, and_false, or_false, iff_false] at never
  simpa using never

theorem before_trans (m : TimerManager γ) (a b c : TimerId) (first : m.before a b = true)
    (second : m.before b c = true) : m.before a c = true := by
  rw [before_iff] at *
  omega

/-- Two objects at different addresses are comparable. -/
theorem before_of_apart (m : TimerManager γ) {a b : TimerId}
    (apart : (m.timer a).addr ≠ (m.timer b).addr) :
    m.before a b = true ∨ m.before b a = true := by
  rw [before_iff, before_iff]
  omega

@[simp] theorem setTimer_timer_self (m : TimerManager γ) (t : TimerId) (timer : Timer γ) :
    (m.setTimer t timer).timer t = timer := by
  unfold setTimer
  exact Function.update_self t timer m.timer

theorem setTimer_timer_ne (m : TimerManager γ) {t u : TimerId} (timer : Timer γ) (ne : u ≠ t) :
    (m.setTimer t timer).timer u = m.timer u := by
  unfold setTimer
  exact Function.update_of_ne ne timer m.timer

@[simp] theorem setTimer_m_timers (m : TimerManager γ) (t : TimerId) (timer : Timer γ) :
    (m.setTimer t timer).m_timers = m.m_timers := rfl

@[simp] theorem setTimer_count (m : TimerManager γ) (t : TimerId) (timer : Timer γ) :
    (m.setTimer t timer).count = m.count := rfl

@[simp] theorem insertTimer_timer (m : TimerManager γ) (t : TimerId) :
    (m.insertTimer t).timer = m.timer := rfl

@[simp] theorem insertTimer_count (m : TimerManager γ) (t : TimerId) :
    (m.insertTimer t).count = m.count := rfl

@[simp] theorem eraseTimer_timer (m : TimerManager γ) (t : TimerId) :
    (m.eraseTimer t).timer = m.timer := rfl

@[simp] theorem eraseTimer_count (m : TimerManager γ) (t : TimerId) :
    (m.eraseTimer t).count = m.count := rfl

/-! ### The invariant -/

/-- The set is strictly ordered, and the timers in it and those taken `out` of it for
the moment are different existing objects at different addresses. Only they can still
have a callback. -/
structure Stored (out : List TimerId) (m : TimerManager γ) : Prop where
  sorted : OrderedSet.Sorted m.before m.m_timers
  off : ∀ t ∈ out, t ∉ m.m_timers
  out_nodup : out.Nodup
  created : ∀ t, t ∈ m.m_timers ∨ t ∈ out → t < m.count
  apart : ∀ a b, a ∈ m.m_timers ∨ a ∈ out → b ∈ m.m_timers ∨ b ∈ out →
    (m.timer a).addr = (m.timer b).addr → a = b
  armed : ∀ t, (m.timer t).m_cb.isSome → t ∈ m.m_timers ∨ t ∈ out

theorem new_stored (now : UInt64) : Stored [] (new now : TimerManager γ) where
  sorted := List.Pairwise.nil
  off := fun _ member => absurd member List.not_mem_nil
  out_nodup := List.nodup_nil
  created := by rintro t (member | member) <;> cases member
  apart := by rintro a b (member | member) <;> cases member
  armed := fun _ callable => absurd callable Bool.false_ne_true

namespace Stored

variable {m : TimerManager γ} {out : List TimerId} {t : TimerId}

theorem nodup (stored : Stored out m) : m.m_timers.Nodup :=
  OrderedSet.Sorted.nodup m.before_irrefl stored.sorted

theorem find_eq (stored : Stored out m) (member : t ∈ m.m_timers) :
    OrderedSet.find? m.before m.m_timers t = some t :=
  OrderedSet.find?_of_mem m.before_irrefl stored.sorted member

theorem mem_of_callable (stored : Stored [] m) (callable : (m.timer t).m_cb.isSome) :
    t ∈ m.m_timers :=
  (stored.armed t callable).resolve_right List.not_mem_nil

/-- The flags are not part of the picture. -/
theorem flags (stored : Stored out m) (m_tickled : Bool) (m_previouseTime : UInt64) :
    Stored out { m with m_tickled := m_tickled, m_previouseTime := m_previouseTime } :=
  ⟨stored.sorted, stored.off, stored.out_nodup, stored.created, stored.apart, stored.armed⟩

/-- Objects are changed, their deadline included, only while they are out of the set. -/
theorem setTimer (stored : Stored out m) (member : t ∈ out) {timer : Timer γ}
    (addr : timer.addr = (m.timer t).addr) : Stored out (m.setTimer t timer) := by
  have others : ∀ u ∈ m.m_timers, (m.setTimer t timer).timer u = m.timer u := by
    rintro u inside
    refine setTimer_timer_ne m timer ?_
    rintro rfl
    exact stored.off u member inside
  have addrs : ∀ u, ((m.setTimer t timer).timer u).addr = (m.timer u).addr := by
    intro u
    by_cases same : u = t
    · subst same
      rw [setTimer_timer_self, addr]
    · rw [setTimer_timer_ne m timer same]
  refine ⟨stored.sorted.congr ?_, stored.off, stored.out_nodup, stored.created, ?_, ?_⟩
  · intro a left b right
    unfold before
    rw [others a left, others b right]
  · intro a b left right same
    rw [addrs, addrs] at same
    exact stored.apart a b left right same
  · intro u callable
    by_cases same : u = t
    · subst same
      exact Or.inr member
    · rw [setTimer_timer_ne m timer same] at callable
      exact stored.armed u callable

theorem fresh (stored : Stored (t :: out) m) :
    OrderedSet.Fresh m.before m.m_timers t := by
  intro y member
  refine m.before_of_apart fun same => ?_
  have equal := stored.apart y t (Or.inl member) (Or.inr List.mem_cons_self) same
  subst equal
  exact stored.off y List.mem_cons_self member

theorem mem_insertTimer (stored : Stored (t :: out) m) (u : TimerId) :
    u ∈ (m.insertTimer t).m_timers ↔ u = t ∨ u ∈ m.m_timers :=
  OrderedSet.mem_insert stored.fresh u

theorem insertTimer (stored : Stored (t :: out) m) : Stored out (m.insertTimer t) := by
  have member := stored.mem_insertTimer
  have either : ∀ u, u ∈ (m.insertTimer t).m_timers ∨ u ∈ out ↔
      u ∈ m.m_timers ∨ u ∈ t :: out := by
    intro u
    rw [member, List.mem_cons]
    tauto
  obtain ⟨alone, nodup⟩ := List.nodup_cons.mp stored.out_nodup
  refine ⟨OrderedSet.insert_sorted m.before_trans stored.sorted stored.fresh, ?_, nodup, ?_, ?_, ?_⟩
  · intro u outside inside
    rcases (member u).mp inside with rfl | inside
    · exact alone outside
    · exact stored.off u (List.mem_cons_of_mem t outside) inside
  · intro u present
    exact stored.created u ((either u).mp present)
  · intro a b left right
    exact stored.apart a b ((either a).mp left) ((either b).mp right)
  · intro u callable
    exact (either u).mpr (stored.armed u callable)

/-- A timer without a callback need not go back. -/
theorem discard (stored : Stored (t :: out) m) (spent : (m.timer t).m_cb = none) :
    Stored out m := by
  obtain ⟨-, nodup⟩ := List.nodup_cons.mp stored.out_nodup
  have weaker : ∀ u, u ∈ m.m_timers ∨ u ∈ out → u ∈ m.m_timers ∨ u ∈ t :: out :=
    fun u present => present.imp_right (List.mem_cons_of_mem t)
  refine ⟨stored.sorted, fun u member => stored.off u (List.mem_cons_of_mem t member), nodup,
    fun u present => stored.created u (weaker u present),
    fun a b left right => stored.apart a b (weaker a left) (weaker b right), ?_⟩
  intro u callable
  rcases stored.armed u callable with inside | outside
  · exact Or.inl inside
  · rcases List.mem_cons.mp outside with rfl | outside
    · rw [spent] at callable
      cases callable
    · exact Or.inr outside

/-- Take a part of the set out: what stays keeps its order. -/
theorem takeOut (stored : Stored [] m) {taken left : List TimerId}
    (split : (taken ++ left).Perm m.m_timers) (sub : left.Sublist m.m_timers) :
    Stored taken { m with m_timers := left } := by
  have nodup : (taken ++ left).Nodup := split.nodup_iff.mpr stored.nodup
  have present : ∀ u, u ∈ left ∨ u ∈ taken → u ∈ m.m_timers ∨ u ∈ ([] : List TimerId) := by
    rintro u (inside | outside)
    · exact Or.inl (split.subset (List.mem_append_right _ inside))
    · exact Or.inl (split.subset (List.mem_append_left _ outside))
  refine ⟨stored.sorted.sublist sub, ?_, (List.nodup_append.mp nodup).1,
    fun u here => stored.created u (present u here),
    fun a b here there => stored.apart a b (present a here) (present b there), ?_⟩
  · intro u outside inside
    exact (List.nodup_append.mp nodup).2.2 u outside u inside rfl
  · intro u callable
    rcases List.mem_append.mp (split.symm.subset (stored.mem_of_callable callable)) with
      outside | inside
    · exact Or.inr outside
    · exact Or.inl inside

/-- The front part that `listExpiredCb` cuts off. -/
theorem expiredOut (stored : Stored [] m) (now_ms : UInt64) {expired : List TimerId}
    (front : expired <+: m.m_timers) :
    Stored expired
      { m with m_previouseTime := now_ms, m_timers := m.m_timers.drop expired.length } := by
  obtain ⟨left, split⟩ := front
  have remains : m.m_timers.drop expired.length = left := by
    rw [← split, List.drop_left]
  have perm : (expired ++ left).Perm m.m_timers := by rw [split]
  have sub : left.Sublist m.m_timers := split ▸ List.sublist_append_right expired left
  rw [remains]
  exact (stored.takeOut perm sub).flags m.m_tickled now_ms

theorem eraseTimer (stored : Stored [] m) (member : t ∈ m.m_timers) :
    Stored [t] (m.eraseTimer t) :=
  stored.takeOut (List.perm_cons_erase member).symm List.erase_sublist

end Stored

/-! ### The operations -/

section Operations

variable {m : TimerManager γ} {t : TimerId}

/-- Changing the callback leaves the order alone. -/
theorem before_clear (m : TimerManager γ) (t : TimerId) (cb : Option γ) :
    (m.setTimer t { m.timer t with m_cb := cb }).before = m.before := by
  have keys : ∀ u, (((m.setTimer t { m.timer t with m_cb := cb }).timer u).m_next =
      (m.timer u).m_next) ∧
      (((m.setTimer t { m.timer t with m_cb := cb }).timer u).addr = (m.timer u).addr) := by
    intro u
    by_cases same : u = t
    · subst same
      rw [setTimer_timer_self]
      exact ⟨rfl, rfl⟩
    · rw [setTimer_timer_ne m _ same]
      exact ⟨rfl, rfl⟩
  funext a b
  simp only [before, Timer.Comparator, keys]

theorem cancel_eq (stored : Stored [] m) (t : TimerId) :
    m.cancel t =
      if (m.timer t).m_cb.isSome then
        some (true, (m.eraseTimer t).setTimer t { m.timer t with m_cb := none })
      else some (false, m) := by
  unfold cancel
  split
  · rename_i callable
    have found := stored.find_eq (stored.mem_of_callable callable)
    simp only [before_clear, setTimer_m_timers, found]
    rfl
  · rfl

theorem refresh_eq (stored : Stored [] m) (now : UInt64) (t : TimerId) :
    m.refresh now t =
      if (m.timer t).m_cb.isSome then
        (true, ((m.eraseTimer t).setTimer t
          { m.timer t with m_next := now + (m.timer t).m_ms }).insertTimer t)
      else (false, m) := by
  unfold refresh
  split
  · rename_i callable
    rw [stored.find_eq (stored.mem_of_callable callable)]
    rfl
  · rfl

theorem reset_eq (stored : Stored [] m) (now : UInt64) (t : TimerId) (ms : UInt64)
    (from_now : Bool) :
    m.reset now t ms from_now =
      if ms = (m.timer t).m_ms ∧ from_now = false then (true, m)
      else if (m.timer t).m_cb.isSome then
        (true, ((m.eraseTimer t).setTimer t
          { m.timer t with
            m_ms := ms
            m_next := (if from_now then now else (m.timer t).m_next - (m.timer t).m_ms) + ms }
          ).insertTimer t)
      else (false, m) := by
  unfold reset
  split
  · rfl
  · split
    · rename_i callable
      rw [stored.find_eq (stored.mem_of_callable callable)]
      rfl
    · rfl

/-- Taking a timer out, changing it and putting it back. -/
theorem rearm_stored (stored : Stored [] m) (member : t ∈ m.m_timers) {timer : Timer γ}
    (addr : timer.addr = (m.timer t).addr) :
    Stored [] (((m.eraseTimer t).setTimer t timer).insertTimer t) :=
  (((stored.eraseTimer member).setTimer List.mem_cons_self addr)).insertTimer

theorem mem_rearm (stored : Stored [] m) (member : t ∈ m.m_timers) {timer : Timer γ}
    (addr : timer.addr = (m.timer t).addr) (u : TimerId) :
    u ∈ (((m.eraseTimer t).setTimer t timer).insertTimer t).m_timers ↔ u ∈ m.m_timers := by
  have out : Stored [t] ((m.eraseTimer t).setTimer t timer) :=
    (stored.eraseTimer member).setTimer List.mem_cons_self addr
  rw [out.mem_insertTimer]
  change u = t ∨ u ∈ m.m_timers.erase t ↔ _
  rw [stored.nodup.mem_erase_iff]
  constructor
  · rintro (rfl | ⟨-, inside⟩)
    · exact member
    · exact inside
  · intro inside
    by_cases same : u = t
    · exact Or.inl same
    · exact Or.inr ⟨same, inside⟩

theorem cancel_stored (stored : Stored [] m) (callable : (m.timer t).m_cb.isSome) :
    Stored [] ((m.eraseTimer t).setTimer t { m.timer t with m_cb := none }) := by
  have member := stored.mem_of_callable callable
  have out : Stored [t] ((m.eraseTimer t).setTimer t { m.timer t with m_cb := none }) :=
    (stored.eraseTimer member).setTimer List.mem_cons_self rfl
  exact out.discard (by rw [setTimer_timer_self])

theorem addTimer_out (stored : Stored [] m) {addr : Nat} (free : m.addrFree addr = true)
    (now ms : UInt64) (cb : Option γ) (recurring : Bool) :
    Stored [m.count]
      { m.setTimer m.count (Timer.new addr now ms cb recurring) with count := m.count + 1 } := by
  have lower : ∀ u ∈ m.m_timers, u < m.count := fun u inside => stored.created u (Or.inl inside)
  have others : ∀ u ∈ m.m_timers,
      (m.setTimer m.count (Timer.new addr now ms cb recurring)).timer u = m.timer u :=
    fun u inside => setTimer_timer_ne m _ (Nat.ne_of_lt (lower u inside))
  have free_of : ∀ u ∈ m.m_timers, (m.timer u).addr ≠ addr := by
    simpa only [addrFree, List.all_eq_true, decide_eq_true_eq] using free
  refine ⟨stored.sorted.congr ?_, ?_, List.nodup_singleton _, ?_, ?_, ?_⟩
  · intro a left b right
    change Timer.Comparator (some ((m.setTimer _ _).timer a)) (some ((m.setTimer _ _).timer b)) = _
    rw [others a left, others b right]
    rfl
  · intro u new inside
    rw [List.mem_singleton.mp new] at inside
    exact Nat.lt_irrefl _ (lower _ inside)
  · rintro u (inside | new)
    · exact Nat.lt_succ_of_lt (lower u inside)
    · rw [List.mem_singleton.mp new]
      exact Nat.lt_succ_self _
  · have self : ((m.setTimer m.count (Timer.new addr now ms cb recurring)).timer m.count).addr =
        addr := by
      rw [setTimer_timer_self]
      rfl
    rintro a b (left | left) (right | right) same
    · change ((m.setTimer _ _).timer a).addr = ((m.setTimer _ _).timer b).addr at same
      rw [others a left, others b right] at same
      exact stored.apart a b (Or.inl left) (Or.inl right) same
    · obtain rfl := List.mem_singleton.mp right
      change ((m.setTimer _ _).timer a).addr = ((m.setTimer _ _).timer m.count).addr at same
      rw [others a left, self] at same
      exact absurd same (free_of a left)
    · obtain rfl := List.mem_singleton.mp left
      change ((m.setTimer _ _).timer m.count).addr = ((m.setTimer _ _).timer b).addr at same
      rw [others b right, self] at same
      exact absurd same.symm (free_of b right)
    · rw [List.mem_singleton.mp left, List.mem_singleton.mp right]
  · intro u callable
    by_cases new : u = m.count
    · exact Or.inr (List.mem_singleton.mpr new)
    · change ((m.setTimer _ _).timer u).m_cb.isSome at callable
      rw [setTimer_timer_ne m _ new] at callable
      exact Or.inl (stored.mem_of_callable callable)

theorem addTimer_stored (stored : Stored [] m) {addr : Nat} (free : m.addrFree addr = true)
    (now ms : UInt64) (cb : Option γ) (recurring : Bool) :
    Stored [] (m.addTimer now addr ms cb recurring).2 := by
  have inserted := (addTimer_out stored free now ms cb recurring).insertTimer
  unfold addTimer
  dsimp only
  split
  · exact inserted.flags true m.m_previouseTime
  · exact inserted

theorem addTimer_timer (m : TimerManager γ) (now : UInt64) (addr : Nat) (ms : UInt64)
    (cb : Option γ) (recurring : Bool) :
    (m.addTimer now addr ms cb recurring).2.timer =
      Function.update m.timer m.count (Timer.new addr now ms cb recurring) := by
  unfold addTimer
  dsimp only
  split <;> rfl

theorem addTimer_count (m : TimerManager γ) (now : UInt64) (addr : Nat) (ms : UInt64)
    (cb : Option γ) (recurring : Bool) :
    (m.addTimer now addr ms cb recurring).2.count = m.count + 1 := by
  unfold addTimer
  dsimp only
  split <;> rfl

theorem mem_addTimer (stored : Stored [] m) {addr : Nat} (free : m.addrFree addr = true)
    (now ms : UInt64) (cb : Option γ) (recurring : Bool) (u : TimerId) :
    u ∈ (m.addTimer now addr ms cb recurring).2.m_timers ↔ u = m.count ∨ u ∈ m.m_timers := by
  have member := (addTimer_out stored free now ms cb recurring).mem_insertTimer u
  unfold addTimer
  dsimp only
  split <;> exact member

end Operations

/-! ### Expiry -/

section Expiry

variable {m : TimerManager γ} {t : TimerId} {rest expired : List TimerId}

/-- The object as the loop of `listExpiredCb` leaves it. -/
def expiredTimer (now_ms : UInt64) (timer : Timer γ) : Timer γ :=
  if timer.m_recurring then { timer with m_next := now_ms + timer.m_ms }
  else { timer with m_cb := none }

theorem expireTimer_timer (m : TimerManager γ) (now_ms : UInt64) (t : TimerId) :
    (m.expireTimer now_ms t).timer =
      Function.update m.timer t (expiredTimer now_ms (m.timer t)) := by
  unfold expireTimer expiredTimer
  dsimp only
  split <;> rfl

theorem expireTimer_timer_ne (m : TimerManager γ) (now_ms : UInt64) {t u : TimerId}
    (ne : u ≠ t) : (m.expireTimer now_ms t).timer u = m.timer u := by
  rw [expireTimer_timer]
  exact Function.update_of_ne ne _ m.timer

theorem expireTimer_count (m : TimerManager γ) (now_ms : UInt64) (t : TimerId) :
    (m.expireTimer now_ms t).count = m.count := by
  unfold expireTimer
  dsimp only
  split <;> rfl

theorem expireTimer_stored (stored : Stored (t :: rest) m) (now_ms : UInt64) :
    Stored rest (m.expireTimer now_ms t) := by
  unfold expireTimer
  dsimp only
  split
  · have out : Stored (t :: rest)
        (m.setTimer t { m.timer t with m_next := now_ms + (m.timer t).m_ms }) :=
      stored.setTimer List.mem_cons_self rfl
    exact out.insertTimer
  · refine Stored.discard (stored.setTimer List.mem_cons_self rfl) ?_
    rw [setTimer_timer_self]

theorem mem_expireTimer (stored : Stored (t :: rest) m) (now_ms : UInt64) (u : TimerId) :
    u ∈ (m.expireTimer now_ms t).m_timers ↔
      u ∈ m.m_timers ∨ u = t ∧ (m.timer t).m_recurring = true := by
  unfold expireTimer
  dsimp only
  split
  · rename_i recurring
    have out : Stored (t :: rest)
        (m.setTimer t { m.timer t with m_next := now_ms + (m.timer t).m_ms }) :=
      stored.setTimer List.mem_cons_self rfl
    rw [out.mem_insertTimer, setTimer_m_timers]
    tauto
  · rename_i once
    rw [setTimer_m_timers]
    tauto

theorem collect_cons (m : TimerManager γ) (now_ms : UInt64) (t : TimerId) (rest : List TimerId) :
    collect now_ms (t :: rest) m =
      ((t, (m.timer t).m_cb) :: (collect now_ms rest (m.expireTimer now_ms t)).1,
        (collect now_ms rest (m.expireTimer now_ms t)).2) := rfl

theorem collect_count (now_ms : UInt64) (expired : List TimerId) (m : TimerManager γ) :
    (collect now_ms expired m).2.count = m.count := by
  induction expired generalizing m with
  | nil => rfl
  | cons t rest ih =>
      rw [collect_cons, ih, expireTimer_count]

theorem collect_stored (now_ms : UInt64) (stored : Stored expired m) :
    Stored [] (collect now_ms expired m).2 := by
  induction expired generalizing m with
  | nil => exact stored
  | cons t rest ih => exact ih (expireTimer_stored stored now_ms)

/-- Every expired timer is handed out with the callback it had on entry. -/
theorem collect_handouts (now_ms : UInt64) (nodup : expired.Nodup) :
    (collect now_ms expired m).1 = expired.map fun t => (t, (m.timer t).m_cb) := by
  induction expired generalizing m with
  | nil => rfl
  | cons t rest ih =>
      obtain ⟨alone, nodup⟩ := List.nodup_cons.mp nodup
      have unchanged : ∀ u ∈ rest, (u, ((m.expireTimer now_ms t).timer u).m_cb) =
          (u, (m.timer u).m_cb) := by
        intro u member
        have ne : u ≠ t := fun same => alone (same ▸ member)
        rw [expireTimer_timer_ne m now_ms ne]
      rw [collect_cons, List.map_cons, ih nodup]
      exact congrArg _ (List.map_congr_left unchanged)

theorem collect_timer (now_ms : UInt64) (nodup : expired.Nodup) (u : TimerId) :
    (collect now_ms expired m).2.timer u =
      if u ∈ expired then expiredTimer now_ms (m.timer u) else m.timer u := by
  induction expired generalizing m with
  | nil => rfl
  | cons t rest ih =>
      obtain ⟨alone, nodup⟩ := List.nodup_cons.mp nodup
      rw [collect_cons, ih nodup]
      by_cases same : u = t
      · subst same
        rw [if_neg alone, if_pos List.mem_cons_self, expireTimer_timer]
        exact Function.update_self u _ m.timer
      · rw [expireTimer_timer_ne m now_ms same]
        simp only [List.mem_cons, same, false_or]

theorem mem_collect (now_ms : UInt64) (stored : Stored expired m) (u : TimerId) :
    u ∈ (collect now_ms expired m).2.m_timers ↔
      u ∈ m.m_timers ∨ u ∈ expired ∧ (m.timer u).m_recurring = true := by
  induction expired generalizing m with
  | nil =>
      change u ∈ m.m_timers ↔ _
      simp only [List.not_mem_nil, false_and, or_false]
  | cons t rest ih =>
      obtain ⟨alone, -⟩ := List.nodup_cons.mp stored.out_nodup
      rw [collect_cons, ih (expireTimer_stored stored now_ms), mem_expireTimer stored]
      by_cases same : u = t
      · subst same
        simp only [alone, false_and, or_false, true_and, List.mem_cons]
      · rw [expireTimer_timer_ne m now_ms same]
        simp only [same, false_and, or_false, List.mem_cons, false_or]

end Expiry

/-! ### Every step -/

/-- What `listExpiredCb` does: it hands out a front part of the set, all of it where the
rollover detector fires and else only timers whose deadline has come. -/
structure Expiry (m : TimerManager γ) (now_ms : UInt64) (expired : List TimerId)
    (cbs : List (TimerId × Option γ)) (next : TimerManager γ) : Prop where
  front : expired <+: m.m_timers
  due : m.rollover now_ms = false → ∀ t ∈ expired, (m.timer t).m_next ≤ now_ms
  cbs : cbs = expired.map fun t => (t, (m.timer t).m_cb)
  count : next.count = m.count
  timer : ∀ u, next.timer u =
    if u ∈ expired then expiredTimer now_ms (m.timer u) else m.timer u
  mem : ∀ u, u ∈ next.m_timers ↔
    u ∈ m.m_timers ∧ (u ∈ expired → (m.timer u).m_recurring = true)
  stored : Stored [] next

theorem dueBefore_due (m : TimerManager γ) (now_ms : UInt64) (addr : Nat) {t : TimerId}
    (member : t ∈ m.dueBefore now_ms addr) : (m.timer t).m_next ≤ now_ms := by
  have cut := List.mem_takeWhile_imp member
  have before := (comparator_iff (m.timer t) { addr := addr, m_next := now_ms }).mp cut
  rw [UInt64.le_iff_toNat_le]
  dsimp only at before
  omega

theorem Expiry.nothing {m : TimerManager γ} (stored : Stored [] m) (now_ms : UInt64)
    (m_previouseTime : UInt64) :
    Expiry m now_ms [] [] { m with m_previouseTime := m_previouseTime } where
  front := List.nil_prefix
  due := fun _ _ member => absurd member List.not_mem_nil
  cbs := rfl
  count := rfl
  timer := fun _ => rfl
  mem := fun _ => ⟨fun inside => ⟨inside, fun member => absurd member List.not_mem_nil⟩, And.left⟩
  stored := stored.flags m.m_tickled m_previouseTime

theorem Expiry.names {m next : TimerManager γ} {now_ms : UInt64} {expired : List TimerId}
    {cbs : List (TimerId × Option γ)} (expiry : Expiry m now_ms expired cbs next) :
    cbs.map Prod.fst = expired := by
  rw [expiry.cbs, List.map_map]
  exact List.map_id expired

theorem Expiry.collect {m : TimerManager γ} (stored : Stored [] m) {now_ms : UInt64}
    {expired : List TimerId} (front : expired <+: m.m_timers)
    (due : m.rollover now_ms = false → ∀ t ∈ expired, (m.timer t).m_next ≤ now_ms) :
    Expiry m now_ms expired
      (collect now_ms expired
        { m with m_previouseTime := now_ms, m_timers := m.m_timers.drop expired.length }).1
      (collect now_ms expired
        { m with m_previouseTime := now_ms, m_timers := m.m_timers.drop expired.length }).2 := by
  have out := stored.expiredOut now_ms front
  refine ⟨front, due, collect_handouts now_ms out.out_nodup, collect_count now_ms expired _,
    collect_timer now_ms out.out_nodup, ?_, collect_stored now_ms out⟩
  intro u
  have off : u ∈ expired → u ∉ m.m_timers.drop expired.length := out.off u
  have whole : u ∈ m.m_timers ↔ u ∈ expired ∨ u ∈ m.m_timers.drop expired.length := by
    obtain ⟨left, split⟩ := front
    rw [← split, List.drop_left, List.mem_append]
  rw [mem_collect now_ms out, whole]
  change u ∈ m.m_timers.drop expired.length ∨ u ∈ expired ∧ (m.timer u).m_recurring = true ↔ _
  tauto

/-- `listExpiredCb` returns early or cuts off a front part of the set. -/
theorem listExpiredCb_cases (m : TimerManager γ) (now_ms : UInt64) (addr : Nat) :
    (∃ m_previouseTime, m.listExpiredCb now_ms addr =
      ([], { m with m_previouseTime := m_previouseTime })) ∨
    ∃ expired, expired <+: m.m_timers ∧
      (m.rollover now_ms = false → ∀ t ∈ expired, (m.timer t).m_next ≤ now_ms) ∧
      m.listExpiredCb now_ms addr = collect now_ms expired
        { m with m_previouseTime := now_ms, m_timers := m.m_timers.drop expired.length } := by
  unfold listExpiredCb
  split
  · exact Or.inl ⟨m.m_previouseTime, rfl⟩
  · simp only [detectClockRollover]
    by_cases fired : m.rollover now_ms = true
    · simp only [fired, Bool.not_true, Bool.false_and, Bool.false_eq_true, ↓reduceIte]
      refine Or.inr ⟨m.m_timers, List.prefix_rfl, ?_, rfl⟩
      intro silent
      cases silent
    · rw [Bool.not_eq_true] at fired
      simp only [fired, Bool.not_false, Bool.true_and, Bool.false_eq_true, ↓reduceIte]
      split
      · exact Or.inl ⟨now_ms, rfl⟩
      · exact Or.inr ⟨m.dueBefore now_ms addr, List.takeWhile_prefix _,
          fun _ t => m.dueBefore_due now_ms addr, rfl⟩

theorem listExpiredCb_expiry {m : TimerManager γ} (stored : Stored [] m) (now_ms : UInt64)
    (addr : Nat) :
    ∃ expired, Expiry m now_ms expired (m.listExpiredCb now_ms addr).1
      (m.listExpiredCb now_ms addr).2 := by
  rcases m.listExpiredCb_cases now_ms addr with ⟨previous, early⟩ | ⟨expired, front, due, cut⟩
  · rw [early]
    exact ⟨[], Expiry.nothing stored now_ms previous⟩
  · rw [cut]
    exact ⟨expired, Expiry.collect stored front due⟩

/-- What a completed operation does to the objects and to the membership. -/
inductive Effect (m : TimerManager γ) : TimerOp γ → TimerRet γ → TimerManager γ → Prop
  | added {now : UInt64} {addr : Nat} {ms : UInt64} {cb : Option γ} {recurring at_front : Bool}
      {next : TimerManager γ}
      (timer : next.timer = Function.update m.timer m.count (Timer.new addr now ms cb recurring))
      (count : next.count = m.count + 1)
      (mem : ∀ u, u ∈ next.m_timers ↔ u = m.count ∨ u ∈ m.m_timers) :
      Effect m (.addTimer now addr ms cb recurring) (.added m.count at_front) next
  | cancelled {t : TimerId} {next : TimerManager γ} (callable : (m.timer t).m_cb.isSome)
      (timer : next.timer = Function.update m.timer t { m.timer t with m_cb := none })
      (count : next.count = m.count)
      (mem : ∀ u, u ∈ next.m_timers ↔ u ∈ m.m_timers ∧ u ≠ t) :
      Effect m (.cancel t) (.cancelled t true) next
  | cancelSpent {t : TimerId} : Effect m (.cancel t) (.cancelled t false) m
  | refreshed {now : UInt64} {t : TimerId} {next : TimerManager γ}
      (callable : (m.timer t).m_cb.isSome)
      (timer : next.timer =
        Function.update m.timer t { m.timer t with m_next := now + (m.timer t).m_ms })
      (count : next.count = m.count)
      (mem : ∀ u, u ∈ next.m_timers ↔ u ∈ m.m_timers) :
      Effect m (.refresh now t) (.refreshed t true) next
  | refreshSpent {now : UInt64} {t : TimerId} : Effect m (.refresh now t) (.refreshed t false) m
  | resetDone {now : UInt64} {t : TimerId} {ms : UInt64} {from_now : Bool} {next : TimerManager γ}
      (callable : (m.timer t).m_cb.isSome)
      (timer : next.timer = Function.update m.timer t
        { m.timer t with
          m_ms := ms
          m_next := (if from_now then now else (m.timer t).m_next - (m.timer t).m_ms) + ms })
      (count : next.count = m.count)
      (mem : ∀ u, u ∈ next.m_timers ↔ u ∈ m.m_timers) :
      Effect m (.reset now t ms from_now) (.reset t true) next
  | resetSame {now : UInt64} {t : TimerId} (old : t < m.count) :
      Effect m (.reset now t (m.timer t).m_ms false) (.reset t true) m
  | resetSpent {now : UInt64} {t : TimerId} {ms : UInt64} {from_now : Bool} :
      Effect m (.reset now t ms from_now) (.reset t false) m
  | expired {now : UInt64} {addr : Nat} {expired : List TimerId}
      {cbs : List (TimerId × Option γ)} {next : TimerManager γ}
      (expiry : Expiry m now expired cbs next) :
      Effect m (.listExpiredCb now addr) (.expired cbs) next
  | next {now ms : UInt64} {next : TimerManager γ} (timer : next.timer = m.timer)
      (count : next.count = m.count) (mem : ∀ u, u ∈ next.m_timers ↔ u ∈ m.m_timers) :
      Effect m (.getNextTimer now) (.next ms) next

theorem getNextTimer_state (m : TimerManager γ) (now_ms : UInt64) :
    (m.getNextTimer now_ms).2 = { m with m_tickled := false } := by
  unfold getNextTimer
  dsimp only
  split
  · rfl
  · split <;> rfl

/-- Every operation keeps the invariant and has its effect on the objects. -/
theorem step_effect {m next : TimerManager γ} {op : TimerOp γ} {ret : TimerRet γ}
    (stored : Stored [] m) (taken : m.step op = some (ret, next)) :
    Stored [] next ∧ Effect m op ret next := by
  cases op with
  | addTimer now addr ms cb recurring =>
      simp only [step] at taken
      split at taken
      · rename_i free
        cases taken
        exact ⟨addTimer_stored stored free now ms cb recurring,
          .added (m.addTimer_timer now addr ms cb recurring)
            (m.addTimer_count now addr ms cb recurring)
            (mem_addTimer stored free now ms cb recurring)⟩
      · cases taken
  | cancel t =>
      simp only [step, cancel_eq stored] at taken
      split at taken
      · split at taken
        · rename_i callable
          cases taken
          refine ⟨cancel_stored stored callable, .cancelled callable rfl rfl ?_⟩
          intro u
          rw [And.comm]
          exact stored.nodup.mem_erase_iff
        · cases taken
          exact ⟨stored, .cancelSpent⟩
      · cases taken
  | refresh now t =>
      simp only [step, refresh_eq stored] at taken
      split at taken
      · split at taken
        · rename_i callable
          have member := stored.mem_of_callable callable
          cases taken
          exact ⟨rearm_stored stored member rfl,
            .refreshed callable rfl rfl (mem_rearm stored member rfl)⟩
        · cases taken
          exact ⟨stored, .refreshSpent⟩
      · cases taken
  | reset now t ms from_now =>
      simp only [step, reset_eq stored] at taken
      split at taken
      · rename_i old
        split at taken
        · rename_i same
          obtain ⟨rfl, rfl⟩ := same
          cases taken
          exact ⟨stored, .resetSame old⟩
        · split at taken
          · rename_i callable
            have member := stored.mem_of_callable callable
            cases taken
            exact ⟨rearm_stored stored member rfl,
              .resetDone callable rfl rfl (mem_rearm stored member rfl)⟩
          · cases taken
            exact ⟨stored, .resetSpent⟩
      · cases taken
  | listExpiredCb now addr =>
      obtain ⟨expired, expiry⟩ := listExpiredCb_expiry stored now addr
      cases taken
      exact ⟨expiry.stored, .expired expiry⟩
  | getNextTimer now =>
      simp only [step, getNextTimer_state] at taken
      cases taken
      exact ⟨stored.flags false m.m_previouseTime, .next rfl rfl fun _ => Iff.rfl⟩

theorem run_stored {now : UInt64} {ops : List (TimerOp γ)} {rets : List (TimerRet γ)}
    {m : TimerManager γ} (taken : Transition.run step (new now) ops = some (rets, m)) :
    Stored [] m :=
  Transition.Reachable.invariant (fun _ _ _ _ stored done => (step_effect stored done).1)
    (new_stored now) ⟨ops, rets, taken⟩

end CorReactor.TimerManager
