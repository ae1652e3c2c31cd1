import CorReactor.IOManager
import Mathlib.Tactic.Tauto

set_option autoImplicit false

/-! What each operation of the manager does to the context of each descriptor. -/

namespace CorReactor

variable {β : Type}

/-! ### Event bits -/

namespace FdContext

/-- The event's bit is set. -/
def Has (fd_ctx : FdContext β) (event : Event) : Prop := fd_ctx.m_events &&& event.bits ≠ 0

instance (fd_ctx : FdContext β) (event : Event) : Decidable (fd_ctx.Has event) :=
  inferInstanceAs (Decidable (_ ≠ _))

def context (fd_ctx : FdContext β) : Event → EventContext β
  | .READ => fd_ctx.read
  | .WRITE => fd_ctx.write
  | .NONE => {}

end FdContext

theorem Event.bits_and (e e' : Event) :
    e.bits &&& e'.bits = if e = e' then e.bits else 0 := by
  cases e <;> cases e' <;> decide

theorem Event.not_bits_and (e e' : Event) :
    ~~~e.bits &&& e'.bits = if e = e' then 0 else e'.bits := by
  cases e <;> cases e' <;> decide

theorem Event.bits_ne_zero {e : Event} (real : e ≠ .NONE) : e.bits ≠ 0 := by
  cases e
  · exact absurd rfl real
  · decide
  · decide

theorem FdContext.Has.real {fd_ctx : FdContext β} {e : Event} (has : fd_ctx.Has e) : e ≠ .NONE := by
  rintro rfl
  exact has (BitVec.and_zero)

/-- Clearing the bit of one event leaves the other. -/
theorem and_not_and (events : BitVec 32) (e e' : Event) :
    (events &&& ~~~e.bits) &&& e'.bits = if e = e' then 0 else events &&& e'.bits := by
  rw [BitVec.and_assoc, Event.not_bits_and]
  split
  · exact BitVec.and_zero
  · rfl

/-- Setting the bit of one event leaves the other. -/
theorem or_and_ne_zero (events : BitVec 32) {e e' : Event} (real : e ≠ .NONE) :
    (events ||| e.bits) &&& e'.bits ≠ 0 ↔ e' = e ∨ events &&& e'.bits ≠ 0 := by
  rw [BitVec.and_or_distrib_right, Event.bits_and]
  by_cases same : e = e'
  · subst same
    simp only [↓reduceIte, true_or, iff_true]
    intro zero
    exact Event.bits_ne_zero real (BitVec.or_eq_zero_iff.mp zero).2
  · have zero : events &&& e'.bits ||| 0 = events &&& e'.bits := BitVec.or_zero
    rw [if_neg same, zero]
    simp only [Ne.symm same, false_or]

/-- No bits but those of the two events. -/
def FdContext.Clean (fd_ctx : FdContext β) : Prop :=
  fd_ctx.m_events &&& ~~~(Event.READ.bits ||| Event.WRITE.bits) = 0

/-! ### What the kernel reports -/

/-- The reported mask stands for the event: its own bit, an error or a hang-up. -/
def Reports (events : BitVec 32) : Event → Prop
  | .READ => events &&& (EPOLLIN ||| EPOLLERR ||| EPOLLHUP) ≠ 0
  | .WRITE => events &&& (EPOLLOUT ||| EPOLLERR ||| EPOLLHUP) ≠ 0
  | .NONE => False

instance (events : BitVec 32) : (e : Event) → Decidable (Reports events e)
  | .READ => inferInstanceAs (Decidable (_ ≠ _))
  | .WRITE => inferInstanceAs (Decidable (_ ≠ _))
  | .NONE => inferInstanceAs (Decidable False)

theorem and_or_ne_zero (events x y z : BitVec 32) :
    events &&& (x ||| y ||| z) ≠ 0 ↔ events &&& x ≠ 0 ∨ events &&& (y ||| z) ≠ 0 := by
  have whole : events &&& (x ||| y ||| z) = 0 ↔ events &&& x = 0 ∧ events &&& (y ||| z) = 0 := by
    rw [BitVec.or_assoc, BitVec.and_or_distrib_left]
    exact BitVec.or_eq_zero_iff
  rw [Ne, whole]
  tauto

theorem realEvents_eq (events : BitVec 32) :
    IOManager.realEvents events =
      (if Reports events .READ then Event.READ.bits else 0) |||
        (if Reports events .WRITE then Event.WRITE.bits else 0) := by
  have read := and_or_ne_zero events EPOLLIN EPOLLERR EPOLLHUP
  have write := and_or_ne_zero events EPOLLOUT EPOLLERR EPOLLHUP
  unfold IOManager.realEvents
  by_cases broken : events &&& (EPOLLERR ||| EPOLLHUP) ≠ 0
  · have widened : ∀ bit : BitVec 32, (EPOLLIN ||| EPOLLOUT) &&& bit ≠ 0 →
        (events ||| (EPOLLIN ||| EPOLLOUT)) &&& bit ≠ 0 := by
      intro bit inside zero
      rw [BitVec.and_or_distrib_right] at zero
      exact inside (BitVec.or_eq_zero_iff.mp zero).2
    have both : Reports events .READ ∧ Reports events .WRITE :=
      ⟨read.mpr (Or.inr broken), write.mpr (Or.inr broken)⟩
    rw [if_pos broken, if_pos both.1, if_pos both.2]
    dsimp only
    rw [if_pos (widened EPOLLIN (by decide)), if_pos (widened EPOLLOUT (by decide))]
    decide
  · have in_iff : Reports events .READ ↔ events &&& EPOLLIN ≠ 0 := by
      rw [Reports, read, or_iff_left broken]
    have out_iff : Reports events .WRITE ↔ events &&& EPOLLOUT ≠ 0 := by
      rw [Reports, write, or_iff_left broken]
    rw [if_neg broken]
    simp only [in_iff, out_iff]
    split <;> split <;> rfl

theorem realEvents_has (events : BitVec 32) (e : Event) :
    IOManager.realEvents events &&& e.bits ≠ 0 ↔ Reports events e := by
  rw [realEvents_eq]
  cases e with
  | NONE =>
      simp only [Reports, iff_false]
      exact fun none => none BitVec.and_zero
  | READ | WRITE =>
      by_cases read : Reports events .READ <;> by_cases write : Reports events .WRITE <;>
        simp only [read, write, ↓reduceIte, iff_true, iff_false] <;> decide

/-- Some registered event is reported. -/
theorem and_realEvents (fd_ctx : FdContext β) (events : BitVec 32) :
    fd_ctx.m_events &&& IOManager.realEvents events = 0 ↔
      ∀ e, fd_ctx.Has e → ¬ Reports events e := by
  have part : ∀ e : Event, fd_ctx.m_events &&& (if Reports events e then e.bits else 0) = 0 ↔
      (fd_ctx.Has e → ¬ Reports events e) := by
    intro e
    by_cases reported : Reports events e
    · simp only [reported, ↓reduceIte, not_true_eq_false, imp_false, FdContext.Has, ne_eq,
        Decidable.not_not]
    · have zero : fd_ctx.m_events &&& 0 = 0 := BitVec.and_zero
      simp only [reported, ↓reduceIte, zero, not_false_eq_true, implies_true]
  have whole : fd_ctx.m_events &&& IOManager.realEvents events = 0 ↔
      (fd_ctx.Has .READ → ¬ Reports events .READ) ∧
        (fd_ctx.Has .WRITE → ¬ Reports events .WRITE) := by
    rw [realEvents_eq, BitVec.and_or_distrib_left, ← part .READ, ← part .WRITE]
    exact BitVec.or_eq_zero_iff
  rw [whole]
  constructor
  · rintro ⟨read, write⟩ e has
    cases e with
    | NONE => exact absurd rfl has.real
    | READ => exact read has
    | WRITE => exact write has
  · intro all
    exact ⟨all .READ, all .WRITE⟩

/-! ### Contexts by descriptor -/

namespace IOManager

variable {m next : IOManager β}

/-- The context of a descriptor; past the end of the vector, the fresh one that growing
would put there. -/
def slot (m : IOManager β) (fd : Nat) : FdContext β := (m.m_fdContexts[fd]?).getD { fd := fd }

theorem slot_of_get {fd : Nat} {fd_ctx : FdContext β} (found : m.m_fdContexts[fd]? = some fd_ctx) :
    m.slot fd = fd_ctx := by
  rw [slot, found, Option.getD_some]

theorem slot_of_le {fd : Nat} (outside : m.m_fdContexts.length ≤ fd) :
    m.slot fd = { fd := fd } := by
  rw [slot, List.getElem?_eq_none outside, Option.getD_none]

theorem slot_store {fd : Nat} (inside : fd < m.m_fdContexts.length) (fd_ctx : FdContext β) :
    (m.store fd fd_ctx).slot = Function.update m.slot fd fd_ctx := by
  funext i
  rw [Function.update_apply]
  unfold slot store
  dsimp only
  rw [List.getElem?_set]
  by_cases same : fd = i
  · subst same
    simp only [↓reduceIte, inside, Option.getD_some]
  · rw [if_neg same, if_neg (Ne.symm same)]

theorem contextResize_length (m : IOManager β) (size : Nat) :
    (m.contextResize size).m_fdContexts.length = size := by
  simp only [contextResize, List.length_append, List.length_take, List.length_map,
    List.length_range']
  omega

/-- Growing the vector changes no context. -/
theorem slot_contextResize {size : Nat} (larger : m.m_fdContexts.length ≤ size) :
    (m.contextResize size).slot = m.slot := by
  funext i
  unfold slot contextResize
  dsimp only
  rw [List.take_of_length_le larger]
  by_cases old : i < m.m_fdContexts.length
  · rw [List.getElem?_append_left old]
  · have past : m.m_fdContexts.length ≤ i := Nat.le_of_not_lt old
    rw [List.getElem?_append_right past, List.getElem?_eq_none past, List.getElem?_map]
    by_cases new : i - m.m_fdContexts.length < size - m.m_fdContexts.length
    · have position : m.m_fdContexts.length + 1 * (i - m.m_fdContexts.length) = i := by omega
      rw [List.getElem?_range' new, Option.map_some, Option.getD_some, Option.getD_none, position]
    · rw [List.getElem?_eq_none, Option.map_none]
      rw [List.length_range']
      omega

theorem slot_new (fd : Nat) : (new : IOManager β).slot fd = { fd := fd } := by
  unfold new
  rw [slot_contextResize (Nat.zero_le 32)]
  exact slot_of_le (Nat.zero_le fd)

theorem contextAt_ok {fd : Int} {fd_ctx : FdContext β} (found : m.contextAt fd = .ok fd_ctx) :
    fd.toNat < m.m_fdContexts.length ∧ m.slot fd.toNat = fd_ctx := by
  unfold contextAt at found
  split at found
  · cases found
  · split at found
    · cases found
    · rename_i inside
      cases found
      exact ⟨(List.getElem?_eq_some_iff.mp inside).1, slot_of_get inside⟩

/-- The loop of `addEvent` ends with a context inside the vector. -/
theorem findContext_ok {fd : Int} {fd_ctx : FdContext β}
    (found : m.findContext fd = .ok (fd_ctx, next)) :
    fd.toNat < next.m_fdContexts.length ∧ fd_ctx = m.slot fd.toNat ∧ next.slot = m.slot ∧
      next.interest = m.interest ∧ next.m_pendingEventCount = m.m_pendingEventCount := by
  have finish : ∀ n : IOManager β, (n.contextAt fd).map (fun c => (c, n)) = .ok (fd_ctx, next) →
      next = n ∧ fd.toNat < n.m_fdContexts.length ∧ fd_ctx = n.slot fd.toNat := by
    intro n done
    cases at_fd : n.contextAt fd with
    | error fault =>
        rw [at_fd] at done
        cases done
    | ok c =>
        rw [at_fd] at done
        cases done
        have inside := contextAt_ok at_fd
        exact ⟨rfl, inside.1, inside.2.symm⟩
  unfold findContext at found
  split at found
  · obtain ⟨rfl, inside, same⟩ := finish m found
    exact ⟨inside, same, rfl, rfl, rfl⟩
  · split at found
    · cases found
    · dsimp only at found
      split at found
      · have larger : m.m_fdContexts.length ≤ (fd * 2).toNat := by omega
        obtain ⟨rfl, inside, same⟩ := finish _ found
        rw [slot_contextResize larger] at same ⊢
        exact ⟨inside, same, rfl, rfl, rfl⟩
      · cases found

theorem epoll_ctl_some {op : EpollOp} {fd : Nat} {events : BitVec 32} {granted : Bool}
    (done : m.epoll_ctl op fd events granted = some next) :
    m.epoll_ctl_ok op fd granted = true ∧ next.m_fdContexts = m.m_fdContexts ∧
      next.m_pendingEventCount = m.m_pendingEventCount := by
  unfold epoll_ctl at done
  split at done
  · rename_i ok
    cases done
    exact ⟨ok, rfl, rfl⟩
  · cases done

theorem epoll_ctl_none {op : EpollOp} {fd : Nat} {events : BitVec 32} {granted : Bool} :
    m.epoll_ctl op fd events granted = none ↔ m.epoll_ctl_ok op fd granted = false := by
  unfold epoll_ctl
  split
  · rename_i ok
    simp only [reduceCtorEq, ok, Bool.true_eq_false]
  · rename_i refused
    simp only [Bool.not_eq_true] at refused
    simp only [refused]

theorem epoll_ctl_ok_congr (same : next.interest = m.interest) :
    next.epoll_ctl_ok = m.epoll_ctl_ok := by
  funext op fd granted
  unfold epoll_ctl_ok
  rw [same]

/-- The kernel takes `MOD` where it takes `DEL`. -/
theorem epoll_ctl_ok_left (m : IOManager β) (left : BitVec 32) (fd : Nat) (granted : Bool) :
    m.epoll_ctl_ok (if left ≠ 0 then .MOD else .DEL) fd granted =
      m.epoll_ctl_ok .DEL fd granted := by
  split <;> rfl

end IOManager

end CorReactor
