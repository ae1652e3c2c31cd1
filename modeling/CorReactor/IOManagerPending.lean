import CorReactor.Counting
import CorReactor.IOManagerLedger

set_option autoImplicit false

/-! The count of pending events against the registered events. -/

namespace CorReactor.IOManager

open Finset

variable {β : Type} {m next : IOManager β} {op : IOOp β} {out : Outcome β}

/-- The event bits set over all contexts. -/
def pending (m : IOManager β) : Nat :=
  (m.m_fdContexts.map fun fd_ctx => weight fd_ctx.m_events).sum

/-- The count is the number of event bits set, and no other bit is. -/
structure Counted (m : IOManager β) : Prop where
  count : m.m_pendingEventCount.toNat = m.pending
  clean : ∀ fd, (m.slot fd).Clean

theorem events_of_le {fd : Nat} (outside : m.m_fdContexts.length ≤ fd) : m.events fd = 0 := by
  unfold events
  rw [slot_of_le outside]
  rfl

/-- The sum over the vector is one over descriptors, as far as one likes. -/
theorem pending_eq {size : Nat} (large : m.m_fdContexts.length ≤ size) :
    m.pending = ∑ fd ∈ range size, weight (m.events fd) := by
  have inside : m.pending = ∑ fd ∈ range m.m_fdContexts.length, weight (m.events fd) := by
    rw [Finset.sum_range]
    unfold pending
    rw [← Fin.sum_univ_fun_getElem]
    apply Finset.sum_congr rfl
    intro i _
    unfold events slot
    rw [List.getElem?_eq_getElem i.isLt, Option.getD_some]
  rw [inside]
  apply Finset.sum_subset (range_subset_range.mpr large)
  intro fd _ outside
  rw [mem_range, Nat.not_lt] at outside
  rw [events_of_le outside, weight_zero]

theorem pending_le (m : IOManager β) : m.pending ≤ 2 * m.m_fdContexts.length := by
  rw [pending_eq (Nat.le_refl _), Nat.mul_comm]
  exact Counting.sum_range_le fun fd => weight_le (m.events fd)

theorem Same.pending (same : Same m next) : next.pending = m.pending := by
  rw [pending_eq (le_max_left next.m_fdContexts.length m.m_fdContexts.length),
    pending_eq (le_max_right next.m_fdContexts.length m.m_fdContexts.length)]
  unfold events
  rw [same.slot]

/-- One descriptor's share of the sum changes. -/
theorem Changed.pending (changed : Changed m op next) :
    next.pending + weight (m.events op.fd) = m.pending + weight (op.left (m.events op.fd)) := by
  obtain ⟨size, old, new, inside⟩ : ∃ size, m.m_fdContexts.length ≤ size ∧
      next.m_fdContexts.length ≤ size ∧ op.fd < size := by
    refine ⟨m.m_fdContexts.length + next.m_fdContexts.length + op.fd + 1, ?_, ?_, ?_⟩
    · omega
    · omega
    · omega
  have others : ∀ fd, fd ≠ op.fd → weight (next.events fd) = weight (m.events fd) := by
    intro fd other
    rw [changed.events, Function.update_of_ne other]
  have here : next.events op.fd = op.left (m.events op.fd) := by
    rw [changed.events, Function.update_self]
  rw [pending_eq old, pending_eq new, ← here]
  exact Counting.sum_range_replace inside others

theorem new_pending : (new : IOManager β).pending = 0 := by
  rw [pending_eq (Nat.le_refl _)]
  apply Finset.sum_eq_zero
  intro fd _
  unfold events
  rw [slot_new]
  exact weight_zero

/-- The invariant: `int` bounds the vector, hence the sum stays far below 2^64. -/
structure Tallied (m : IOManager β) : Prop extends Counted m where
  placed : m.Placed
  length : m.m_fdContexts.length ≤ 2 ^ 31

theorem Tallied.small (tallied : m.Tallied) : m.pending ≤ 2 ^ 32 := by
  have := m.pending_le
  have := tallied.length
  omega

theorem new_tallied : (new : IOManager β).Tallied where
  count := by
    rw [new_pending]
    rfl
  clean := by
    intro fd
    rw [slot_new]
    exact BitVec.zero_and
  placed := new_placed
  length := by
    rw [new, contextResize_length]
    decide

theorem Tallied.grows (tallied : m.Tallied) (grows : m.Grows next) :
    next.m_fdContexts.length ≤ 2 ^ 31 :=
  Nat.le_trans grows (max_le tallied.length (Nat.le_refl _))

theorem clean_or {events : BitVec 32} {e : Event}
    (clean : events &&& ~~~(Event.READ.bits ||| Event.WRITE.bits) = 0) :
    (events ||| e.bits) &&& ~~~(Event.READ.bits ||| Event.WRITE.bits) = 0 := by
  have own : e.bits &&& ~~~(Event.READ.bits ||| Event.WRITE.bits) = 0 := by
    cases e <;> decide
  rw [BitVec.and_or_distrib_right, clean, own]
  rfl

theorem clean_and {events mask : BitVec 32}
    (clean : events &&& ~~~(Event.READ.bits ||| Event.WRITE.bits) = 0) :
    (events &&& mask) &&& ~~~(Event.READ.bits ||| Event.WRITE.bits) = 0 := by
  rw [BitVec.and_assoc, BitVec.and_comm mask, ← BitVec.and_assoc, clean]
  exact BitVec.zero_and

theorem left_clean {events : BitVec 32} (op : IOOp β)
    (clean : events &&& ~~~(Event.READ.bits ||| Event.WRITE.bits) = 0) :
    op.left events &&& ~~~(Event.READ.bits ||| Event.WRITE.bits) = 0 := by
  cases op with
  | addEvent => exact clean_or clean
  | delEvent | cancelEvent | deliver => exact clean_and clean
  | cancelAll => exact BitVec.zero_and

theorem Tallied.step (tallied : m.Tallied) (taken : m.step op = some (out, next)) :
    next.Tallied := by
  have count := tallied.count
  rcases step_ledger tallied.placed taken with same | changed
  · refine ⟨⟨?_, ?_⟩, tallied.placed.step taken, tallied.grows same.length⟩
    · rw [same.count, same.pending]
      exact count
    · rw [same.slot]
      exact tallied.clean
  · have length := tallied.grows changed.length
    refine ⟨⟨?_, ?_⟩, tallied.placed.step taken, length⟩
    · have exact_sum := changed.pending
      have counted := congrArg UInt64.toNat changed.count
      have before := tallied.small
      have after := next.pending_le
      have old := weight_le (m.events op.fd)
      have left := weight_le (op.left (m.events op.fd))
      simp only [UInt64.toNat_add, UInt64.toNat_ofNat'] at counted
      have bound := next.m_pendingEventCount.toNat_lt
      omega
    · intro fd
      change next.events fd &&& _ = 0
      rw [changed.events, Function.update_apply]
      split
      · exact left_clean op (tallied.clean op.fd)
      · exact tallied.clean fd

/-- An event bit is set exactly where the bits are not all clear. -/
theorem weight_eq_zero {events : BitVec 32}
    (clean : events &&& ~~~(Event.READ.bits ||| Event.WRITE.bits) = 0) :
    weight events = 0 ↔ events = 0 := by
  constructor
  · intro none
    unfold weight at none
    have read : events &&& Event.READ.bits = 0 := by
      by_contra some
      rw [if_pos some] at none
      omega
    have write : events &&& Event.WRITE.bits = 0 := by
      by_contra some
      rw [if_pos some] at none
      omega
    have split : events &&& (Event.READ.bits ||| Event.WRITE.bits) |||
        events &&& ~~~(Event.READ.bits ||| Event.WRITE.bits) = events := by
      rw [← BitVec.and_or_distrib_left]
      exact BitVec.and_allOnes
    rw [← split, clean, BitVec.and_or_distrib_left, read, write]
    rfl
  · rintro rfl
    exact weight_zero

theorem weight_and_le (events mask : BitVec 32) : weight (events &&& mask) ≤ weight events := by
  have part : ∀ e : Event, (events &&& mask) &&& e.bits ≠ 0 → events &&& e.bits ≠ 0 := by
    intro e some none
    apply some
    rw [BitVec.and_assoc, BitVec.and_comm mask, ← BitVec.and_assoc, none]
    exact BitVec.zero_and
  have flag_le : ∀ e : Event, (if (events &&& mask) &&& e.bits ≠ 0 then 1 else 0) ≤
      if events &&& e.bits ≠ 0 then 1 else 0 := by
    intro e
    split
    · rename_i some
      rw [if_pos (part e some)]
    · exact Nat.zero_le _
  exact Nat.add_le_add (flag_le .READ) (flag_le .WRITE)

/-- No operation but `addEvent` sets a bit. -/
theorem left_le {op : IOOp β} (other : ¬ op.Adds) (events : BitVec 32) :
    weight (op.left events) ≤ weight events := by
  cases op with
  | addEvent => exact absurd trivial other
  | delEvent | cancelEvent | deliver => exact weight_and_le events _
  | cancelAll => exact Nat.le_trans (Nat.le_of_eq weight_zero) (Nat.zero_le _)

/-- Counting events off never wraps around. -/
theorem Tallied.released (tallied : m.Tallied) (other : ¬ op.Adds)
    (taken : m.step op = some (out, next)) :
    next.m_pendingEventCount ≤ m.m_pendingEventCount := by
  rw [UInt64.le_iff_toNat_le, tallied.count, (tallied.step taken).count]
  rcases step_ledger tallied.placed taken with same | changed
  · exact Nat.le_of_eq same.pending
  · have sum := changed.pending
    have fewer := left_le other (m.events op.fd)
    omega

theorem Tallied.zero_iff (tallied : m.Tallied) :
    m.m_pendingEventCount = 0 ↔ ∀ fd_ctx ∈ m.m_fdContexts, fd_ctx.m_events = 0 := by
  have zero : m.m_pendingEventCount = 0 ↔ m.pending = 0 := by
    rw [← tallied.count, ← UInt64.toNat_inj]
    rfl
  rw [zero]
  unfold pending
  rw [List.sum_eq_zero_iff_forall_eq_nat]
  constructor
  · intro all fd_ctx member
    obtain ⟨fd, inside, here⟩ := List.mem_iff_getElem.mp member
    have clean := tallied.clean fd
    rw [slot_of_get (List.getElem?_eq_some_iff.mpr ⟨inside, here⟩)] at clean
    exact (weight_eq_zero clean).mp (all _ (List.mem_map.mpr ⟨fd_ctx, member, rfl⟩))
  · intro all n member
    obtain ⟨fd_ctx, inside, rfl⟩ := List.mem_map.mp member
    rw [all fd_ctx inside]
    exact weight_zero

/-- After every run the count is the number of event bits set over all contexts, so it
is zero exactly when nothing is registered, and an operation that counts events off
does not wrap it below zero. -/
theorem run_pending {ops : List (IOOp β)} {outs : List (Outcome β)} {m : IOManager β}
    (taken : Transition.run step new ops = some (outs, m)) :
    m.m_pendingEventCount.toNat = m.pending ∧
      (m.m_pendingEventCount = 0 ↔ ∀ fd_ctx ∈ m.m_fdContexts, fd_ctx.m_events = 0) ∧
      ∀ op out next, ¬ op.Adds → m.step op = some (out, next) →
        next.m_pendingEventCount ≤ m.m_pendingEventCount := by
  have tallied : m.Tallied :=
    Transition.Reachable.invariant (fun _ _ _ _ holds done => holds.step done) new_tallied
      ⟨ops, outs, taken⟩
  exact ⟨tallied.count, tallied.zero_iff, fun _ _ _ other done => tallied.released other done⟩

/-- Two descriptors: one event delivered, one refused by the kernel, two left. -/
theorem run_pending_two :
    ∃ outs m, Transition.run step (new : IOManager Nat)
      [.addEvent ⟨some 7, 1, .EXEC⟩ 3 .READ (some 40) true,
        .addEvent ⟨some 7, 1, .EXEC⟩ 3 .WRITE (some 41) true,
        .addEvent ⟨some 7, 1, .EXEC⟩ 40 .WRITE none true, .deliver 3 EPOLLIN true,
        .cancelAll 40 false] = some (outs, m) ∧
      m.m_pendingEventCount = 2 ∧ m.m_pendingEventCount.toNat = m.pending := by
  have shown : (Transition.run step (new : IOManager Nat)
      [.addEvent ⟨some 7, 1, .EXEC⟩ 3 .READ (some 40) true,
        .addEvent ⟨some 7, 1, .EXEC⟩ 3 .WRITE (some 41) true,
        .addEvent ⟨some 7, 1, .EXEC⟩ 40 .WRITE none true, .deliver 3 EPOLLIN true,
        .cancelAll 40 false]).map (fun r => r.2.m_pendingEventCount) = some 2 := by
    decide
  obtain ⟨⟨outs, m⟩, taken, count⟩ := Option.map_eq_some_iff.mp shown
  exact ⟨outs, m, taken, count, (run_pending taken).1⟩

end CorReactor.IOManager
