import CorReactor.IOManagerEffect
import Mathlib.Tactic.Ring

set_option autoImplicit false

/-! What each operation of the manager does to the event bits of its descriptor, to the
kernel's interest list and to the count of pending events. -/

namespace CorReactor

variable {β : Type}

/-! ### Counting event bits -/

/-- How many of the two events are set. -/
def weight (events : BitVec 32) : Nat :=
  (if events &&& Event.READ.bits ≠ 0 then 1 else 0) +
    if events &&& Event.WRITE.bits ≠ 0 then 1 else 0

theorem weight_le (events : BitVec 32) : weight events ≤ 2 := by
  unfold weight
  split <;> split <;> decide

theorem weight_zero : weight 0 = 0 := by decide

theorem weight_set {events : BitVec 32} {e : Event} (real : e ≠ .NONE)
    (free : events &&& e.bits = 0) : weight (events ||| e.bits) = weight events + 1 := by
  have read : (events ||| e.bits) &&& Event.READ.bits ≠ 0 ↔
      .READ = e ∨ events &&& Event.READ.bits ≠ 0 := or_and_ne_zero events real
  have write : (events ||| e.bits) &&& Event.WRITE.bits ≠ 0 ↔
      .WRITE = e ∨ events &&& Event.WRITE.bits ≠ 0 := or_and_ne_zero events real
  unfold weight
  simp only [read, write]
  cases e with
  | NONE => exact absurd rfl real
  | READ => simp [free]; omega
  | WRITE => simp [free]

theorem weight_clear {events : BitVec 32} {e : Event} (has : events &&& e.bits ≠ 0) :
    weight (events &&& ~~~e.bits) + 1 = weight events := by
  have read := and_not_and events e .READ
  have write := and_not_and events e .WRITE
  unfold weight
  rw [read, write]
  cases e with
  | NONE => exact absurd BitVec.and_zero has
  | READ =>
      rw [if_pos has]
      simp [Nat.add_comm]
  | WRITE =>
      rw [if_pos has]
      simp

/-- One pending event is counted off with its bit. -/
theorem counted_off {events : BitVec 32} {e : Event} (has : events &&& e.bits ≠ 0)
    (count : UInt64) :
    count - 1 + UInt64.ofNat (weight events) =
      count + UInt64.ofNat (weight (events &&& ~~~e.bits)) := by
  rw [← weight_clear has, UInt64.ofNat_add]
  grind

/-! ### Triggering -/

namespace FdContext

/-- `triggerIf` clears the bit of a due event and counts it off. -/
theorem triggerIf_ledger {due : Bool} {e : Event}
    {r r' : List (Delivery β) × FdContext β × UInt64} (done : triggerIf due e r = .ok r') :
    r'.2.1.m_events = r.2.1.m_events &&& ~~~(if due then e.bits else 0) ∧
      r'.2.2 + UInt64.ofNat (weight r.2.1.m_events) =
        r.2.2 + UInt64.ofNat (weight r'.2.1.m_events) := by
  unfold triggerIf at done
  cases due with
  | false =>
      cases done
      have all : r.2.1.m_events &&& ~~~(0 : BitVec 32) = r.2.1.m_events := BitVec.and_allOnes
      simp only [Bool.false_eq_true, ↓reduceIte]
      exact ⟨all.symm, trivial⟩
  | true =>
      simp only [↓reduceIte] at done ⊢
      cases one : r.2.1.triggerEvent e with
      | error fault =>
          rw [one] at done
          cases done
      | ok p =>
          obtain ⟨has, -, -, cleared⟩ := triggerEvent_ok.mp one
          rw [one] at done
          cases done
          rw [cleared]
          exact ⟨rfl, counted_off has r.2.2⟩

end FdContext

/-! ### The operations -/

/-- The position of the context that the operation works on. -/
def IOOp.fd : IOOp β → Nat
  | .addEvent _ fd _ _ _ => fd.toNat
  | .delEvent fd _ _ => fd.toNat
  | .cancelEvent fd _ _ => fd.toNat
  | .cancelAll fd _ => fd.toNat
  | .deliver fd _ _ => fd

/-- The bits that the operation leaves of those registered before. -/
def IOOp.left (events : BitVec 32) : IOOp β → BitVec 32
  | .addEvent _ _ event _ _ => events ||| event.bits
  | .delEvent _ event _ => events &&& ~~~event.bits
  | .cancelEvent _ event _ => events &&& ~~~event.bits
  | .cancelAll _ _ => 0
  | .deliver _ reported _ => events &&& ~~~IOManager.realEvents reported

/-- The entry that the operation leaves in the interest list. -/
def IOOp.entry (events : BitVec 32) (op : IOOp β) : Option (BitVec 32) :=
  if op.left events ≠ 0 then
    match op with
    | .cancelEvent .. => some (events ||| op.left events)
    | _ => some (EPOLLET ||| op.left events)
  else none

namespace IOManager

variable {m next : IOManager β}

def events (m : IOManager β) (fd : Nat) : BitVec 32 := (m.slot fd).m_events

/-- The vector grows within the range of `int`. -/
def Grows (m next : IOManager β) : Prop :=
  next.m_fdContexts.length ≤ max m.m_fdContexts.length (2 ^ 31)

/-- The bits, the interest list and the count stay. -/
structure Same (m next : IOManager β) : Prop where
  slot : next.slot = m.slot
  interest : next.interest = m.interest
  count : next.m_pendingEventCount = m.m_pendingEventCount
  length : m.Grows next

/-- The operation goes through: bits, interest list and count change together. -/
structure Changed (m : IOManager β) (op : IOOp β) (next : IOManager β) : Prop where
  events : next.events = Function.update m.events op.fd (op.left (m.events op.fd))
  fd : ∀ i, (next.slot i).fd = (m.slot i).fd
  interest : next.interest =
    Function.update m.interest (m.slot op.fd).fd (op.entry (m.events op.fd))
  count : next.m_pendingEventCount + UInt64.ofNat (weight (m.events op.fd)) =
    m.m_pendingEventCount + UInt64.ofNat (weight (op.left (m.events op.fd)))
  length : m.Grows next

theorem Same.refl (m : IOManager β) : Same m m := ⟨rfl, rfl, rfl, le_max_left _ _⟩

theorem Grows.store (grows : m.Grows next) {mid : IOManager β}
    (same : mid.m_fdContexts = next.m_fdContexts) (fd : Nat) (fd_ctx : FdContext β)
    (count : UInt64) :
    m.Grows ({ mid with m_pendingEventCount := count }.store fd fd_ctx) := by
  unfold Grows IOManager.store
  dsimp only
  rw [List.length_set, same]
  exact grows

theorem findContext_grows {fd : Int} {fd_ctx : FdContext β}
    (found : m.findContext fd = .ok (fd_ctx, next)) : m.Grows next := by
  have finish : ∀ n : IOManager β, (n.contextAt fd).map (fun c => (c, n)) = .ok (fd_ctx, next) →
      next = n := by
    intro n done
    obtain ⟨c, -, same⟩ := map_ok done
    exact (congrArg Prod.snd same).symm
  unfold findContext at found
  unfold Grows
  split at found
  · rw [finish m found]
    exact le_max_left _ _
  · split at found
    · cases found
    · dsimp only at found
      split at found
      · rw [finish _ found]
        rw [contextResize_length]
        omega
      · cases found

/-- Each context knows its descriptor. -/
def Placed (m : IOManager β) : Prop := ∀ fd, (m.slot fd).fd = fd

theorem epoll_ctl_interest {op : EpollOp} {fd : Nat} {events : BitVec 32} {granted : Bool}
    (done : m.epoll_ctl op fd events granted = some next) :
    next.interest = Function.update m.interest fd (if op = .DEL then none else some events) := by
  unfold epoll_ctl at done
  split at done
  · cases done
    cases op <;> rfl
  · cases done

/-- One context was written back. -/
theorem Changed.of_slot (op : IOOp β) {fd_ctx : FdContext β}
    (slots : next.slot = Function.update m.slot op.fd fd_ctx)
    (events : fd_ctx.m_events = op.left (m.events op.fd)) (fd : fd_ctx.fd = (m.slot op.fd).fd)
    (interest : next.interest =
      Function.update m.interest (m.slot op.fd).fd (op.entry (m.events op.fd)))
    (counted : next.m_pendingEventCount + UInt64.ofNat (weight (m.events op.fd)) =
      m.m_pendingEventCount + UInt64.ofNat (weight fd_ctx.m_events))
    (length : m.Grows next) : Changed m op next := by
  refine ⟨?_, ?_, interest, ?_, length⟩
  · funext i
    unfold IOManager.events at events ⊢
    rw [slots, Function.update_apply, Function.update_apply]
    split
    · exact events
    · rfl
  · intro i
    rw [slots, Function.update_apply]
    split
    · rename_i here
      rw [here, fd]
    · rfl
  · rw [← events]
    exact counted

theorem left_ne_zero {events : BitVec 32} {e : Event} (real : e ≠ .NONE) :
    events ||| e.bits ≠ 0 := by
  intro zero
  exact Event.bits_ne_zero real (BitVec.or_eq_zero_iff.mp zero).2

theorem addEvent_ledger (placed : m.Placed) {caller : Caller} {fd : Int} {event : Event}
    {cb : Option β} {granted : Bool} {rt : Int}
    (done : m.addEvent caller fd event cb granted = .ok (rt, next)) :
    Same m next ∨ Changed m (.addEvent caller fd event cb granted) next := by
  obtain ⟨grown, found, free, result⟩ := addEvent_cases done
  obtain ⟨inside, -, slots, interest, count⟩ := findContext_ok found
  obtain ⟨rfl, rfl, -⟩ | ⟨changed, taken, real, rfl, rfl⟩ := result
  · exact Or.inl ⟨slots, interest, count, findContext_grows found⟩
  · obtain ⟨-, same, counted⟩ := epoll_ctl_some taken
    have kernel := epoll_ctl_interest taken
    have events : ((m.slot fd.toNat).registered event caller cb).m_events =
        (m.slot fd.toNat).m_events ||| event.bits := by
      cases event <;> rfl
    refine Or.inr (Changed.of_slot _ ((store_slot inside same _).trans (by rw [slots]; rfl))
      events (FdContext.registered_fd _ event caller cb) ?_ ?_
      ((findContext_grows found).store same _ _ _))
    · change changed.interest = _
      rw [kernel, interest]
      change Function.update m.interest fd.toNat _ =
        Function.update m.interest (m.slot fd.toNat).fd _
      rw [placed]
      unfold IOOp.entry IOOp.left
      rw [if_pos (left_ne_zero real), BitVec.or_assoc]
      split <;> rfl
    · change changed.m_pendingEventCount + 1 + _ = _
      rw [events, counted, count, weight_set real (Decidable.not_not.mp free), UInt64.ofNat_add]
      change _ + 1 + UInt64.ofNat (weight (m.slot fd.toNat).m_events) = _
      grind

theorem left_op_entry (left mask : BitVec 32) :
    (if (if left ≠ 0 then EpollOp.MOD else .DEL) = EpollOp.DEL then none else some mask) =
      if left ≠ 0 then some mask else none := by
  by_cases none_left : left = 0 <;> simp [none_left]

theorem delEvent_ledger (placed : m.Placed) {fd : Int} {event : Event} {granted ok : Bool}
    (done : m.delEvent fd event granted = .ok (ok, next)) :
    Same m next ∨ Changed m (.delEvent fd event granted) next := by
  obtain ⟨rfl, rfl⟩ | ⟨changed, inside, has, taken, rfl, rfl⟩ := delEvent_cases done
  · exact Or.inl (Same.refl _)
  · obtain ⟨-, same, counted⟩ := epoll_ctl_some taken
    have kernel := epoll_ctl_interest taken
    have events : ((m.slot fd.toNat).deleted event).m_events =
        (m.slot fd.toNat).m_events &&& ~~~event.bits := by
      cases event <;> rfl
    refine Or.inr (Changed.of_slot _ (store_slot inside same _) events
      (FdContext.deleted_fd _ event) ?_ ?_ ((Same.refl m).length.store same _ _ _))
    · change changed.interest = _
      rw [kernel, left_op_entry]
      change _ = Function.update m.interest (m.slot fd.toNat).fd _
      rw [placed]
      rfl
    · rw [events, ← counted]
      exact counted_off has changed.m_pendingEventCount

theorem cancelEvent_ledger (placed : m.Placed) {fd : Int} {event : Event} {granted : Bool}
    {r : Bool × List (Delivery β)} (done : m.cancelEvent fd event granted = .ok (r, next)) :
    Same m next ∧ ¬ m.Fires (.cancelEvent (β := β) fd event granted) ∨
      Changed m (.cancelEvent fd event granted) next ∧
        m.Fires (.cancelEvent (β := β) fd event granted) := by
  obtain ⟨rfl, rfl, quiet⟩ | ⟨changed, delivery, inside, fires, taken, -, rfl, rfl⟩ :=
    cancelEvent_cases done
  · exact Or.inl ⟨Same.refl _, quiet⟩
  · obtain ⟨-, same, counted⟩ := epoll_ctl_some taken
    have kernel := epoll_ctl_interest taken
    refine Or.inr ⟨Changed.of_slot _ (store_slot inside same _) rfl rfl ?_ ?_
      ((Same.refl m).length.store same _ _ _), fires⟩
    · change changed.interest = _
      rw [kernel, left_op_entry]
      change _ = Function.update m.interest (m.slot fd.toNat).fd _
      rw [placed]
      rfl
    · rw [← counted]
      exact counted_off fires.1 changed.m_pendingEventCount

theorem triggers_ledger {fd_ctx : FdContext β} {count : UInt64} {read write : Bool}
    {r r' : List (Delivery β) × FdContext β × UInt64}
    (first : FdContext.triggerIf read .READ ([], fd_ctx, count) = .ok r)
    (second : FdContext.triggerIf write .WRITE r = .ok r') :
    r'.2.1.m_events = fd_ctx.m_events &&&
        ~~~((if read then Event.READ.bits else 0) ||| if write then Event.WRITE.bits else 0) ∧
      r'.2.1.fd = fd_ctx.fd ∧
      r'.2.2 + UInt64.ofNat (weight fd_ctx.m_events) =
        count + UInt64.ofNat (weight r'.2.1.m_events) := by
  obtain ⟨one, counted⟩ := FdContext.triggerIf_ledger first
  obtain ⟨two, counted'⟩ := FdContext.triggerIf_ledger second
  refine ⟨?_, (triggers_fired first second).fd, ?_⟩
  · rw [two, one, BitVec.not_or, BitVec.and_assoc]
  · dsimp only at counted
    grind

theorem cancelAll_ledger (placed : m.Placed) {fd : Int} {granted : Bool}
    {r : Bool × List (Delivery β)} (done : m.cancelAll fd granted = .ok (r, next)) :
    Same m next ∨ Changed m (.cancelAll fd granted) next := by
  obtain ⟨rfl, rfl, -⟩ | ⟨changed, first, last, inside, -, taken, read, write, none_left, rfl,
    rfl⟩ := cancelAll_cases done
  · exact Or.inl (Same.refl _)
  · obtain ⟨-, same, counted⟩ := epoll_ctl_some taken
    have kernel := epoll_ctl_interest taken
    obtain ⟨-, fd_eq, ledger⟩ := triggers_ledger read write
    refine Or.inr (Changed.of_slot _ (store_slot inside same _) none_left fd_eq ?_ ?_
      ((Same.refl m).length.store same _ _ _))
    · change changed.interest = Function.update m.interest (m.slot fd.toNat).fd _
      rw [kernel, placed]
      rfl
    · rw [← counted]
      exact ledger

theorem deliver_ledger {fd : Nat} {events : BitVec 32} {granted : Bool}
    {ds : List (Delivery β)} (done : m.deliver fd events granted = .ok (ds, next)) :
    Same m next ∨ Changed m (.deliver fd events granted) next := by
  obtain ⟨rfl, rfl, -⟩ | ⟨changed, first, last, inside, -, taken, read, write, rfl, rfl⟩ :=
    deliver_cases done
  · exact Or.inl (Same.refl _)
  · obtain ⟨-, same, counted⟩ := epoll_ctl_some taken
    have kernel := epoll_ctl_interest taken
    obtain ⟨left, fd_eq, ledger⟩ := triggers_ledger read write
    have real : realEvents events =
        (if decide (realEvents events &&& Event.READ.bits ≠ 0) = true
          then Event.READ.bits else 0) |||
          if decide (realEvents events &&& Event.WRITE.bits ≠ 0) = true
            then Event.WRITE.bits else 0 := by
      simp only [decide_eq_true_eq, realEvents_has]
      exact realEvents_eq events
    rw [← real] at left
    refine Or.inr (Changed.of_slot _ (store_slot inside same _) left fd_eq ?_ ?_
      ((Same.refl m).length.store same _ _ _))
    · change changed.interest = _
      rw [kernel, left_op_entry]
      rfl
    · rw [← counted]
      exact ledger

/-- Every completed operation leaves the three as they are or changes them together. -/
theorem step_ledger (placed : m.Placed) {op : IOOp β} {out : Outcome β}
    (taken : m.step op = some (out, next)) : Same m next ∨ Changed m op next := by
  have done := exec_of_step taken
  cases op with
  | addEvent caller fd event cb granted =>
      obtain ⟨r, result, same⟩ := map_ok done
      cases same
      exact addEvent_ledger placed result
  | delEvent fd event granted =>
      obtain ⟨r, result, same⟩ := map_ok done
      cases same
      exact delEvent_ledger placed result
  | cancelEvent fd event granted =>
      obtain ⟨r, result, same⟩ := map_ok done
      cases same
      exact (cancelEvent_ledger placed result).imp And.left And.left
  | cancelAll fd granted =>
      obtain ⟨r, result, same⟩ := map_ok done
      cases same
      exact cancelAll_ledger placed result
  | deliver fd events granted =>
      obtain ⟨r, result, same⟩ := map_ok done
      cases same
      exact deliver_ledger result

theorem new_placed : (new : IOManager β).Placed := by
  intro fd
  rw [slot_new]

theorem Placed.step (placed : m.Placed) {op : IOOp β} {out : Outcome β}
    (taken : m.step op = some (out, next)) : next.Placed := by
  intro fd
  rcases step_ledger placed taken with same | changed
  · rw [same.slot]
    exact placed fd
  · rw [changed.fd]
    exact placed fd

end IOManager

end CorReactor
