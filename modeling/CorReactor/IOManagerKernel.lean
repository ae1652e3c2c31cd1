import CorReactor.IOManagerLedger

set_option autoImplicit false

/-! The kernel's interest list against the registered events. -/

namespace CorReactor.IOManager

variable {β : Type} {m next : IOManager β} {op : IOOp β} {out : Outcome β}

/-- The kernel watches a descriptor where events are registered for it, for those events
and edge-triggered. -/
def Matches (m : IOManager β) : Prop :=
  ∀ fd, m.interest fd = if m.events fd = 0 then none else some (EPOLLET ||| m.events fd)

/-- `cancelEvent` takes the last registered event away, or nothing. -/
def KeepsMask (m : IOManager β) : IOOp β → Prop
  | .cancelEvent fd event granted =>
      granted = true → (m.slot fd.toNat).Has event → m.events fd.toNat &&& ~~~event.bits = 0
  | _ => True

instance (m : IOManager β) : (op : IOOp β) → Decidable (m.KeepsMask op)
  | .cancelEvent .. => inferInstanceAs (Decidable (_ → _ → _))
  | .addEvent .. => isTrue trivial
  | .delEvent .. => isTrue trivial
  | .cancelAll .. => isTrue trivial
  | .deliver .. => isTrue trivial

theorem new_matches : (new : IOManager β).Matches := by
  intro fd
  unfold events
  rw [slot_new]
  rfl

theorem Same.matches (same : Same m next) (matched : m.Matches) : next.Matches := by
  intro fd
  unfold events
  rw [same.interest, same.slot]
  exact matched fd

/-- The entry of the descriptor decides; the others stay. -/
theorem Changed.matches_iff (changed : Changed m op next) (placed : m.Placed)
    (matched : m.Matches) :
    next.Matches ↔
      op.entry (m.events op.fd) =
        if op.left (m.events op.fd) = 0 then none
        else some (EPOLLET ||| op.left (m.events op.fd)) := by
  have interest := changed.interest
  rw [placed] at interest
  unfold Matches
  rw [changed.events, interest]
  constructor
  · intro all
    have here := all op.fd
    rw [Function.update_self, Function.update_self] at here
    exact here
  · intro here fd
    rw [Function.update_apply, Function.update_apply]
    split
    · exact here
    · exact matched fd

/-- Every operation but `cancelEvent` gives the kernel the mask it should. -/
theorem entry_eq (op : IOOp β) (events : BitVec 32)
    (other : ∀ fd event granted, op = .cancelEvent fd event granted → op.left events = 0) :
    op.entry events =
      if op.left events = 0 then none else some (EPOLLET ||| op.left events) := by
  unfold IOOp.entry
  by_cases none_left : op.left events = 0
  · simp only [none_left, ne_eq, not_true_eq_false, ↓reduceIte]
  · simp only [none_left, ne_eq, not_false_eq_true, ↓reduceIte]
    cases op with
    | cancelEvent fd event granted => exact absurd (other fd event granted rfl) none_left
    | addEvent | delEvent | cancelAll | deliver => rfl

theorem Matches.granted (matched : m.Matches) {fd : Nat} (watched : m.events fd ≠ 0)
    (granted : Bool) : m.epoll_ctl_ok .DEL fd granted = granted := by
  unfold epoll_ctl_ok
  rw [matched fd, if_neg watched]
  simp

theorem events_of_has {fd : Nat} {event : Event} (has : (m.slot fd).Has event) :
    m.events fd ≠ 0 := by
  intro none
  apply has
  unfold events at none
  rw [none]
  exact BitVec.zero_and

theorem Matches.step (placed : m.Placed) (matched : m.Matches) (keeps : m.KeepsMask op)
    (taken : m.step op = some (out, next)) : next.Matches := by
  cases op with
  | cancelEvent fd event granted =>
      obtain ⟨r, result, same⟩ := map_ok (exec_of_step taken)
      cases same
      rcases cancelEvent_ledger placed result with ⟨same, -⟩ | ⟨changed, has, ok⟩
      · exact same.matches matched
      · rw [changed.matches_iff placed matched]
        rw [matched.granted (events_of_has has)] at ok
        apply entry_eq
        rintro _ _ _ ⟨⟩
        exact keeps ok has
  | addEvent | delEvent | cancelAll | deliver =>
      rcases step_ledger placed taken with same | changed
      · exact same.matches matched
      · rw [changed.matches_iff placed matched]
        apply entry_eq
        rintro _ _ _ ⟨⟩

/-- The mask of a partial `cancelEvent` keeps the bit of the cancelled event. -/
theorem partial_entry_ne {events : BitVec 32} {event : Event} (has : events &&& event.bits ≠ 0)
    (some_left : events &&& ~~~event.bits ≠ 0) (fd : Int) (granted : Bool) :
    ¬ (IOOp.cancelEvent (β := β) fd event granted).entry events =
      if events &&& ~~~event.bits = 0 then none
      else some (EPOLLET ||| (events &&& ~~~event.bits)) := by
  have entry : (IOOp.cancelEvent (β := β) fd event granted).entry events =
      some (events ||| (events &&& ~~~event.bits)) := if_pos some_left
  rw [entry, if_neg some_left, Option.some.injEq]
  intro same
  have bit := congrArg (· &&& event.bits) same
  have without : EPOLLET &&& event.bits = 0 := by
    cases event <;> decide
  rw [BitVec.and_or_distrib_right, BitVec.and_or_distrib_right, and_not_and, if_pos rfl,
    without] at bit
  exact has (BitVec.or_eq_zero_iff.mp bit).1

theorem not_matches (placed : m.Placed) (matched : m.Matches) (breaks : ¬ m.KeepsMask op)
    (taken : m.step op = some (out, next)) : ¬ next.Matches := by
  cases op with
  | cancelEvent fd event granted =>
      simp only [KeepsMask, not_forall] at breaks
      obtain ⟨granted, has, some_left⟩ := breaks
      obtain ⟨r, result, same⟩ := map_ok (exec_of_step taken)
      cases same
      have fires : m.Fires (.cancelEvent (β := β) fd event _) :=
        ⟨has, (matched.granted (events_of_has has) _).trans granted⟩
      rcases cancelEvent_ledger placed result with ⟨-, quiet⟩ | ⟨changed, -⟩
      · exact absurd fires quiet
      · rw [changed.matches_iff placed matched]
        exact partial_entry_ne has some_left fd _
  | addEvent | delEvent | cancelAll | deliver => exact absurd trivial breaks

/-- The interest list matches the registered events all along a run exactly when no
`cancelEvent` takes away one of two. -/
theorem run_matches_iff {ops : List (IOOp β)} {outs : List (Outcome β)} {m : IOManager β}
    (taken : Transition.run step new ops = some (outs, m)) :
    Transition.Always step Matches new ops ↔ Transition.Along step KeepsMask new ops := by
  have keep : ∀ (s : IOManager β) op out t, s.Placed ∧ s.Matches → s.KeepsMask op →
      s.step op = some (out, t) → t.Placed ∧ t.Matches :=
    fun s op out t inv keeps done => ⟨inv.1.step done, inv.2.step inv.1 keeps done⟩
  have breaks : ∀ (s : IOManager β) op out t, s.Placed ∧ s.Matches → ¬ s.KeepsMask op →
      s.step op = some (out, t) → ¬ t.Matches :=
    fun s op out t inv bad done => not_matches inv.1 inv.2 bad done
  exact Transition.always_iff_along (fun s inv => inv.2) keep breaks
    ⟨new_placed, new_matches⟩ taken

/-- Two events registered and delivered one after the other. -/
theorem run_matches_delivered :
    ∃ outs m, Transition.run step (new : IOManager Nat)
      [.addEvent ⟨some 7, 1, .EXEC⟩ 3 .READ (some 40) true,
        .addEvent ⟨some 7, 1, .EXEC⟩ 3 .WRITE (some 41) true,
        .deliver 3 EPOLLOUT true, .cancelEvent 3 .READ true] = some (outs, m) ∧
      Transition.Always step Matches (new : IOManager Nat)
        [.addEvent ⟨some 7, 1, .EXEC⟩ 3 .READ (some 40) true,
          .addEvent ⟨some 7, 1, .EXEC⟩ 3 .WRITE (some 41) true,
          .deliver 3 EPOLLOUT true, .cancelEvent 3 .READ true] :=
  ⟨_, _, rfl, (run_matches_iff rfl).mpr (by decide)⟩

/-- Cancelling the second of two events leaves the kernel watching for both. -/
theorem cancelEvent_not_matches :
    ∃ outs m, Transition.run step (new : IOManager Nat)
      [.addEvent ⟨some 7, 1, .EXEC⟩ 3 .READ (some 40) true,
        .addEvent ⟨some 7, 1, .EXEC⟩ 3 .WRITE (some 41) true,
        .cancelEvent 3 .WRITE true] = some (outs, m) ∧
      m.events 3 = Event.READ.bits ∧
      m.interest 3 = some (Event.READ.bits ||| Event.WRITE.bits) ∧ ¬ m.Matches := by
  refine ⟨_, _, rfl, rfl, rfl, ?_⟩
  intro matched
  have here := matched 3
  revert here
  decide

end CorReactor.IOManager
