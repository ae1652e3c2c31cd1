import CorReactor.IOManagerEffect

set_option autoImplicit false

/-! When the delivery loop of `idle` meets none of its assertions. -/

namespace CorReactor

variable {β : Type}

namespace FdContext

/-- A failed trigger is a failed assertion or a null scheduler. -/
theorem triggerIf_error {due : Bool} {e : Event} (real : e ≠ .NONE)
    {r : List (Delivery β) × FdContext β × UInt64} {fault : IOFault}
    (failed : triggerIf due e r = .error fault) :
    fault = .notRegistered ∨ fault = .nullScheduler := by
  unfold triggerIf at failed
  split at failed
  · split at failed
    · rename_i other triggered
      cases failed
      unfold triggerEvent at triggered
      split at triggered
      · cases triggered
        exact Or.inl rfl
      · dsimp only at triggered
        rw [getContext_real _ real] at triggered
        dsimp only at triggered
        split at triggered
        · cases triggered
          exact Or.inr rfl
        · cases triggered
    · cases failed
  · cases failed

/-- The two triggers of the loop complete when every due event is registered with a
scheduler. -/
theorem triggers_complete {fd_ctx : FdContext β} (count : UInt64) {read write : Bool} :
    (∃ r r', triggerIf read .READ ([], fd_ctx, count) = .ok r ∧
      triggerIf write .WRITE r = .ok r') ↔
      (read = true → fd_ctx.Has .READ ∧ (fd_ctx.context .READ).scheduler.isSome) ∧
        (write = true → fd_ctx.Has .WRITE ∧ (fd_ctx.context .WRITE).scheduler.isSome) := by
  have second : ∀ r, triggerIf read .READ ([], fd_ctx, count) = .ok r →
      (r.2.1.Has .WRITE ↔ fd_ctx.Has .WRITE) ∧ r.2.1.context .WRITE = fd_ctx.context .WRITE := by
    intro r first
    have fired := triggerIf_fired (Fired.refl fd_ctx) first
    have other : Event.WRITE ∉ [] ++ if read = true then [Event.READ] else [] := by
      cases read <;> decide
    refine ⟨?_, fired.context .WRITE⟩
    rw [fired.has]
    exact and_iff_left other
  constructor
  · rintro ⟨r, r', first, last⟩
    refine ⟨triggerIf_completes.mp ⟨r, first⟩, ?_⟩
    have due := triggerIf_completes.mp ⟨r', last⟩
    rw [(second r first).1, (second r first).2] at due
    exact due
  · rintro ⟨reads, writes⟩
    have start : ∃ r, triggerIf read .READ ([], fd_ctx, count) = .ok r :=
      triggerIf_completes.mpr reads
    obtain ⟨r, first⟩ := start
    rw [← (second r first).1, ← (second r first).2] at writes
    obtain ⟨r', last⟩ := triggerIf_completes.mpr writes
    exact ⟨r, r', first, last⟩

end FdContext

namespace IOManager

variable {m : IOManager β}

/-! ### The condition -/

/-- No delivery stops at the assertion of `triggerEvent` or follows a null scheduler. -/
def Safe (m : IOManager β) : IOOp β → Prop
  | .deliver fd events granted =>
      m.deliver fd events granted ≠ .error .notRegistered ∧
        m.deliver fd events granted ≠ .error .nullScheduler
  | _ => True

/-- No reported event is registered, or the kernel refuses the change, or every reported
event is registered, by a thread that had a scheduler. -/
def Deliverable (m : IOManager β) : IOOp β → Prop
  | .deliver fd events granted =>
      (∀ e, (m.slot fd).Has e → ¬ Reports events e) ∨
        m.epoll_ctl_ok .DEL (m.slot fd).fd granted = false ∨
        ∀ e, Reports events e → (m.slot fd).Has e ∧ ((m.slot fd).context e).scheduler.isSome
  | _ => True

/-- The loop on a context that has a reported event, the kernel taking the change. -/
theorem deliver_eq {fd : Nat} {events : BitVec 32} {granted : Bool}
    (inside : fd < m.m_fdContexts.length)
    (reported : ¬ ∀ e, (m.slot fd).Has e → ¬ Reports events e)
    (taken : m.epoll_ctl_ok .DEL (m.slot fd).fd granted = true) :
    ∃ changed : IOManager β, m.deliver fd events granted =
      match FdContext.triggerIf (realEvents events &&& Event.READ.bits ≠ 0) .READ
          ([], m.slot fd, changed.m_pendingEventCount) with
      | .error fault => .error fault
      | .ok r =>
          match FdContext.triggerIf (realEvents events &&& Event.WRITE.bits ≠ 0) .WRITE r with
          | .error fault => .error fault
          | .ok (deliveries, fd_ctx, count) =>
              .ok (deliveries, { changed with m_pendingEventCount := count }.store fd fd_ctx) := by
  have found : m.m_fdContexts[fd]? = some (m.slot fd) := by
    rw [List.getElem?_eq_getElem inside, slot_of_get (List.getElem?_eq_getElem inside)]
  have something : ¬ (m.slot fd).m_events &&& realEvents events = 0 := by
    rw [and_realEvents]
    exact reported
  cases answer : m.epoll_ctl
      (if (m.slot fd).m_events &&& ~~~realEvents events ≠ 0 then .MOD else .DEL) (m.slot fd).fd
      (EPOLLET ||| ((m.slot fd).m_events &&& ~~~realEvents events)) granted with
  | none =>
      rw [epoll_ctl_none, epoll_ctl_ok_left, taken] at answer
      cases answer
  | some changed =>
      refine ⟨changed, ?_⟩
      unfold deliver
      rw [found]
      dsimp only
      rewrite [if_neg something, answer]
      rfl

theorem deliver_quiet {fd : Nat} {events : BitVec 32} {granted : Bool}
    (quiet : (∀ e, (m.slot fd).Has e → ¬ Reports events e) ∨
      m.epoll_ctl_ok .DEL (m.slot fd).fd granted = false) :
    m.deliver fd events granted = .ok ([], m) ∨ m.deliver fd events granted = .error .badIndex := by
  unfold deliver
  split
  · exact Or.inr rfl
  · rename_i fd_ctx found
    obtain rfl := slot_of_get found
    dsimp only
    split
    · exact Or.inl rfl
    · rename_i something
      rcases quiet with none | refused
      · exact absurd ((and_realEvents _ events).mpr none) something
      · split
        · exact Or.inl rfl
        · rename_i changed answer
          have ok := (epoll_ctl_some answer).1
          rw [epoll_ctl_ok_left, refused] at ok
          cases ok

/-- The events that are due are the reported ones. -/
theorem due_iff (events : BitVec 32) (P : Event → Prop) :
    (∀ e, Reports events e → P e) ↔
      (decide (realEvents events &&& Event.READ.bits ≠ 0) = true → P .READ) ∧
        (decide (realEvents events &&& Event.WRITE.bits ≠ 0) = true → P .WRITE) := by
  rw [decide_eq_true_eq, decide_eq_true_eq, realEvents_has, realEvents_has]
  constructor
  · intro all
    exact ⟨all .READ, all .WRITE⟩
  · rintro ⟨read, write⟩ e reports
    cases e with
    | NONE => cases reports
    | READ => exact read reports
    | WRITE => exact write reports

/-- One delivery is safe exactly under the condition, in any state and for any mask. -/
theorem safe_iff_deliverable (m : IOManager β) (op : IOOp β) : m.Safe op ↔ m.Deliverable op := by
  cases op with
  | addEvent | delEvent | cancelEvent | cancelAll => exact Iff.rfl
  | deliver fd events granted =>
      by_cases quiet : (∀ e, (m.slot fd).Has e → ¬ Reports events e) ∨
          m.epoll_ctl_ok .DEL (m.slot fd).fd granted = false
      · have safe : m.Safe (.deliver fd events granted) := by
          unfold Safe
          rcases deliver_quiet quiet with done | outside
          · simp only [done, ne_eq, reduceCtorEq, not_false_eq_true, and_self]
          · simp only [outside, ne_eq, Except.error.injEq, reduceCtorEq, not_false_eq_true,
              and_self]
        exact ⟨fun _ => or_assoc.mp (Or.inl quiet), fun _ => safe⟩
      · obtain ⟨reported, taken⟩ := not_or.mp quiet
        rw [Bool.not_eq_false] at taken
        have inside : fd < m.m_fdContexts.length := by
          by_contra outside
          apply reported
          intro e has
          rw [slot_of_le (Nat.le_of_not_lt outside)] at has
          exact absurd BitVec.zero_and has
        obtain ⟨changed, eq⟩ := deliver_eq inside reported taken
        have condition : m.Deliverable (.deliver fd events granted) ↔
            ∀ e, Reports events e →
              (m.slot fd).Has e ∧ ((m.slot fd).context e).scheduler.isSome := by
          simp only [Deliverable]
          rw [← or_assoc, or_iff_right quiet]
        rw [condition, due_iff]
        refine Iff.trans ?_ (FdContext.triggers_complete changed.m_pendingEventCount)
        simp only [Safe, eq]
        constructor
        · rintro ⟨registered, known⟩
          cases first : FdContext.triggerIf
              (decide (realEvents events &&& Event.READ.bits ≠ 0)) .READ
              ([], m.slot fd, changed.m_pendingEventCount) with
          | error fault =>
              rw [first] at registered known
              rcases FdContext.triggerIf_error (by decide) first with rfl | rfl
              · exact absurd rfl registered
              · exact absurd rfl known
          | ok r =>
              rw [first] at registered known
              dsimp only at registered known
              cases second : FdContext.triggerIf
                  (decide (realEvents events &&& Event.WRITE.bits ≠ 0)) .WRITE r with
              | error fault =>
                  rw [second] at registered known
                  rcases FdContext.triggerIf_error (by decide) second with rfl | rfl
                  · exact absurd rfl registered
                  · exact absurd rfl known
              | ok r' => exact ⟨r, r', rfl, second⟩
        · rintro ⟨r, r', first, second⟩
          rw [first]
          dsimp only
          rw [second]
          constructor
          · intro failed
            cases failed
          · intro failed
            cases failed

/-- In every run, the deliveries are safe exactly when each meets the condition in the
state it finds. -/
theorem run_safe_iff (ops : List (IOOp β)) :
    Transition.Along step Safe new ops ↔ Transition.Along step Deliverable new ops := by
  constructor
  · exact Transition.Along.mono fun s op => (safe_iff_deliverable s op).mp
  · exact Transition.Along.mono fun s op => (safe_iff_deliverable s op).mpr

/-! ### Registered contexts have schedulers -/

/-- A thread that registers an event has a scheduler. -/
def Scheduled (_m : IOManager β) : IOOp β → Prop
  | .addEvent caller _ _ _ _ => caller.scheduler.isSome
  | _ => True

def Known (m : IOManager β) : Prop :=
  ∀ fd e, (m.slot fd).Has e → ((m.slot fd).context e).scheduler.isSome

theorem Known.update {next : IOManager β} (known : m.Known) {fd : Nat} {fd_ctx : FdContext β}
    (slot : next.slot = Function.update m.slot fd fd_ctx)
    (here : ∀ e, fd_ctx.Has e → (fd_ctx.context e).scheduler.isSome) : next.Known := by
  intro fd' e
  rw [slot, Function.update_apply]
  split
  · exact here e
  · exact known fd' e

theorem Known.step {next : IOManager β} {op : IOOp β} {out : Outcome β} (known : m.Known)
    (scheduled : m.Scheduled op) (taken : m.step op = some (out, next)) : next.Known := by
  cases step_effect taken with
  | refused refused slot =>
      intro fd e
      rw [slot]
      exact known fd e
  | @added caller fd event cb granted _ registers real free slot =>
      apply known.update slot
      intro e has
      rw [FdContext.registered_context _ real]
      split
      · exact scheduled
      · rename_i other
        rw [FdContext.registered_has _ real, or_iff_right other] at has
        exact known fd.toNat e has
  | kept quiet other failed => exact known
  | deleted has slot =>
      apply known.update slot
      intro e still
      rw [FdContext.deleted_has] at still
      rw [FdContext.deleted_context _ has.real, if_neg still.2]
      exact known _ e still.1
  | fired fires any fired slot =>
      apply known.update slot
      intro e has
      rw [fired.context]
      exact known _ e ((fired.has e).mp has).1

/-- Where only such threads register events, the condition on a delivery is about the
event bits alone. -/
theorem run_deliverable_iff {ops : List (IOOp β)} {outs : List (Outcome β)}
    (scheduled : Transition.Along step Scheduled new ops)
    (taken : Transition.run step new ops = some (outs, m)) (fd : Nat) (events : BitVec 32)
    (granted : Bool) :
    m.Deliverable (.deliver fd events granted) ↔
      (∀ e, (m.slot fd).Has e → ¬ Reports events e) ∨
        m.epoll_ctl_ok .DEL (m.slot fd).fd granted = false ∨
        ∀ e, Reports events e → (m.slot fd).Has e := by
  have start : (new : IOManager β).Known := by
    intro fd e has
    rw [slot_new] at has
    exact absurd BitVec.zero_and has
  have known : m.Known :=
    Transition.run_invariant (fun _ _ _ _ => Known.step) start scheduled taken
  simp only [Deliverable]
  have same : (∀ e, Reports events e →
      (m.slot fd).Has e ∧ ((m.slot fd).context e).scheduler.isSome) ↔
      ∀ e, Reports events e → (m.slot fd).Has e :=
    ⟨fun all e reports => (all e reports).1,
      fun all e reports => ⟨all e reports, known fd e (all e reports)⟩⟩
  rw [same]

/-- A hang-up on a descriptor that waits to read only. -/
theorem deliver_hangup :
    ∃ outs m, Transition.run step (new : IOManager Nat)
      [.addEvent ⟨some 7, 1, .EXEC⟩ 3 .READ (some 40) true] = some (outs, m) ∧
      m.deliver 3 EPOLLHUP true = .error .notRegistered ∧
      ¬ Transition.Along step Safe (new : IOManager Nat)
        [.addEvent ⟨some 7, 1, .EXEC⟩ 3 .READ (some 40) true, .deliver 3 EPOLLHUP true] := by
  refine ⟨_, _, rfl, rfl, ?_⟩
  rintro ⟨-, later⟩
  exact (later _ _ rfl).1.1 rfl

end IOManager

end CorReactor
