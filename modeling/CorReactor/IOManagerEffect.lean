import CorReactor.IOManagerSlots

set_option autoImplicit false

/-! The effect of every completed operation of the manager. -/

namespace CorReactor

variable {β : Type}

/-! ### Triggering -/

namespace FdContext

def clear (fd_ctx : FdContext β) (event : Event) : FdContext β :=
  { fd_ctx with m_events := fd_ctx.m_events &&& ~~~event.bits }

@[simp] theorem clear_context (fd_ctx : FdContext β) (e e' : Event) :
    (fd_ctx.clear e).context e' = fd_ctx.context e' := by
  cases e' <;> rfl

theorem clear_has (fd_ctx : FdContext β) (e e' : Event) :
    (fd_ctx.clear e).Has e' ↔ fd_ctx.Has e' ∧ e' ≠ e := by
  unfold Has clear
  dsimp only
  rw [and_not_and]
  by_cases same : e = e'
  · simp only [same, ↓reduceIte, ne_eq, not_true_eq_false, and_false]
  · simp only [same, ↓reduceIte, ne_eq, Ne.symm same, not_false_eq_true, and_true]

theorem Clean.clear {fd_ctx : FdContext β} (clean : fd_ctx.Clean) (e : Event) :
    (fd_ctx.clear e).Clean := by
  have swap : (fd_ctx.m_events &&& ~~~e.bits) &&& ~~~(Event.READ.bits ||| Event.WRITE.bits) =
      (fd_ctx.m_events &&& ~~~(Event.READ.bits ||| Event.WRITE.bits)) &&& ~~~e.bits := by
    rw [BitVec.and_assoc, BitVec.and_assoc, BitVec.and_comm (~~~e.bits)]
  unfold Clean at clean ⊢
  change (fd_ctx.m_events &&& ~~~e.bits) &&& _ = 0
  rw [swap, clean]
  exact BitVec.zero_and

theorem getContext_real (fd_ctx : FdContext β) {e : Event} (real : e ≠ .NONE) :
    fd_ctx.getContext e = .ok (fd_ctx.context e) := by
  cases e
  · exact absurd rfl real
  · rfl
  · rfl

/-- What the context of the event schedules. -/
def delivery (fd_ctx : FdContext β) (event : Event) (scheduler : SchedulerId) : Delivery β where
  fd := fd_ctx.fd
  event := event
  scheduler := scheduler
  task := (fd_ctx.context event).task

theorem triggerEvent_ok {fd_ctx next : FdContext β} {event : Event} {d : Delivery β} :
    fd_ctx.triggerEvent event = .ok (d, next) ↔
      fd_ctx.Has event ∧ (fd_ctx.context event).scheduler = some d.scheduler ∧
        d = fd_ctx.delivery event d.scheduler ∧ next = fd_ctx.clear event := by
  unfold triggerEvent
  by_cases has : fd_ctx.Has event
  · have set : ¬ event.bits &&& fd_ctx.m_events = 0 := by
      rw [BitVec.and_comm]
      exact has
    have found := (fd_ctx.clear event).getContext_real has.real
    rw [clear_context] at found
    unfold FdContext.clear at found
    rw [if_neg set]
    dsimp only
    rw [found]
    cases null : (fd_ctx.context event).scheduler with
    | none => simp only [null, reduceCtorEq, false_and, and_false]
    | some scheduler =>
        simp only [null, Except.ok.injEq, Prod.mk.injEq, has, true_and, Option.some.injEq]
        constructor
        · rintro ⟨rfl, rfl⟩
          exact ⟨rfl, rfl, rfl⟩
        · rintro ⟨same, delivered, rfl⟩
          refine ⟨?_, rfl⟩
          rw [delivered, same]
          rfl
  · have unset : event.bits &&& fd_ctx.m_events = 0 := by
      rw [BitVec.and_comm]
      exact Decidable.not_not.mp has
    simp only [unset, ↓reduceIte, reduceCtorEq, has, false_and]

/-- The registered events `es` of a context are triggered one after the other, which
leaves the event contexts as they are. -/
structure Fired (fd_ctx next : FdContext β) (es : List Event) (ds : List (Delivery β)) : Prop where
  registered : ∀ e ∈ es, fd_ctx.Has e ∧ (fd_ctx.context e).scheduler.isSome
  deliveries : ∀ d ∈ ds, d.event ∈ es ∧
    (fd_ctx.context d.event).scheduler = some d.scheduler ∧
      d = fd_ctx.delivery d.event d.scheduler
  fd : next.fd = fd_ctx.fd
  context : ∀ e, next.context e = fd_ctx.context e
  has : ∀ e, next.Has e ↔ fd_ctx.Has e ∧ e ∉ es
  clean : fd_ctx.Clean → next.Clean

theorem Fired.refl (fd_ctx : FdContext β) : Fired fd_ctx fd_ctx [] [] where
  registered := fun _ member => absurd member List.not_mem_nil
  deliveries := fun _ member => absurd member List.not_mem_nil
  fd := rfl
  context := fun _ => rfl
  has := fun _ => ⟨fun has => ⟨has, List.not_mem_nil⟩, And.left⟩
  clean := id

theorem Fired.trigger {fd_ctx next last : FdContext β} {es : List Event} {ds : List (Delivery β)}
    {e : Event} {d : Delivery β} (fired : Fired fd_ctx next es ds)
    (triggered : next.triggerEvent e = .ok (d, last)) :
    Fired fd_ctx last (es ++ [e]) (ds ++ [d]) := by
  obtain ⟨has, scheduler, delivered, rfl⟩ := triggerEvent_ok.mp triggered
  rw [fired.context] at scheduler
  have name : d.event = e := by rw [delivered]; rfl
  refine ⟨?_, ?_, fired.fd, ?_, ?_, fun clean => (fired.clean clean).clear e⟩
  · intro e' member
    rcases List.mem_append.mp member with old | new
    · exact fired.registered e' old
    · rw [List.mem_singleton.mp new, scheduler]
      exact ⟨((fired.has e).mp has).1, rfl⟩
  · intro d' member
    rcases List.mem_append.mp member with old | new
    · obtain ⟨inside, rest⟩ := fired.deliveries d' old
      exact ⟨List.mem_append_left _ inside, rest⟩
    · rw [List.mem_singleton.mp new, name]
      refine ⟨List.mem_append_right _ (List.mem_singleton.mpr rfl), scheduler, ?_⟩
      rw [delivered]
      unfold delivery
      rw [fired.context, fired.fd]
  · intro e'
    rw [clear_context, fired.context]
  · intro e'
    rw [clear_has, fired.has, List.mem_append, List.mem_singleton, not_or, and_assoc]

theorem triggerIf_fired {fd_ctx : FdContext β} {due : Bool} {e : Event} {es : List Event}
    {r r' : List (Delivery β) × FdContext β × UInt64} (fired : Fired fd_ctx r.2.1 es r.1)
    (triggered : triggerIf due e r = .ok r') :
    Fired fd_ctx r'.2.1 (es ++ if due then [e] else []) r'.1 := by
  unfold triggerIf at triggered
  cases due with
  | false =>
      cases triggered
      simpa only [Bool.false_eq_true, ↓reduceIte, List.append_nil] using fired
  | true =>
      simp only [↓reduceIte] at triggered ⊢
      cases one : r.2.1.triggerEvent e with
      | error fault =>
          rw [one] at triggered
          cases triggered
      | ok p =>
          rw [one] at triggered
          cases triggered
          exact fired.trigger one

/-- `triggerEvent` completes on a registered event with a scheduler. -/
theorem triggerIf_completes {due : Bool} {e : Event}
    {r : List (Delivery β) × FdContext β × UInt64} :
    (∃ r', triggerIf due e r = .ok r') ↔
      (due = true → r.2.1.Has e ∧ (r.2.1.context e).scheduler.isSome) := by
  unfold triggerIf
  cases due with
  | false => exact ⟨fun _ impossible => absurd impossible Bool.false_ne_true, fun _ => ⟨r, rfl⟩⟩
  | true =>
      simp only [↓reduceIte, forall_const]
      constructor
      · rintro ⟨r', done⟩
        cases one : r.2.1.triggerEvent e with
        | error fault =>
            rw [one] at done
            cases done
        | ok p =>
            obtain ⟨has, scheduler, -, -⟩ := triggerEvent_ok.mp one
            rw [scheduler]
            exact ⟨has, rfl⟩
      · rintro ⟨has, known⟩
        obtain ⟨scheduler, found⟩ := Option.isSome_iff_exists.mp known
        have one : r.2.1.triggerEvent e = .ok (r.2.1.delivery e scheduler, r.2.1.clear e) :=
          triggerEvent_ok.mpr ⟨has, found, rfl, rfl⟩
        rw [one]
        exact ⟨_, rfl⟩

/-- What `addEvent` stores for the caller. -/
def registered (fd_ctx : FdContext β) (event : Event) (caller : Caller) (cb : Option β) :
    FdContext β :=
  { fd_ctx with m_events := fd_ctx.m_events ||| event.bits }.setContext event
    { scheduler := caller.scheduler
      fiber := if cb.isSome then none else some caller.fiber
      cb := cb }

theorem registerEvent_ok {fd_ctx next : FdContext β} {caller : Caller} {event : Event}
    {cb : Option β} (done : fd_ctx.registerEvent caller event cb = .ok next) :
    event ≠ .NONE ∧ next = fd_ctx.registered event caller cb := by
  unfold registerEvent at done
  unfold registered
  cases event with
  | NONE => cases done
  | READ | WRITE =>
      simp only [getContext, setContext] at done ⊢
      split at done
      · cases done
      · rename_i empty
        simp only [Bool.or_eq_true, not_or, Bool.not_eq_true, Option.isSome_eq_false_iff,
          Option.isNone_iff_eq_none] at empty
        obtain ⟨⟨-, fiber⟩, callback⟩ := empty
        refine ⟨Event.noConfusion, ?_⟩
        cases cb with
        | some cb =>
            cases done
            simp only [fiber, Option.isSome_some, ↓reduceIte]
        | none =>
            simp only at done
            split at done
            · cases done
            · cases done
              simp only [callback, Option.isSome_none, Bool.false_eq_true, ↓reduceIte]

/-- What `delEvent` leaves. -/
def deleted (fd_ctx : FdContext β) (event : Event) : FdContext β :=
  (fd_ctx.clear event).setContext event {}

theorem registered_has (fd_ctx : FdContext β) {e : Event} (real : e ≠ .NONE) (caller : Caller)
    (cb : Option β) (e' : Event) :
    (fd_ctx.registered e caller cb).Has e' ↔ e' = e ∨ fd_ctx.Has e' := by
  have events : (fd_ctx.registered e caller cb).m_events = fd_ctx.m_events ||| e.bits := by
    cases e <;> rfl
  unfold Has
  rw [events]
  exact or_and_ne_zero fd_ctx.m_events real

theorem registered_context (fd_ctx : FdContext β) {e : Event} (real : e ≠ .NONE) (caller : Caller)
    (cb : Option β) (e' : Event) :
    (fd_ctx.registered e caller cb).context e' =
      if e' = e then
        { scheduler := caller.scheduler
          fiber := if cb.isSome then none else some caller.fiber
          cb := cb }
      else fd_ctx.context e' := by
  cases e
  · exact absurd rfl real
  · cases e' <;> rfl
  · cases e' <;> rfl

theorem deleted_has (fd_ctx : FdContext β) (e e' : Event) :
    (fd_ctx.deleted e).Has e' ↔ fd_ctx.Has e' ∧ e' ≠ e := by
  have events : (fd_ctx.deleted e).m_events = (fd_ctx.clear e).m_events := by
    cases e <;> rfl
  rw [← clear_has]
  unfold Has
  rw [events]

theorem deleted_context (fd_ctx : FdContext β) {e : Event} (real : e ≠ .NONE) (e' : Event) :
    (fd_ctx.deleted e).context e' = if e' = e then {} else fd_ctx.context e' := by
  cases e
  · exact absurd rfl real
  · cases e' <;> rfl
  · cases e' <;> rfl

theorem registered_fd (fd_ctx : FdContext β) (e : Event) (caller : Caller) (cb : Option β) :
    (fd_ctx.registered e caller cb).fd = fd_ctx.fd := by
  cases e <;> rfl

theorem deleted_fd (fd_ctx : FdContext β) (e : Event) : (fd_ctx.deleted e).fd = fd_ctx.fd := by
  cases e <;> rfl

end FdContext

/-! ### Effects -/

/-- The operation is an `addEvent`. -/
def IOOp.Adds : IOOp β → Prop
  | .addEvent .. => True
  | _ => False

namespace IOManager

variable {m next : IOManager β}

/-- The operation reaches a call of `triggerEvent`: it finds a registered event, and the
kernel takes the change. -/
def Fires (m : IOManager β) : IOOp β → Prop
  | .cancelEvent fd event granted =>
      (m.slot fd.toNat).Has event ∧ m.epoll_ctl_ok .DEL fd.toNat granted
  | .cancelAll fd granted =>
      (m.slot fd.toNat).m_events ≠ 0 ∧ m.epoll_ctl_ok .DEL fd.toNat granted
  | .deliver fd events granted =>
      (∃ e, (m.slot fd).Has e ∧ Reports events e) ∧
        m.epoll_ctl_ok .DEL (m.slot fd).fd granted
  | _ => False

/-- `addEvent` registers: the kernel takes the change. -/
def Registers (m : IOManager β) (fd : Int) (granted : Bool) : Prop :=
  m.epoll_ctl_ok (if (m.slot fd.toNat).m_events ≠ 0 then .MOD else .ADD) fd.toNat granted

inductive Effect (m : IOManager β) : IOOp β → Outcome β → IOManager β → Prop
  | refused {caller : Caller} {fd : Int} {event : Event} {cb : Option β} {granted : Bool}
      {next : IOManager β} (refused : ¬ m.Registers fd granted) (slot : next.slot = m.slot) :
      Effect m (.addEvent caller fd event cb granted) ⟨.added (-1), []⟩ next
  | added {caller : Caller} {fd : Int} {event : Event} {cb : Option β} {granted : Bool}
      {next : IOManager β} (registers : m.Registers fd granted) (real : event ≠ .NONE)
      (free : ¬ (m.slot fd.toNat).Has event)
      (slot : next.slot = Function.update m.slot fd.toNat
        ((m.slot fd.toNat).registered event caller cb)) :
      Effect m (.addEvent caller fd event cb granted) ⟨.added 0, []⟩ next
  | kept {op : IOOp β} {ret : IORet} (quiet : ¬ m.Fires op)
      (other : ¬ op.Adds)
      (failed : ret ≠ .done true) : Effect m op ⟨ret, []⟩ m
  | deleted {fd : Int} {event : Event} {granted : Bool} {next : IOManager β}
      (has : (m.slot fd.toNat).Has event)
      (slot : next.slot = Function.update m.slot fd.toNat ((m.slot fd.toNat).deleted event)) :
      Effect m (.delEvent fd event granted) ⟨.done true, []⟩ next
  | fired {op : IOOp β} {out : Outcome β} {next : IOManager β} {fd : Nat} {fd_ctx : FdContext β}
      {es : List Event} (fires : m.Fires op) (any : es ≠ [])
      (fired : FdContext.Fired (m.slot fd) fd_ctx es out.deliveries)
      (slot : next.slot = Function.update m.slot fd fd_ctx) : Effect m op out next

theorem store_slot {fd : Nat} (inside : fd < m.m_fdContexts.length)
    (same : next.m_fdContexts = m.m_fdContexts) (fd_ctx : FdContext β) :
    (next.store fd fd_ctx).slot = Function.update m.slot fd fd_ctx := by
  have slots : next.slot = m.slot := by
    funext i
    unfold slot
    rw [same]
  rw [slot_store (same ▸ inside), slots]

/-- Past the end of the vector nothing is registered. -/
theorem slot_outside {fd : Int} (outside : m.m_fdContexts.length ≤ fd) :
    (m.slot fd.toNat).m_events = 0 := by
  have past : m.m_fdContexts.length ≤ fd.toNat := by omega
  rw [slot_of_le past]
  rfl

theorem has_outside {fd : Int} (outside : m.m_fdContexts.length ≤ fd) (e : Event) :
    ¬ (m.slot fd.toNat).Has e := by
  intro has
  apply has
  rw [slot_outside outside]
  exact BitVec.zero_and

/-! ### What an operation that returns has done -/

theorem addEvent_cases {caller : Caller} {fd : Int} {event : Event} {cb : Option β}
    {granted : Bool} {rt : Int} (done : m.addEvent caller fd event cb granted = .ok (rt, next)) :
    ∃ grown, m.findContext fd = .ok (m.slot fd.toNat, grown) ∧
      ¬ (m.slot fd.toNat).Has event ∧
      (rt = -1 ∧ next = grown ∧
          grown.epoll_ctl_ok (if (m.slot fd.toNat).m_events ≠ 0 then .MOD else .ADD) fd.toNat
            granted = false ∨
        ∃ changed,
          grown.epoll_ctl (if (m.slot fd.toNat).m_events ≠ 0 then .MOD else .ADD) fd.toNat
            (EPOLLET ||| (m.slot fd.toNat).m_events ||| event.bits) granted = some changed ∧
          event ≠ .NONE ∧ rt = 0 ∧
          next = { changed with m_pendingEventCount := changed.m_pendingEventCount + 1 }.store
            fd.toNat ((m.slot fd.toNat).registered event caller cb)) := by
  unfold addEvent at done
  cases found : m.findContext fd with
  | error fault =>
      rw [found] at done
      cases done
  | ok p =>
      obtain ⟨-, context, -, -, -⟩ := findContext_ok found
      rw [found] at done
      dsimp only at done
      rw [context] at done
      refine ⟨p.2, by rw [← context], ?_⟩
      by_cases has : (m.slot fd.toNat).m_events &&& event.bits ≠ 0
      · rw [if_pos has] at done
        cases done
      · rw [if_neg has] at done
        refine ⟨has, ?_⟩
        split at done
        · rename_i refused
          cases done
          exact Or.inl ⟨rfl, rfl, epoll_ctl_none.mp refused⟩
        · rename_i changed taken
          split at done
          · cases done
          · rename_i fd_ctx registered
            obtain ⟨real, rfl⟩ := FdContext.registerEvent_ok registered
            cases done
            exact Or.inr ⟨changed, taken, real, rfl, rfl⟩

theorem delEvent_cases {fd : Int} {event : Event} {granted : Bool} {ok : Bool}
    (done : m.delEvent fd event granted = .ok (ok, next)) :
    ok = false ∧ next = m ∨
      ∃ changed, fd.toNat < m.m_fdContexts.length ∧ (m.slot fd.toNat).Has event ∧
        m.epoll_ctl (if (m.slot fd.toNat).m_events &&& ~~~event.bits ≠ 0 then .MOD else .DEL)
          fd.toNat (EPOLLET ||| (m.slot fd.toNat).m_events &&& ~~~event.bits) granted =
            some changed ∧
        ok = true ∧
        next = { changed with m_pendingEventCount := changed.m_pendingEventCount - 1 }.store
          fd.toNat ((m.slot fd.toNat).deleted event) := by
  unfold delEvent at done
  split at done
  · cases done
    exact Or.inl ⟨rfl, rfl⟩
  · split at done
    · cases done
    · rename_i fd_ctx found
      obtain ⟨inside, rfl⟩ := contextAt_ok found
      split at done
      · cases done
        exact Or.inl ⟨rfl, rfl⟩
      · rename_i has
        dsimp only at done
        split at done
        · cases done
          exact Or.inl ⟨rfl, rfl⟩
        · rename_i changed taken
          have given : (m.slot fd.toNat).Has event := has
          have context := ((m.slot fd.toNat).clear event).getContext_real given.real
          unfold FdContext.clear at context
          rw [context] at done
          cases done
          exact Or.inr ⟨changed, inside, given, taken, rfl, rfl⟩

theorem cancelEvent_cases {fd : Int} {event : Event} {granted : Bool}
    {r : Bool × List (Delivery β)} (done : m.cancelEvent fd event granted = .ok (r, next)) :
    r = (false, []) ∧ next = m ∧ ¬ m.Fires (.cancelEvent (β := β) fd event granted) ∨
      ∃ changed delivery, fd.toNat < m.m_fdContexts.length ∧
        m.Fires (.cancelEvent (β := β) fd event granted) ∧
        m.epoll_ctl (if (m.slot fd.toNat).m_events &&& ~~~event.bits ≠ 0 then .MOD else .DEL)
          fd.toNat
          ((m.slot fd.toNat).m_events ||| (m.slot fd.toNat).m_events &&& ~~~event.bits) granted =
            some changed ∧
        (m.slot fd.toNat).triggerEvent event = .ok (delivery, (m.slot fd.toNat).clear event) ∧
        r = (true, [delivery]) ∧
        next = { changed with m_pendingEventCount := changed.m_pendingEventCount - 1 }.store
          fd.toNat ((m.slot fd.toNat).clear event) := by
  unfold cancelEvent at done
  split at done
  · rename_i outside
    cases done
    exact Or.inl ⟨rfl, rfl, fun fires => has_outside outside event fires.1⟩
  · split at done
    · cases done
    · rename_i fd_ctx found
      obtain ⟨inside, rfl⟩ := contextAt_ok found
      split at done
      · rename_i none
        cases done
        exact Or.inl ⟨rfl, rfl, fun fires => fires.1 none⟩
      · rename_i has
        dsimp only at done
        split at done
        · rename_i refused
          rw [epoll_ctl_none, epoll_ctl_ok_left] at refused
          cases done
          exact Or.inl ⟨rfl, rfl, fun fires =>
            Bool.false_ne_true (refused.symm.trans fires.2)⟩
        · rename_i changed taken
          have ok := (epoll_ctl_some taken).1
          rw [epoll_ctl_ok_left] at ok
          split at done
          · cases done
          · rename_i delivery fd_ctx triggered
            obtain rfl := (FdContext.triggerEvent_ok.mp triggered).2.2.2
            cases done
            exact Or.inr ⟨changed, delivery, inside, ⟨has, ok⟩, taken, triggered, rfl, rfl⟩

theorem cancelAll_cases {fd : Int} {granted : Bool} {r : Bool × List (Delivery β)}
    (done : m.cancelAll fd granted = .ok (r, next)) :
    r = (false, []) ∧ next = m ∧ ¬ m.Fires (.cancelAll (β := β) fd granted) ∨
      ∃ changed first last, fd.toNat < m.m_fdContexts.length ∧
        m.Fires (.cancelAll (β := β) fd granted) ∧
        m.epoll_ctl .DEL fd.toNat 0 granted = some changed ∧
        FdContext.triggerIf ((m.slot fd.toNat).m_events &&& Event.READ.bits ≠ 0) .READ
          ([], m.slot fd.toNat, changed.m_pendingEventCount) = .ok first ∧
        FdContext.triggerIf (first.2.1.m_events &&& Event.WRITE.bits ≠ 0) .WRITE first =
          .ok last ∧
        last.2.1.m_events = 0 ∧ r = (true, last.1) ∧
        next = { changed with m_pendingEventCount := last.2.2 }.store fd.toNat last.2.1 := by
  unfold cancelAll at done
  split at done
  · rename_i outside
    cases done
    exact Or.inl ⟨rfl, rfl, fun fires => fires.1 (slot_outside outside)⟩
  · split at done
    · cases done
    · rename_i fd_ctx found
      obtain ⟨inside, rfl⟩ := contextAt_ok found
      split at done
      · rename_i none
        cases done
        exact Or.inl ⟨rfl, rfl, fun fires => fires.1 none⟩
      · rename_i some
        split at done
        · rename_i refused
          rw [epoll_ctl_none] at refused
          cases done
          exact Or.inl ⟨rfl, rfl, fun fires =>
            Bool.false_ne_true (refused.symm.trans fires.2)⟩
        · rename_i changed taken
          have ok := (epoll_ctl_some taken).1
          split at done
          · cases done
          · rename_i first read
            split at done
            · cases done
            · rename_i write
              split at done
              · cases done
              · rename_i none_left
                cases done
                exact Or.inr ⟨changed, first, _, inside, ⟨some, ok⟩, taken, read, write,
                  Decidable.not_not.mp none_left, rfl, rfl⟩

theorem deliver_cases {fd : Nat} {events : BitVec 32} {granted : Bool}
    {ds : List (Delivery β)} (done : m.deliver fd events granted = .ok (ds, next)) :
    ds = [] ∧ next = m ∧ ¬ m.Fires (.deliver (β := β) fd events granted) ∨
      ∃ changed first last, fd < m.m_fdContexts.length ∧
        m.Fires (.deliver (β := β) fd events granted) ∧
        m.epoll_ctl (if (m.slot fd).m_events &&& ~~~realEvents events ≠ 0 then .MOD else .DEL)
          (m.slot fd).fd (EPOLLET ||| (m.slot fd).m_events &&& ~~~realEvents events) granted =
            some changed ∧
        FdContext.triggerIf (realEvents events &&& Event.READ.bits ≠ 0) .READ
          ([], m.slot fd, changed.m_pendingEventCount) = .ok first ∧
        FdContext.triggerIf (realEvents events &&& Event.WRITE.bits ≠ 0) .WRITE first =
          .ok last ∧
        ds = last.1 ∧
        next = { changed with m_pendingEventCount := last.2.2 }.store fd last.2.1 := by
  unfold deliver at done
  split at done
  · cases done
  · rename_i fd_ctx found
    obtain rfl := slot_of_get found
    have inside := (List.getElem?_eq_some_iff.mp found).1
    dsimp only at done
    split at done
    · rename_i nothing
      cases done
      refine Or.inl ⟨rfl, rfl, fun fires => ?_⟩
      obtain ⟨⟨e, has, reports⟩, -⟩ := fires
      exact (and_realEvents _ events).mp nothing e has reports
    · rename_i something
      have reported : ∃ e, (m.slot fd).Has e ∧ Reports events e := by
        by_contra none
        apply something
        rw [and_realEvents]
        intro e has reports
        exact none ⟨e, has, reports⟩
      split at done
      · rename_i refused
        rw [epoll_ctl_none, epoll_ctl_ok_left] at refused
        cases done
        exact Or.inl ⟨rfl, rfl, fun fires =>
          Bool.false_ne_true (refused.symm.trans fires.2)⟩
      · rename_i changed taken
        have ok := (epoll_ctl_some taken).1
        rw [epoll_ctl_ok_left] at ok
        split at done
        · cases done
        · rename_i first read
          split at done
          · cases done
          · rename_i write
            cases done
            exact Or.inr ⟨changed, first, _, inside, ⟨reported, ok⟩, taken, read, write, rfl, rfl⟩

/-! ### One operation -/

theorem addEvent_effect {caller : Caller} {fd : Int} {event : Event} {cb : Option β}
    {granted : Bool} {rt : Int} (done : m.addEvent caller fd event cb granted = .ok (rt, next)) :
    Effect m (.addEvent caller fd event cb granted) ⟨.added rt, []⟩ next := by
  obtain ⟨grown, found, free, result⟩ := addEvent_cases done
  obtain ⟨inside, -, slots, interest, -⟩ := findContext_ok found
  have kernel := epoll_ctl_ok_congr interest
  obtain ⟨rfl, rfl, refused⟩ | ⟨changed, taken, real, rfl, rfl⟩ := result
  · rw [kernel] at refused
    apply Effect.refused _ slots
    unfold Registers
    rw [refused]
    exact Bool.false_ne_true
  · obtain ⟨ok, same, -⟩ := epoll_ctl_some taken
    rw [kernel] at ok
    apply Effect.added ok real free
    exact (store_slot inside same _).trans (by rw [slots])

theorem delEvent_effect {fd : Int} {event : Event} {granted : Bool} {ok : Bool}
    (done : m.delEvent fd event granted = .ok (ok, next)) :
    Effect m (.delEvent fd event granted) ⟨.done ok, []⟩ next := by
  obtain ⟨rfl, rfl⟩ | ⟨changed, inside, has, taken, rfl, rfl⟩ := delEvent_cases done
  · apply Effect.kept id id
    decide
  · apply Effect.deleted has
    exact store_slot inside (epoll_ctl_some taken).2.1 _

theorem cancelEvent_effect {fd : Int} {event : Event} {granted : Bool}
    {r : Bool × List (Delivery β)} (done : m.cancelEvent fd event granted = .ok (r, next)) :
    Effect m (.cancelEvent fd event granted) ⟨.done r.1, r.2⟩ next := by
  obtain ⟨rfl, rfl, quiet⟩ | ⟨changed, delivery, inside, fires, taken, triggered, rfl, rfl⟩ :=
    cancelEvent_cases done
  · apply Effect.kept quiet id
    intro same
    cases same
  · have fired := (FdContext.Fired.refl _).trigger triggered
    exact Effect.fired fires (List.cons_ne_nil _ _) fired
      (store_slot inside (epoll_ctl_some taken).2.1 _)

/-- The events that `cancelAll` and `idle` trigger, in their order. -/
def dueEvents (read write : Bool) : List Event :=
  (if read then [.READ] else []) ++ if write then [.WRITE] else []

theorem dueEvents_ne_nil {read write : Bool} (any : read = true ∨ write = true) :
    dueEvents read write ≠ [] := by
  unfold dueEvents
  rcases any with rfl | rfl
  · exact List.cons_ne_nil _ _
  · cases read <;> exact List.cons_ne_nil _ _

theorem triggers_fired {fd_ctx : FdContext β} {count : UInt64} {read write : Bool}
    {r r' : List (Delivery β) × FdContext β × UInt64}
    (first : FdContext.triggerIf read .READ ([], fd_ctx, count) = .ok r)
    (second : FdContext.triggerIf write .WRITE r = .ok r') :
    FdContext.Fired fd_ctx r'.2.1 (dueEvents read write) r'.1 :=
  FdContext.triggerIf_fired (FdContext.triggerIf_fired (FdContext.Fired.refl fd_ctx) first) second

theorem triggers_none {fd_ctx : FdContext β} {count : UInt64}
    {r r' : List (Delivery β) × FdContext β × UInt64}
    (first : FdContext.triggerIf false .READ ([], fd_ctx, count) = .ok r)
    (second : FdContext.triggerIf false .WRITE r = .ok r') : r'.2.1 = fd_ctx := by
  cases first
  cases second
  rfl

theorem cancelAll_effect {fd : Int} {granted : Bool} {r : Bool × List (Delivery β)}
    (done : m.cancelAll fd granted = .ok (r, next)) :
    Effect m (.cancelAll fd granted) ⟨.done r.1, r.2⟩ next := by
  obtain ⟨rfl, rfl, quiet⟩ |
    ⟨changed, first, last, inside, fires, taken, read, write, none_left, rfl, rfl⟩ :=
    cancelAll_cases done
  · apply Effect.kept quiet id
    intro same
    cases same
  · have fired := triggers_fired read write
    -- Had nothing been triggered, the last assertion would have failed.
    have any : decide ((m.slot fd.toNat).m_events &&& Event.READ.bits ≠ 0) = true ∨
        decide (first.2.1.m_events &&& Event.WRITE.bits ≠ 0) = true := by
      by_contra neither
      rw [not_or, Bool.not_eq_true, Bool.not_eq_true] at neither
      rw [neither.1] at read
      rw [neither.2] at write
      rw [triggers_none read write] at none_left
      exact fires.1 none_left
    exact Effect.fired fires (dueEvents_ne_nil any) fired
      (store_slot inside (epoll_ctl_some taken).2.1 _)

theorem deliver_effect {fd : Nat} {events : BitVec 32} {granted : Bool}
    {ds : List (Delivery β)} (done : m.deliver fd events granted = .ok (ds, next)) :
    Effect m (.deliver fd events granted) ⟨.delivered, ds⟩ next := by
  obtain ⟨rfl, rfl, quiet⟩ |
    ⟨changed, first, last, inside, fires, taken, read, write, rfl, rfl⟩ := deliver_cases done
  · apply Effect.kept quiet id
    decide
  · have fired := triggers_fired read write
    have any : decide (realEvents events &&& Event.READ.bits ≠ 0) = true ∨
        decide (realEvents events &&& Event.WRITE.bits ≠ 0) = true := by
      rw [decide_eq_true_eq, decide_eq_true_eq, realEvents_has, realEvents_has]
      obtain ⟨⟨e, -, reports⟩, -⟩ := fires
      cases e with
      | NONE => cases reports
      | READ => exact Or.inl reports
      | WRITE => exact Or.inr reports
    exact Effect.fired fires (dueEvents_ne_nil any) fired
      (store_slot inside (epoll_ctl_some taken).2.1 _)

theorem map_ok {α γ : Type} {x : Except IOFault α} {f : α → γ} {y : γ} (done : x.map f = .ok y) :
    ∃ a, x = .ok a ∧ f a = y := by
  cases x with
  | error fault => cases done
  | ok a =>
      cases done
      exact ⟨a, rfl, rfl⟩

theorem exec_of_step {op : IOOp β} {out : Outcome β} (taken : m.step op = some (out, next)) :
    m.exec op = .ok (out, next) := by
  unfold step at taken
  cases result : m.exec op with
  | error fault =>
      rw [result] at taken
      cases taken
  | ok r =>
      rw [result] at taken
      cases taken
      rfl

/-- Every completed operation has its effect. -/
theorem step_effect {op : IOOp β} {out : Outcome β} (taken : m.step op = some (out, next)) :
    Effect m op out next := by
  have done := exec_of_step taken
  cases op with
  | addEvent caller fd event cb granted =>
      obtain ⟨r, result, same⟩ := map_ok done
      cases same
      exact addEvent_effect result
  | delEvent fd event granted =>
      obtain ⟨r, result, same⟩ := map_ok done
      cases same
      exact delEvent_effect result
  | cancelEvent fd event granted =>
      obtain ⟨r, result, same⟩ := map_ok done
      cases same
      exact cancelEvent_effect result
  | cancelAll fd granted =>
      obtain ⟨r, result, same⟩ := map_ok done
      cases same
      exact cancelAll_effect result
  | deliver fd events granted =>
      obtain ⟨r, result, same⟩ := map_ok done
      cases same
      exact deliver_effect result

end IOManager

end CorReactor
