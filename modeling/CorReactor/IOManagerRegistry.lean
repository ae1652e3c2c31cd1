import CorReactor.IOManagerEffect

set_option autoImplicit false

/-! The event contexts against a registry of what the callers asked for. -/

namespace CorReactor

variable {β : Type}

/-! ### Bits and contexts -/

def EventContext.Empty (ctx : EventContext β) : Prop :=
  ctx.scheduler = none ∧ ctx.fiber = none ∧ ctx.cb = none

/-- A scheduler, and either a fiber or a callback. -/
def EventContext.Registered (ctx : EventContext β) : Prop :=
  ctx.scheduler.isSome ∧ (ctx.fiber.isSome ∧ ctx.cb = none ∨ ctx.fiber = none ∧ ctx.cb.isSome)

/-- The bits say which of the two event contexts are in use. -/
def FdContext.Linked (fd_ctx : FdContext β) : Prop :=
  ∀ e, e ≠ .NONE →
    (¬ fd_ctx.Has e → (fd_ctx.context e).Empty) ∧ (fd_ctx.Has e → (fd_ctx.context e).Registered)

def IOManager.Linked (m : IOManager β) : Prop := ∀ fd, (m.slot fd).Linked

/-! ### The registry -/

/-- What a caller wants scheduled, and where. -/
structure Registration (β : Type) where
  scheduler : Option SchedulerId
  task : Option (Task β)

def FdContext.registration (fd_ctx : FdContext β) (event : Event) : Registration β where
  scheduler := (fd_ctx.context event).scheduler
  task := (fd_ctx.context event).task

def Delivery.registration (delivery : Delivery β) : Registration β where
  scheduler := some delivery.scheduler
  task := delivery.task

/-- The latest registration of each descriptor and event that is neither deleted nor
delivered. -/
abbrev Registry (β : Type) := Nat → Event → Option (Registration β)

namespace Registry

def set (registry : Registry β) (fd : Nat) (event : Event) (entry : Option (Registration β)) :
    Registry β :=
  Function.update registry fd (Function.update (registry fd) event entry)

/-- Follow a completed operation. -/
def after (registry : Registry β) (op : IOOp β) (out : Outcome β) : Registry β :=
  match op, out.ret with
  | .addEvent caller fd event cb _, .added 0 =>
      let task := match cb with
        | some cb => .cb cb
        | none => .fiber caller.fiber
      registry.set fd.toNat event (some { scheduler := caller.scheduler, task := some task })
  | .delEvent fd event _, .done true => registry.set fd.toNat event none
  | _, _ => out.deliveries.foldl (fun r d => r.set d.fd d.event none) registry

theorem set_apply (registry : Registry β) (fd fd' : Nat) (e e' : Event)
    (entry : Option (Registration β)) :
    registry.set fd e entry fd' e' = if fd' = fd ∧ e' = e then entry else registry fd' e' := by
  unfold set
  by_cases same : fd' = fd
  · subst same
    rw [Function.update_self, Function.update_apply]
    simp only [true_and]
  · rw [Function.update_of_ne same]
    simp only [same, false_and, ↓reduceIte]

end Registry

/-- The manager with the registry beside it. -/
structure Observed (β : Type) where
  manager : IOManager β
  registry : Registry β

namespace Observed

def new : Observed β := ⟨IOManager.new, fun _ _ => none⟩

def step : Transition.Step (Observed β) (IOOp β) (Outcome β) := fun o op =>
  (o.manager.step op).map fun r => (r.1, ⟨r.2, o.registry.after op r.1⟩)

/-- The contexts match the bits, `addEvent` never finds a context in use, and what the
next operation schedules is what was registered last. -/
structure Faithful (o : Observed β) : Prop where
  linked : o.manager.Linked
  adds : ∀ caller fd event cb granted,
    o.manager.addEvent caller fd event cb granted ≠ .error .contextNotEmpty
  delivers : ∀ op out m, o.manager.step op = some (out, m) →
    ∀ d ∈ out.deliveries, o.registry d.fd d.event = some d.registration

end Observed

/-! ### The condition -/

/-- The operation triggers no event, and a thread that registers one has a scheduler. -/
def IOManager.Quiet (m : IOManager β) : IOOp β → Prop
  | .addEvent caller fd _ _ granted => m.Registers fd granted → caller.scheduler.isSome
  | op => ¬ m.Fires op

/-! ### What is kept -/

namespace FdContext

theorem registered_linked {fd_ctx : FdContext β} (linked : fd_ctx.Linked) {e : Event}
    (real : e ≠ .NONE) {caller : Caller} (known : caller.scheduler.isSome) (cb : Option β) :
    (fd_ctx.registered e caller cb).Linked := by
  intro e' real'
  rw [registered_has fd_ctx real, registered_context fd_ctx real]
  by_cases same : e' = e
  · simp only [same, true_or, not_true_eq_false, ↓reduceIte, false_implies, true_and, forall_const]
    refine ⟨known, ?_⟩
    cases cb with
    | none => exact Or.inl ⟨rfl, rfl⟩
    | some cb => exact Or.inr ⟨rfl, rfl⟩
  · simp only [same, false_or, ↓reduceIte]
    exact linked e' real'

theorem deleted_linked {fd_ctx : FdContext β} (linked : fd_ctx.Linked) {e : Event}
    (real : e ≠ .NONE) : (fd_ctx.deleted e).Linked := by
  intro e' real'
  rw [deleted_has, deleted_context fd_ctx real]
  by_cases same : e' = e
  · subst same
    simp only [ne_eq, not_true_eq_false, and_false, not_false_eq_true, ↓reduceIte, forall_const,
      false_implies, and_true]
    exact ⟨rfl, rfl, rfl⟩
  · simp only [same, ne_eq, not_false_eq_true, and_true, ↓reduceIte]
    exact linked e' real'

end FdContext

namespace IOManager

variable {m next : IOManager β}

theorem Quiet.not_fires {op : IOOp β} (quiet : m.Quiet op) : ¬ m.Fires op := by
  cases op with
  | addEvent => exact id
  | delEvent | cancelEvent | cancelAll | deliver => exact quiet

theorem contextAt_error {fd : Int} {fault : IOFault} (failed : m.contextAt fd = .error fault) :
    fault = .badIndex := by
  unfold contextAt at failed
  split at failed
  · cases failed
    rfl
  · split at failed
    · cases failed
      rfl
    · cases failed

theorem findContext_error {fd : Int} {fault : IOFault} (failed : m.findContext fd = .error fault) :
    fault ≠ .contextNotEmpty := by
  have at_fd : ∀ n : IOManager β, (n.contextAt fd).map (fun c => (c, n)) = .error fault →
      fault ≠ .contextNotEmpty := by
    intro n failed
    cases found : n.contextAt fd with
    | error other =>
        rw [found] at failed
        cases failed
        rw [contextAt_error found]
        decide
    | ok c =>
        rw [found] at failed
        cases failed
  unfold findContext at failed
  split at failed
  · exact at_fd m failed
  · split at failed
    · cases failed
      decide
    · dsimp only at failed
      split at failed
      · exact at_fd _ failed
      · cases failed
        decide

/-- While the bits and the contexts match, a free event has an empty context. -/
theorem Linked.adds (linked : m.Linked) (caller : Caller) (fd : Int) (event : Event)
    (cb : Option β) (granted : Bool) :
    m.addEvent caller fd event cb granted ≠ .error .contextNotEmpty := by
  intro failed
  unfold addEvent at failed
  split at failed
  · rename_i fault missing
    cases failed
    exact findContext_error missing rfl
  · rename_i fd_ctx grown found
    obtain ⟨-, rfl, -, -, -⟩ := findContext_ok found
    split at failed
    · cases failed
    · rename_i free
      dsimp only at failed
      split at failed
      · cases failed
      · split at failed
        · rename_i fault stopped
          cases failed
          unfold FdContext.registerEvent at stopped
          cases event with
          | NONE => cases stopped
          | READ =>
              obtain ⟨scheduler, fiber, callback⟩ := (linked fd.toNat .READ (by decide)).1 free
              simp only [FdContext.context] at scheduler fiber callback
              simp only [FdContext.getContext, scheduler, fiber, callback, Option.isSome_none,
                Bool.or_self, Bool.false_eq_true, ↓reduceIte] at stopped
              split at stopped
              · cases stopped
              · split at stopped <;> cases stopped
          | WRITE =>
              obtain ⟨scheduler, fiber, callback⟩ := (linked fd.toNat .WRITE (by decide)).1 free
              simp only [FdContext.context] at scheduler fiber callback
              simp only [FdContext.getContext, scheduler, fiber, callback, Option.isSome_none,
                Bool.or_self, Bool.false_eq_true, ↓reduceIte] at stopped
              split at stopped
              · cases stopped
              · split at stopped <;> cases stopped
        · cases failed

end IOManager

namespace Observed

/-- The invariant of runs that meet the condition. -/
structure Kept (o : Observed β) : Prop where
  fd : ∀ fd, (o.manager.slot fd).fd = fd
  linked : o.manager.Linked
  registry : ∀ fd e, (o.manager.slot fd).Has e →
    o.registry fd e = some ((o.manager.slot fd).registration e)

theorem slot_new (fd : Nat) : (new : Observed β).manager.slot fd = { fd := fd } :=
  IOManager.slot_new fd

theorem new_kept : Kept (new : Observed β) where
  fd := fun fd => congrArg FdContext.fd (slot_new fd)
  linked := by
    intro fd e real
    rw [slot_new]
    refine ⟨fun _ => ?_, fun has => absurd BitVec.zero_and has⟩
    cases e <;> exact ⟨rfl, rfl, rfl⟩
  registry := by
    intro fd e has
    rw [slot_new] at has
    exact absurd BitVec.zero_and has

theorem Kept.faithful {o : Observed β} (kept : Kept o) : Faithful o where
  linked := kept.linked
  adds := kept.linked.adds
  delivers := by
    intro op out m taken d member
    cases IOManager.step_effect taken with
    | refused | added | kept | deleted => exact absurd member List.not_mem_nil
    | fired fires any fired slot =>
        obtain ⟨inside, scheduler, delivered⟩ := fired.deliveries d member
        have known := kept.registry _ d.event (fired.registered d.event inside).1
        have fd : d.fd = _ := (congrArg Delivery.fd delivered).trans (kept.fd _)
        have task : d.task = _ := congrArg Delivery.task delivered
        rw [fd, known]
        unfold FdContext.registration Delivery.registration
        rw [scheduler, task]
        rfl

/-- A change of one context, and of the registry for its descriptor only. -/
theorem Kept.update {o next : Observed β} (kept : Kept o) {fd : Nat} {fd_ctx : FdContext β}
    (slot : next.manager.slot = Function.update o.manager.slot fd fd_ctx)
    (same_fd : fd_ctx.fd = fd) (linked : fd_ctx.Linked)
    (here : ∀ e, fd_ctx.Has e → next.registry fd e = some (fd_ctx.registration e))
    (others : ∀ fd', fd' ≠ fd → next.registry fd' = o.registry fd') : Kept next := by
  refine ⟨?_, ?_, ?_⟩
  · intro fd'
    rw [slot, Function.update_apply]
    split
    · rename_i same
      rw [same, same_fd]
    · exact kept.fd fd'
  · intro fd'
    rw [slot, Function.update_apply]
    split
    · exact linked
    · exact kept.linked fd'
  · intro fd' e
    rw [slot, Function.update_apply]
    split
    · rename_i same
      subst same
      exact here e
    · rename_i ne
      rw [others fd' ne]
      exact kept.registry fd' e

theorem Kept.same {o next : Observed β} (kept : Kept o)
    (slot : next.manager.slot = o.manager.slot) (registry : next.registry = o.registry) :
    Kept next := by
  refine ⟨?_, ?_, ?_⟩
  · rw [slot]
    exact kept.fd
  · intro fd
    rw [slot]
    exact kept.linked fd
  · rw [slot, registry]
    exact kept.registry

/-- A quiet operation keeps the invariant. -/
theorem Kept.step {o next : Observed β} {op : IOOp β} {out : Outcome β} (kept : Kept o)
    (quiet : o.manager.Quiet op) (taken : o.step op = some (out, next)) : Kept next := by
  obtain ⟨⟨out, m⟩, done, same⟩ := Option.map_eq_some_iff.mp taken
  cases same
  cases IOManager.step_effect done with
  | refused refused slot => exact kept.same slot rfl
  | @added caller fd event cb granted _ registers real free slot =>
      have linked := FdContext.registered_linked (kept.linked fd.toNat) real (quiet registers) cb
      have same_fd := (FdContext.registered_fd _ event caller cb).trans (kept.fd fd.toNat)
      refine kept.update slot same_fd linked ?_ ?_
      · intro e has
        change o.registry.set fd.toNat event _ fd.toNat e = _
        rw [Registry.set_apply]
        unfold FdContext.registration
        rw [FdContext.registered_context _ real]
        by_cases same : e = event
        · simp only [same, and_self, ↓reduceIte]
          cases cb <;> rfl
        · simp only [same, and_false, ↓reduceIte]
          rw [FdContext.registered_has _ real, or_iff_right same] at has
          exact kept.registry fd.toNat e has
      · intro fd' ne
        funext e
        change o.registry.set fd.toNat event _ fd' e = _
        rw [Registry.set_apply, if_neg fun both => ne both.1]
  | kept quiet other failed =>
      refine kept.same rfl ?_
      change o.registry.after op _ = o.registry
      unfold Registry.after
      split
      · exact absurd trivial other
      · exact absurd ‹_ = IORet.done true› failed
      · rfl
  | @deleted fd event granted _ has slot =>
      have linked := FdContext.deleted_linked (kept.linked fd.toNat) has.real
      have same_fd := (FdContext.deleted_fd _ event).trans (kept.fd fd.toNat)
      refine kept.update slot same_fd linked ?_ ?_
      · intro e still
        rw [FdContext.deleted_has] at still
        change o.registry.set fd.toNat event none fd.toNat e = _
        rw [Registry.set_apply, if_neg fun both => still.2 both.2]
        unfold FdContext.registration
        rw [FdContext.deleted_context _ has.real, if_neg still.2]
        exact kept.registry fd.toNat e still.1
      · intro fd' ne
        funext e
        change o.registry.set fd.toNat event none fd' e = _
        rw [Registry.set_apply, if_neg fun both => ne both.1]
  | fired fires any fired slot => exact absurd fires quiet.not_fires

/-- Any other completed operation leaves a context that does not match its bit. -/
theorem unfaithful {o next : Observed β} {op : IOOp β} {out : Outcome β}
    (loud : ¬ o.manager.Quiet op) (taken : o.step op = some (out, next)) : ¬ Faithful next := by
  obtain ⟨⟨out, m⟩, done, same⟩ := Option.map_eq_some_iff.mp taken
  cases same
  intro faithful
  cases IOManager.step_effect done with
  | refused refused slot => exact loud fun registers => absurd registers refused
  | @added caller fd event cb granted _ registers real free slot =>
      apply loud
      intro _
      have linked := (faithful.linked fd.toNat event real).2
      change (m.slot fd.toNat).Has event → _ at linked
      rw [slot, Function.update_self] at linked
      have registered := linked ((FdContext.registered_has _ real caller cb event).mpr (Or.inl rfl))
      rw [FdContext.registered_context _ real, if_pos rfl] at registered
      exact registered.1
  | kept quiet other failed =>
      cases op with
      | addEvent => exact other trivial
      | delEvent | cancelEvent | cancelAll | deliver => exact loud quiet
  | deleted has slot => exact loud id
  | @fired _ _ _ fd fd_ctx es fires any fired slot =>
      obtain ⟨e, member⟩ := List.exists_mem_of_ne_nil es any
      obtain ⟨has, scheduler⟩ := fired.registered e member
      have linked := (faithful.linked fd e has.real).1
      change ¬ (m.slot fd).Has e → ((m.slot fd).context e).Empty at linked
      rw [slot, Function.update_self, fired.context] at linked
      have empty := linked fun still => ((fired.has e).mp still).2 member
      rw [empty.1] at scheduler
      cases scheduler

/-- The manager is faithful in every state of a run exactly when every operation of the
run is quiet. -/
theorem run_faithful_iff {ops : List (IOOp β)} {outs : List (Outcome β)} {o : Observed β}
    (taken : Transition.run step new ops = some (outs, o)) :
    Transition.Always step Faithful new ops ↔
      Transition.Along step (fun s op => s.manager.Quiet op) new ops :=
  Transition.always_iff_along (fun _ => Kept.faithful) (fun _ _ _ _ => Kept.step)
    (fun _ _ _ _ _ => unfaithful) new_kept taken

/-- Registered, deleted and registered again. -/
theorem run_faithful_deleted :
    Transition.Always step Faithful (new : Observed Nat)
      [.addEvent ⟨some 7, 1, .EXEC⟩ 3 .READ (some 40) true, .delEvent 3 .READ true,
        .addEvent ⟨some 7, 1, .EXEC⟩ 3 .READ none true] := by
  have quiet : Transition.Along step (fun s op => s.manager.Quiet op) (new : Observed Nat)
      [.addEvent ⟨some 7, 1, .EXEC⟩ 3 .READ (some 40) true, .delEvent 3 .READ true,
        .addEvent ⟨some 7, 1, .EXEC⟩ 3 .READ none true] :=
    ⟨fun _ => rfl, fun _ _ _ => ⟨id, fun _ _ _ => ⟨fun _ => rfl, fun _ _ _ => trivial⟩⟩⟩
  exact (run_faithful_iff rfl).mpr quiet

/-- Once delivered, the callback is still in the event context, and registering the event
again stops at the assertion. -/
theorem delivered_not_faithful :
    ∃ outs o, Transition.run step (new : Observed Nat)
      [.addEvent ⟨some 7, 1, .EXEC⟩ 3 .READ (some 40) true, .deliver 3 EPOLLIN true] =
        some (outs, o) ∧
      o.manager.addEvent ⟨some 7, 1, .EXEC⟩ 3 .READ (some 41) true = .error .contextNotEmpty ∧
      ¬ Faithful o := by
  refine ⟨_, _, rfl, rfl, ?_⟩
  intro faithful
  exact faithful.adds ⟨some 7, 1, .EXEC⟩ 3 .READ (some 41) true rfl

end Observed

end CorReactor
