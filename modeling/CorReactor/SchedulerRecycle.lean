import CorReactor.SchedulerTasks

set_option autoImplicit false

/-! One worker and its `cb_fiber`: it is reset only while no task of it is queued, as long
as no callback returns with its own fiber still queued. -/

namespace CorReactor

variable {γ : Type}

/-- The fiber has run and is suspended, or has ended. -/
def Fiber.Parked (fiber : Fiber γ) : Prop := fiber.m_ctx = .saved ∧ fiber.m_state ≠ .EXEC

namespace Pc

/-- The fiber that `swapIn` has switched to and that is not settled yet. -/
def carried? : Pc γ → Option FiberId
  | .exec f _ | .swapOut f _ | .leave f _ | .settle f _ | .requeue f _ | .hold f _ => some f
  | _ => none

/-- The fiber that `Fiber::GetThis()` gives to the callback that executes. -/
def current? : Pc γ → Option FiberId
  | .exec f _ => some f
  | _ => none

/-- The next step is the worker's own. -/
def own : Pc γ → Bool
  | .exec .. | .idle | .wait | .work | .done => false
  | _ => true

end Pc

namespace Scheduler

/-! ### Programs of callbacks -/

/-- No queued task is of the fiber. -/
def Unqueued (queue : List (ScheduleTask γ)) (f : FiberId) : Prop :=
  ∀ ft ∈ queue, ft.fiber ≠ some f

instance (queue : List (ScheduleTask γ)) (f : FiberId) : Decidable (Unqueued queue f) :=
  inferInstanceAs (Decidable (∀ ft ∈ queue, _))

/-- The steps of a program of callbacks on worker 0: anyone schedules callbacks, and a
fiber is scheduled only by the callback that it executes. -/
def Program (s : Scheduler γ) : Act γ → Prop
  | .newFiber _ => False
  | .schedule (some (.fiber f)) _ => (s.worker 0).pc.current? = some f
  | .scheduleRange fcs => ∀ fc ∈ fcs, (ScheduleTask.of fc none).fiber = none
  | .run w | .yieldToHold w | .yieldToReady w | .finish w | .stopping w _ | .wake w
  | .idleDone w => w = 0
  | _ => True

instance (s : Scheduler γ) : DecidablePred s.Program
  | .newFiber _ => isFalse id
  | .schedule (some (.fiber f)) _ =>
      inferInstanceAs (Decidable ((s.worker 0).pc.current? = some f))
  | .scheduleRange fcs =>
      inferInstanceAs (Decidable (∀ fc ∈ fcs, (ScheduleTask.of fc none).fiber = none))
  | .run w | .yieldToHold w | .yieldToReady w | .finish w | .stopping w _ | .wake w
  | .idleDone w => inferInstanceAs (Decidable (w = 0))
  | .schedule none _ | .schedule (some (.cb _)) _ | .rangeTickle | .rangeWrite | .tickle
  | .tickleWrite | .stop => isTrue trivial

/-- A callback does not return from `cb_fiber` with that fiber still queued. -/
def Returns (s : Scheduler γ) : Act γ → Prop
  | .finish _ => ∀ f ∈ (s.worker 0).cb_fiber, (s.worker 0).pc.current? = some f →
      Unqueued s.m_fibers f
  | _ => True

instance (s : Scheduler γ) : DecidablePred s.Returns
  | .finish _ => inferInstanceAs (Decidable (∀ f ∈ (s.worker 0).cb_fiber,
      (s.worker 0).pc.current? = some f → Unqueued s.m_fibers f))
  | .newFiber _ | .schedule _ _ | .scheduleRange _ | .rangeTickle | .rangeWrite | .tickle
  | .tickleWrite | .stop | .run _ | .yieldToHold _ | .yieldToReady _ | .stopping _ _ | .wake _
  | .idleDone _ => isTrue trivial

/-- What holds of the worker: `cb_fiber` is not queued where it is reset, a fiber that is
swapped in has a callback or a context, and no assertion stops the worker. -/
structure Recycles (s : Scheduler γ) : Prop where
  recycle : ∀ f, (s.worker 0).pc = .recycle f → Unqueued s.m_fibers f
  reuse : ∀ ft f, (s.worker 0).pc = .dispatch (some ft) → (s.worker 0).cb_fiber = some f →
    Unqueued s.m_fibers f
  resume : ∀ f kind, (s.worker 0).pc = .resume f kind →
    (s.fiber f).m_cb.isSome ∨ (s.fiber f).m_ctx = .saved
  steps : (s.worker 0).pc.own = true → (s.runStep 0).isSome

/-! ### The invariant -/

/-- The fiber of the worker's place is its `cb_fiber`, or is not. -/
def Owned (cb_fiber : Option FiberId) (f : FiberId) : Kind → Prop
  | .task => cb_fiber ≠ some f
  | .pooled => cb_fiber = some f

/-- What is known of the fiber at each place of the worker. -/
def Place (queue : List (ScheduleTask γ)) (fiber : FiberId → Fiber γ) (cb_fiber : Option FiberId) :
    Pc γ → Prop
  | .tickle ft | .tickleWrite ft | .dispatch ft =>
      ∀ task f, ft = some task → task.fiber = some f → (fiber f).Parked ∧ cb_fiber ≠ some f
  | .resume f .task => (fiber f).Parked ∧ cb_fiber ≠ some f
  | .resume f .pooled =>
      cb_fiber = some f ∧ (fiber f).m_state = .INIT ∧ (fiber f).m_cb.isSome ∧ Unqueued queue f
  | .exec f kind => Owned cb_fiber f kind
  | .swapOut f kind =>
      Owned cb_fiber f kind ∧ (fiber f).m_state ≠ .EXEC ∧
        (kind = .pooled → (fiber f).alive = false → Unqueued queue f)
  | .leave f kind | .settle f kind =>
      Owned cb_fiber f kind ∧ (fiber f).Parked ∧
        (kind = .pooled → (fiber f).alive = false → Unqueued queue f)
  | .requeue f kind | .hold f kind => Owned cb_fiber f kind ∧ (fiber f).Parked
  | .recycle f => cb_fiber = some f ∧ (fiber f).alive = false ∧ Unqueued queue f
  | _ => True

/-- A queued fiber is the one that runs, or parked and no longer `cb_fiber`; a `cb_fiber`
that does not run is fresh and not queued. -/
structure Pooled (queue : List (ScheduleTask γ)) (fiber : FiberId → Fiber γ)
    (cb_fiber : Option FiberId) (pc : Pc γ) : Prop where
  place : Place queue fiber cb_fiber pc
  pool : ∀ f, cb_fiber = some f →
    pc.pooled? = some f ∨ (fiber f).m_state = .INIT ∧ Unqueued queue f
  queued : ∀ ft ∈ queue, ∀ f, ft.fiber = some f →
    pc.carried? = some f ∨ (fiber f).Parked ∧ cb_fiber ≠ some f

def Keeps (s : Scheduler γ) : Prop :=
  Pooled s.m_fibers s.fiber (s.worker 0).cb_fiber (s.worker 0).pc

theorem init_keeps : ({} : Scheduler γ).Keeps where
  place := trivial
  pool := by
    intro f pooled
    cases pooled
  queued := by
    intro ft member
    cases member

theorem Keeps.recycles {s : Scheduler γ} (keeps : s.Keeps) : s.Recycles := by
  have place := keeps.place
  have pool := keeps.pool
  constructor
  · intro f at_pc
    rw [at_pc] at place
    exact place.2.2
  · intro ft f at_pc pooled
    rcases pool f pooled with running | ⟨-, unqueued⟩
    · rw [at_pc] at running
      cases running
    · exact unqueued
  · intro f kind at_pc
    rw [at_pc] at place
    cases kind with
    | task => exact .inr place.1.1
    | pooled => exact .inl place.2.2.1
  · intro own
    have dispatchCb (ft : ScheduleTask γ) (at_pc : (s.worker 0).pc = .dispatch (some ft))
        (cb : γ) : (s.dispatchCb 0 cb).isSome := by
      unfold Scheduler.dispatchCb
      split
      · rename_i f pooled
        rw [Option.isSome_map]
        rcases pool f pooled with running | ⟨fresh, -⟩
        · rw [at_pc] at running
          cases running
        · exact Fiber.reset_isSome (.inl fresh) (some cb)
      · rfl
    unfold runStep
    cases at_pc : (s.worker 0).pc with
    | scan => dsimp only; split <;> rfl
    | dispatch ft =>
        rw [Option.isSome_map]
        cases ft with
        | none => rfl
        | some ft =>
            unfold dispatch
            dsimp only
            split
            · split
              · rfl
              · split
                · exact dispatchCb ft at_pc _
                · rfl
            · exact dispatchCb ft at_pc _
            · rfl
    | resume f kind =>
        rw [Option.isSome_map]
        rw [at_pc] at place
        unfold Fiber.swapIn
        cases kind with
        | task =>
            obtain ⟨⟨saved, idle⟩, -⟩ := place
            rw [if_neg idle, if_neg (fun empty => by rw [saved] at empty; cases empty.1)]
            rfl
        | pooled =>
            obtain ⟨-, fresh, callable, -⟩ := place
            rw [if_neg (fun exec => by rw [fresh] at exec; cases exec),
              if_neg (fun empty => by rw [empty.2] at callable; cases callable)]
            rfl
    | recycle f =>
        rw [Option.isSome_map]
        rw [at_pc] at place
        exact Fiber.reset_isSome (.inr place.2.1) none
    | exec | idle | wait | work | done =>
        rw [at_pc] at own
        cases own
    | _ => rfl

/-! ### One step -/

theorem Keeps.of {s next : Scheduler γ} {worker : Worker γ}
    (moved : next.worker = Function.update s.worker 0 worker)
    (pooled : Pooled next.m_fibers next.fiber worker.cb_fiber worker.pc) : next.Keeps := by
  unfold Keeps
  rw [moved, Function.update_self]
  exact pooled

section Moves

variable {queue : List (ScheduleTask γ)} {fiber : FiberId → Fiber γ} {cb_fiber : Option FiberId}
  {pc pc' : Pc γ} {f : FiberId} {kind : Kind}

/-- The worker moves on; what it carried stays with it, is parked or is not queued. -/
theorem Pooled.onward (pooled : Pooled queue fiber cb_fiber pc)
    (place : Place queue fiber cb_fiber pc')
    (pool : ∀ f, pc.pooled? = some f → pc'.pooled? = some f)
    (carried : ∀ f, pc.carried? = some f → pc'.carried? = some f ∨
      (fiber f).Parked ∧ cb_fiber ≠ some f ∨ Unqueued queue f) :
    Pooled queue fiber cb_fiber pc' := by
  refine ⟨place, ?_, ?_⟩
  · intro f own
    exact (pooled.pool f own).imp_left (pool f)
  · intro ft member f of_fiber
    rcases pooled.queued ft member f of_fiber with running | parked
    · rcases carried f running with still | parked | unqueued
      · exact .inl still
      · exact .inr parked
      · exact absurd of_fiber (unqueued ft member)
    · exact .inr parked

/-- A step between two places that name no fiber. -/
theorem Pooled.plain (pooled : Pooled queue fiber cb_fiber pc)
    (place : Place queue fiber cb_fiber pc') (pool : pc.pooled? = none)
    (carried : pc.carried? = none) : Pooled queue fiber cb_fiber pc' := by
  apply pooled.onward place
  · intro f own
    rw [pool] at own
    cases own
  · intro f running
    rw [carried] at running
    cases running

/-- The scan takes a task out of the queue. -/
theorem Pooled.scan (pooled : Pooled queue fiber cb_fiber .scan) (fits : ScheduleTask γ → Bool)
    (next : pc' = .tickle (queue.find? fits) ∨ pc' = .dispatch (queue.find? fits)) :
    Pooled (queue.eraseP fits) fiber cb_fiber pc' := by
  have found : ∀ task f, queue.find? fits = some task → task.fiber = some f →
      (fiber f).Parked ∧ cb_fiber ≠ some f := by
    intro task f here of_fiber
    have member := List.mem_of_find?_eq_some here
    exact (pooled.queued task member f of_fiber).resolve_left (fun running => by cases running)
  refine ⟨?_, ?_, ?_⟩
  · rcases next with rfl | rfl <;> exact found
  · intro f own
    obtain ⟨fresh, unqueued⟩ := (pooled.pool f own).resolve_left (fun running => by cases running)
    exact .inr ⟨fresh, fun ft member => unqueued ft (List.mem_of_mem_eraseP member)⟩
  · intro ft member f of_fiber
    have parked := pooled.queued ft (List.mem_of_mem_eraseP member) f of_fiber
    exact .inr (parked.resolve_left (fun running => by cases running))

/-- `swapIn` of the fiber that the worker is about to resume. -/
theorem Pooled.swapIn (pooled : Pooled queue fiber cb_fiber (.resume f kind)) (resumed : Fiber γ) :
    Pooled queue (Function.update fiber f resumed) cb_fiber (.exec f kind) := by
  have owned : Owned cb_fiber f kind := by
    cases kind with
    | task => exact pooled.place.2
    | pooled => exact pooled.place.1
  refine ⟨owned, ?_, ?_⟩
  · intro g own
    cases kind with
    | task =>
        have other : g ≠ f := by
          rintro rfl
          exact owned own
        rw [Function.update_of_ne other]
        exact .inr ((pooled.pool g own).resolve_left (fun running => by cases running))
    | pooled =>
        rw [owned] at own
        exact .inl own
  · intro ft member g of_fiber
    by_cases same : g = f
    · exact .inl (congrArg some same.symm)
    · rw [Function.update_of_ne same]
      have parked := pooled.queued ft member g of_fiber
      exact .inr (parked.resolve_left (fun running => by cases kind <;> cases running))

/-- The fiber that the worker carries changes while the worker keeps it. -/
theorem Pooled.carry (pooled : Pooled queue fiber cb_fiber pc) (changed : Fiber γ)
    (place : Place queue (Function.update fiber f changed) cb_fiber pc')
    (carried : pc.carried? = some f) (carried' : pc'.carried? = some f)
    (pool : ∀ g, pc.pooled? = some g → pc'.pooled? = some g)
    (owned : cb_fiber = some f → pc'.pooled? = some f) :
    Pooled queue (Function.update fiber f changed) cb_fiber pc' := by
  refine ⟨place, ?_, ?_⟩
  · intro g own
    by_cases same : g = f
    · rw [same] at own ⊢
      exact .inl (owned own)
    · rw [Function.update_of_ne same]
      exact (pooled.pool g own).imp_left (pool g)
  · intro ft member g of_fiber
    by_cases same : g = f
    · rw [same]
      exact .inl carried'
    · rw [Function.update_of_ne same]
      refine (pooled.queued ft member g of_fiber).imp_left fun running => ?_
      rw [carried] at running
      exact absurd (Option.some.inj running).symm same

/-- The fiber is put away, parked, and `cb_fiber` with it where it was that. -/
theorem Pooled.away (pooled : Pooled queue fiber cb_fiber pc) {changed : Fiber γ}
    {kept : Option FiberId} (carried : pc.carried? = some f) (parked : changed.Parked)
    (gone : kept ≠ some f)
    (pool : ∀ g, kept = some g → cb_fiber = some g ∧ pc.pooled? ≠ some g) :
    Pooled queue (Function.update fiber f changed) kept .scan := by
  refine ⟨trivial, ?_, ?_⟩
  · intro g own
    have other : g ≠ f := by
      rintro rfl
      exact gone own
    rw [Function.update_of_ne other]
    obtain ⟨before, idle⟩ := pool g own
    exact .inr ((pooled.pool g before).resolve_left idle)
  · intro ft member g of_fiber
    right
    by_cases same : g = f
    · rw [same, Function.update_self]
      exact ⟨parked, gone⟩
    · rw [Function.update_of_ne same]
      rcases pooled.queued ft member g of_fiber with running | ⟨still, other⟩
      · rw [carried] at running
        exact absurd (Option.some.inj running).symm same
      · refine ⟨still, ?_⟩
        intro own
        exact other (pool g own).1

/-- A fiber that is not queued is reset. -/
theorem Pooled.reset (pooled : Pooled queue fiber cb_fiber pc) (own : cb_fiber = some f)
    (unqueued : Unqueued queue f) (carried : pc.carried? = none) {changed : Fiber γ}
    (fresh : changed.m_state = .INIT)
    (place : Place queue (Function.update fiber f changed) cb_fiber pc') :
    Pooled queue (Function.update fiber f changed) cb_fiber pc' := by
  refine ⟨place, ?_, ?_⟩
  · intro g same
    rw [own] at same
    obtain rfl := Option.some.inj same
    rw [Function.update_self]
    exact .inr ⟨fresh, unqueued⟩
  · intro ft member g of_fiber
    have other : g ≠ f := by
      rintro rfl
      exact unqueued ft member of_fiber
    rw [Function.update_of_ne other]
    refine .inr ((pooled.queued ft member g of_fiber).resolve_left ?_)
    intro running
    rw [carried] at running
    cases running

/-- The carried fiber is settled as `cb_fiber` where it is that. -/
theorem Place.owns (place : Place queue fiber cb_fiber pc) (carried : pc.carried? = some f)
    (own : cb_fiber = some f) : pc.pooled? = some f := by
  have pooled {kind : Kind} (owned : Owned cb_fiber f kind) : kind = .pooled := by
    cases kind with
    | task => exact absurd own owned
    | pooled => rfl
  cases pc with
  | exec =>
      cases carried
      rw [pooled place]
      rfl
  | swapOut | leave | settle | requeue | hold =>
      cases carried
      rw [pooled place.1]
      rfl
  | _ => cases carried

/-- Tasks are pushed, of the carried fiber at most. -/
theorem Pooled.push (pooled : Pooled queue fiber cb_fiber pc) {extra : List (ScheduleTask γ)}
    (known : ∀ ft ∈ extra, ∀ f, ft.fiber = some f → pc.carried? = some f)
    (place : Place (queue ++ extra) fiber cb_fiber pc) :
    Pooled (queue ++ extra) fiber cb_fiber pc := by
  refine ⟨place, ?_, ?_⟩
  · intro f own
    rcases pooled.pool f own with running | ⟨fresh, unqueued⟩
    · exact .inl running
    · by_cases carried : pc.carried? = some f
      · exact .inl (place.owns carried own)
      · refine .inr ⟨fresh, ?_⟩
        intro ft member of_fiber
        rcases List.mem_append.mp member with old | new
        · exact unqueued ft old of_fiber
        · exact carried (known ft new f of_fiber)
  · intro ft member f of_fiber
    rcases List.mem_append.mp member with old | new
    · exact pooled.queued ft old f of_fiber
    · exact .inl (known ft new f of_fiber)

/-- Callbacks are pushed. -/
theorem Pooled.pushCallbacks (pooled : Pooled queue fiber cb_fiber pc)
    {extra : List (ScheduleTask γ)} (callbacks : ∀ ft ∈ extra, ft.fiber = none) :
    Pooled (queue ++ extra) fiber cb_fiber pc := by
  have of_none {f : FiberId} {ft : ScheduleTask γ} (member : ft ∈ extra) :
      ft.fiber ≠ some f := by
    rw [callbacks ft member]
    exact Option.some_ne_none f |>.symm
  have still (f : FiberId) (unqueued : Unqueued queue f) : Unqueued (queue ++ extra) f := by
    intro ft member
    rcases List.mem_append.mp member with old | new
    · exact unqueued ft old
    · exact of_none new
  apply pooled.push
  · intro ft member f of_fiber
    exact absurd of_fiber (of_none member)
  · have place := pooled.place
    cases pc with
    | resume f kind =>
        cases kind with
        | task => exact place
        | pooled => exact ⟨place.1, place.2.1, place.2.2.1, still f place.2.2.2⟩
    | swapOut f kind | leave f kind | settle f kind =>
        exact ⟨place.1, place.2.1, fun pooled dead => still f (place.2.2 pooled dead)⟩
    | recycle f => exact ⟨place.1, place.2.1, still f place.2.2⟩
    | _ => exact place

/-- A new fiber becomes `cb_fiber`. -/
theorem Pooled.fresh (pooled : Pooled queue fiber none pc) (carried : pc.carried? = none)
    (unqueued : Unqueued queue f) (cb : γ) :
    Pooled queue (Function.update fiber f (Fiber.new cb)) (some f) (.resume f .pooled) := by
  have here : Function.update fiber f (Fiber.new cb) f = Fiber.new cb := Function.update_self ..
  refine ⟨⟨rfl, ?_, ?_, unqueued⟩, fun g own => .inl own, ?_⟩
  · rw [here]
    rfl
  · rw [here]
    rfl
  · intro ft member g of_fiber
    have other : g ≠ f := by
      rintro rfl
      exact unqueued ft member of_fiber
    rw [Function.update_of_ne other]
    rcases pooled.queued ft member g of_fiber with running | ⟨parked, -⟩
    · rw [carried] at running
      cases running
    · exact .inr ⟨parked, fun same => other (Option.some.inj same).symm⟩

end Moves

/-- A callback gets the worker's `cb_fiber`, or a new one. -/
theorem Keeps.dispatchCb {s next : Scheduler γ} (keeps : s.Keeps) (created : s.Created)
    {ft : ScheduleTask γ} {cb : γ} (at_pc : (s.worker 0).pc = .dispatch (some ft))
    (done : s.dispatchCb 0 cb = some next) : next.Keeps := by
  unfold Keeps at keeps
  rw [at_pc] at keeps
  unfold Scheduler.dispatchCb at done
  split at done
  · rename_i f own
    obtain ⟨changed, reset, rfl⟩ := Option.map_eq_some_iff.mp done
    obtain ⟨-, unqueued⟩ := (keeps.pool f own).resolve_left (fun running => by cases running)
    have renewed : changed = { m_state := .INIT, m_cb := some cb, m_ctx := .entry } := by
      unfold Fiber.reset at reset
      split at reset
      · exact (Option.some.inj reset).symm
      · cases reset
    apply Keeps.of rfl
    have here : Function.update s.fiber f changed f = changed := Function.update_self ..
    apply keeps.reset own unqueued rfl (by rw [renewed])
    refine ⟨own, ?_, ?_, unqueued⟩
    · rw [here, renewed]
    · rw [here, renewed]
      rfl
  · rename_i none_own
    cases done
    rw [none_own] at keeps
    have unqueued : Unqueued s.m_fibers s.count := by
      intro it member of_fiber
      exact Nat.lt_irrefl _ (created.queued it member s.count of_fiber)
    exact Keeps.of rfl (keeps.fresh rfl unqueued cb)

theorem Keeps.dispatch {s next : Scheduler γ} (keeps : s.Keeps) (created : s.Created)
    {ft : Option (ScheduleTask γ)} (at_pc : (s.worker 0).pc = .dispatch ft)
    (done : s.dispatch 0 ft = some next) : next.Keeps := by
  have here := keeps
  unfold Keeps at here
  rw [at_pc] at here
  have skip {pc : Pc γ} (place : Place s.m_fibers s.fiber (s.worker 0).cb_fiber pc) :
        (s.goto 0 pc).Keeps := by
    have moved : Pooled s.m_fibers s.fiber (s.worker 0).cb_fiber pc := here.plain place rfl rfl
    exact Keeps.of rfl moved
  cases ft with
  | none =>
      cases done
      apply skip
      split <;> trivial
  | some ft =>
      simp only [Scheduler.dispatch] at done
      split at done
      · rename_i of_fiber
        split at done
        · cases done
          exact skip (here.place ft _ rfl of_fiber)
        · split at done
          · exact keeps.dispatchCb created at_pc done
          · cases done
            exact skip trivial
      · exact keeps.dispatchCb created at_pc done
      · cases done
        exact skip trivial

/-- Away from the pool, or out of it: the worker drops the fiber it carried. -/
theorem Owned.dropped {s : Scheduler γ} {f : FiberId} {kind : Kind}
    (owned : Owned (s.worker 0).cb_fiber f kind) : s.keptPool 0 kind ≠ some f := by
  cases kind with
  | task => exact owned
  | pooled =>
      intro kept
      cases kept

theorem keptPool_other {s : Scheduler γ} {kind : Kind} {pc : Pc γ}
    (pool : ∀ g, pc.pooled? = some g → kind = .pooled) (g : FiberId)
    (kept : s.keptPool 0 kind = some g) :
    (s.worker 0).cb_fiber = some g ∧ pc.pooled? ≠ some g := by
  refine ⟨keptPool_some kept, ?_⟩
  intro running
  rw [pool g running] at kept
  cases kept

theorem settle_keeps {s : Scheduler γ} (keeps : s.Keeps) {f : FiberId} {kind : Kind}
    (at_pc : (s.worker 0).pc = .settle f kind) : (s.goto 0 (s.settle f kind)).Keeps := by
  unfold Keeps at keeps
  rw [at_pc] at keeps
  obtain ⟨owned, parked, gone⟩ := keeps.place
  have moved : Pooled s.m_fibers s.fiber (s.worker 0).cb_fiber (s.settle f kind) := by
    unfold Scheduler.settle
    split
    · exact keeps.onward ⟨owned, parked⟩ (fun g own => by cases kind <;> exact own)
        (fun g running => .inl running)
    · split
      · exact keeps.onward ⟨owned, parked⟩ (fun g own => by cases kind <;> exact own)
          (fun g running => .inl running)
      · rename_i dead
        rw [Bool.not_eq_true] at dead
        cases kind with
        | task =>
            refine keeps.onward trivial ?_ ?_
            · intro g own
              cases own
            · intro g running
              cases running
              exact .inr (.inl ⟨parked, owned⟩)
        | pooled =>
            have unqueued := gone rfl dead
            refine keeps.onward ⟨owned, dead, unqueued⟩ (fun g own => own) ?_
            intro g running
            cases running
            exact .inr (.inr unqueued)
  exact Keeps.of rfl moved

theorem Owned.pooled {cb_fiber : Option FiberId} {f : FiberId} {kind : Kind} {g : FiberId}
    (owned : Owned cb_fiber f kind) (same : some f = some g) (own : cb_fiber = some g) :
    kind = .pooled := by
  cases kind with
  | task =>
      cases same
      exact absurd own owned
  | pooled => rfl

theorem Keeps.requeue {s : Scheduler γ} (keeps : s.Keeps) {f : FiberId} {kind : Kind}
    (at_pc : (s.worker 0).pc = .requeue f kind) :
    (((s.schedule (ScheduleTask.of (some (.fiber f)) none)).dropPooled 0 kind).goto 0
      .scan).Keeps := by
  unfold Keeps at keeps
  rw [at_pc] at keeps
  obtain ⟨owned, parked⟩ := keeps.place
  have known : ∀ ft ∈ [ScheduleTask.of (γ := γ) (some (.fiber f)) none], ∀ g,
      ft.fiber = some g → (Pc.requeue (γ := γ) f kind).carried? = some g := by
    intro ft member g of_fiber
    cases List.mem_singleton.mp member
    exact of_fiber
  have pushed := keeps.push known ⟨owned, parked⟩
  have moved := pushed.away rfl parked owned.dropped
    (fun g => keptPool_other (fun g own => by cases kind <;> first | rfl | cases own) g)
  rw [Function.update_eq_self] at moved
  rw [schedule_eq, dropPooled_goto]
  exact Keeps.of rfl moved

theorem Keeps.runStep {s next : Scheduler γ} {obs : Obs γ} (keeps : s.Keeps)
    (created : s.Created) (taken : s.runStep 0 = some (obs, next)) : next.Keeps := by
  have here := keeps
  unfold Keeps at here
  unfold Scheduler.runStep at taken
  cases at_pc : (s.worker 0).pc <;> rw [at_pc] at taken here <;> dsimp only at taken
  case scan =>
      have scanned : ∀ b : Bool, Pooled (s.scan 0 s.m_fibers).2.2 s.fiber (s.worker 0).cb_fiber
          (if b then .tickle (s.scan 0 s.m_fibers).2.1
            else .dispatch (s.scan 0 s.m_fibers).2.1) := by
        intro b
        rw [scan_rest, scan_task]
        apply here.scan
        cases b
        · exact .inr rfl
        · exact .inl rfl
      split at taken <;> cases taken <;> exact Keeps.of rfl (scanned _)
  case tickle ft =>
      cases taken
      have moved : Pooled s.m_fibers s.fiber (s.worker 0).cb_fiber
          (if s.hasIdleThreads then .dispatch ft else .tickleWrite ft) := by
        split
        · exact here.plain here.place rfl rfl
        · exact here.plain here.place rfl rfl
      exact Keeps.of rfl moved
  case tickleWrite ft =>
      cases taken
      have moved : Pooled s.m_fibers s.fiber (s.worker 0).cb_fiber (.dispatch ft) :=
        here.plain here.place rfl rfl
      exact Keeps.of rfl moved
  case dispatch =>
      obtain ⟨next', done, same⟩ := Option.map_eq_some_iff.mp taken
      cases same
      exact keeps.dispatch created at_pc done
  case resume =>
      obtain ⟨resumed, -, same⟩ := Option.map_eq_some_iff.mp taken
      cases same
      exact Keeps.of rfl (here.swapIn resumed)
  case swapOut f kind =>
      cases taken
      obtain ⟨owned, idle, gone⟩ := here.place
      have saved : Function.update s.fiber f (s.fiber f).swapOut f = (s.fiber f).swapOut :=
        Function.update_self ..
      have place : Place s.m_fibers (Function.update s.fiber f (s.fiber f).swapOut)
          (s.worker 0).cb_fiber (.leave f kind) := by
        refine ⟨owned, ?_, ?_⟩
        · rw [saved]
          exact ⟨rfl, idle⟩
        · rw [saved]
          exact gone
      have moved := here.carry _ place rfl rfl (fun g own => by cases kind <;> exact own)
        (fun own => by obtain rfl := owned.pooled rfl own; rfl)
      exact Keeps.of rfl moved
  case leave f kind =>
      cases taken
      have moved : Pooled s.m_fibers s.fiber (s.worker 0).cb_fiber (.settle f kind) :=
        here.onward here.place (fun g own => by cases kind <;> exact own)
          (fun g running => .inl running)
      exact Keeps.of rfl moved
  case settle =>
      cases taken
      exact settle_keeps keeps at_pc
  case requeue =>
      cases taken
      exact keeps.requeue at_pc
  case hold f kind =>
      cases taken
      obtain ⟨owned, saved, -⟩ := here.place
      have parked : ((s.fiber f).setState .HOLD).Parked := by
        refine ⟨saved, ?_⟩
        intro exec
        cases exec
      have moved := here.away rfl parked owned.dropped
        (fun g => keptPool_other (fun g own => by cases kind <;> first | rfl | cases own) g)
      rw [dropPooled_goto]
      exact Keeps.of rfl moved
  case recycle f =>
      obtain ⟨changed, reset, same⟩ := Option.map_eq_some_iff.mp taken
      cases same
      obtain ⟨own, -, unqueued⟩ := here.place
      have fresh : changed.m_state = .INIT := by
        unfold Fiber.reset at reset
        split at reset
        · cases reset
          rfl
        · cases reset
      have moved : Pooled s.m_fibers (Function.update s.fiber f changed)
          (s.worker 0).cb_fiber .scan := here.reset own unqueued rfl fresh trivial
      exact Keeps.of rfl moved
  case skip | idleLeave =>
      cases taken
      have moved : Pooled s.m_fibers s.fiber (s.worker 0).cb_fiber .scan :=
        here.plain trivial rfl rfl
      exact Keeps.of rfl moved
  case idleEnter =>
      cases taken
      have moved : Pooled s.m_fibers s.fiber (s.worker 0).cb_fiber .idle :=
        here.plain trivial rfl rfl
      exact Keeps.of rfl moved
  all_goals cases taken

/-- The running fiber gives up the worker. -/
theorem Keeps.suspend {s next : Scheduler γ} {obs : Obs γ} {change : Fiber γ → Fiber γ}
    (keeps : s.Keeps) (ended : ∀ fiber, (change fiber).m_state ≠ .EXEC)
    (gone : ∀ f, (s.worker 0).pc = .exec f .pooled → (change (s.fiber f)).alive = false →
      Unqueued s.m_fibers f)
    (taken : s.suspend 0 change = some (obs, next)) : next.Keeps := by
  unfold Keeps at keeps
  unfold Scheduler.suspend at taken
  split at taken
  · rename_i f kind at_pc
    rw [at_pc] at keeps gone
    cases taken
    have owned : Owned (s.worker 0).cb_fiber f kind := keeps.place
    have changed : Function.update s.fiber f (change (s.fiber f)) f = change (s.fiber f) :=
      Function.update_self ..
    have place : Place s.m_fibers (Function.update s.fiber f (change (s.fiber f)))
        (s.worker 0).cb_fiber (.swapOut f kind) := by
      refine ⟨owned, ?_, ?_⟩
      · rw [changed]
        exact ended _
      · rw [changed]
        rintro rfl
        exact gone f rfl
    have moved := keeps.carry _ place rfl rfl (fun g own => by cases kind <;> exact own)
      (fun own => by obtain rfl := owned.pooled rfl own; rfl)
    exact Keeps.of rfl moved
  · cases taken

/-- A step of others, that pushes what the worker's place allows. -/
theorem Keeps.pushed {s next : Scheduler γ} (pooled : Pooled next.m_fibers s.fiber
    (s.worker 0).cb_fiber (s.worker 0).pc) (fibers : next.fiber = s.fiber)
    (workers : next.worker = s.worker) : next.Keeps := by
  unfold Keeps
  rw [fibers, workers]
  exact pooled

theorem Keeps.schedule {s : Scheduler γ} (keeps : s.Keeps) {fc : Option (Task γ)}
    {thread : Option WorkerId} (program : s.Program (.schedule fc thread)) :
    (s.schedule (ScheduleTask.of fc thread)).Keeps := by
  unfold Keeps at keeps
  rw [schedule_eq]
  refine Keeps.pushed ?_ rfl rfl
  rcases fc with _ | cb | f
  · apply keeps.pushCallbacks
    intro ft member
    rw [List.mem_singleton.mp (List.mem_filter.mp member).1]
    rfl
  · apply keeps.pushCallbacks
    intro ft member
    rw [List.mem_singleton.mp (List.mem_filter.mp member).1]
    rfl
  · have current : (s.worker 0).pc.current? = some f := program
    have executes : ∃ kind, (s.worker 0).pc = .exec f kind := by
      cases at_pc : (s.worker 0).pc <;> rw [at_pc] at current <;> cases current
      exact ⟨_, rfl⟩
    obtain ⟨kind, at_pc⟩ := executes
    rw [at_pc] at keeps ⊢
    apply keeps.push
    · intro ft member g of_fiber
      rw [List.mem_singleton.mp (List.mem_filter.mp member).1] at of_fiber
      exact of_fiber
    · exact keeps.place

theorem Keeps.step {s next : Scheduler γ} {act : Act γ} {obs : Obs γ} (keeps : s.Keeps)
    (created : s.Created) (program : s.Program act) (returns : s.Returns act)
    (taken : s.step act = some (obs, next)) : next.Keeps := by
  have stays {other : Scheduler γ} (queue : other.m_fibers = s.m_fibers)
      (fibers : other.fiber = s.fiber) (workers : other.worker = s.worker) : other.Keeps := by
    refine Keeps.pushed ?_ fibers workers
    rw [queue]
    exact keeps
  have moves {pc : Pc γ} {worker : Worker γ} (at_pc : (s.worker 0).pc = pc)
      (pool : pc.pooled? = none) (carried : pc.carried? = none)
      (own : worker.cb_fiber = (s.worker 0).cb_fiber)
      (place : Place s.m_fibers s.fiber (s.worker 0).cb_fiber worker.pc) :
      (s.setWorker 0 worker).Keeps := by
    unfold Keeps at keeps
    rw [at_pc] at keeps
    have moved := keeps.plain place pool carried
    rw [← own] at moved
    exact Keeps.of rfl moved
  cases act <;> simp only [Scheduler.step] at taken
  case newFiber => exact program.elim
  case schedule fc thread =>
      split at taken
      · cases taken
        exact keeps.schedule program
      · cases taken
  case scheduleRange fcs =>
      split at taken
      · cases taken
        obtain ⟨calls, -, -, shape⟩ := s.scheduleRange_eq (fcs.map (ScheduleTask.of · none))
        rw [shape]
        refine Keeps.pushed ?_ rfl rfl
        apply Pooled.pushCallbacks keeps
        intro ft member
        obtain ⟨fc, listed, rfl⟩ := List.mem_map.mp (List.mem_filter.mp member).1
        exact program fc listed
      · cases taken
  case rangeTickle =>
      split at taken
      · cases taken
        split <;> exact stays rfl rfl rfl
      · cases taken
  case rangeWrite | tickleWrite =>
      split at taken
      · cases taken
        exact stays rfl rfl rfl
      · cases taken
  case tickle =>
      cases taken
      split <;> exact stays rfl rfl rfl
  case stop =>
      cases taken
      exact stays rfl rfl rfl
  case run w =>
      have only : w = 0 := program
      rw [only] at taken
      exact keeps.runStep created taken
  case yieldToHold w | yieldToReady w =>
      have only : w = 0 := program
      rw [only] at taken
      apply keeps.suspend _ _ taken
      · intro fiber exec
        cases exec
      · intro f at_pc dead
        cases dead
  case finish w =>
      have only : w = 0 := program
      rw [only] at taken
      apply keeps.suspend _ _ taken
      · intro fiber exec
        cases exec
      · intro f at_pc dead
        have own : (s.worker 0).cb_fiber = some f := by
          have place := keeps.place
          rw [at_pc] at place
          exact place
        exact returns f own (by rw [at_pc]; rfl)
  case stopping w quiet =>
      have only : w = 0 := program
      rw [only] at taken
      unfold idleStopping at taken
      split at taken
      · rename_i at_pc
        split at taken <;> cases taken
        · exact moves at_pc rfl rfl rfl trivial
        · exact moves at_pc rfl rfl rfl trivial
      · cases taken
  case wake w | idleDone w =>
      have only : w = 0 := program
      rw [only] at taken
      split at taken
      · rename_i at_pc
        cases taken
        exact moves at_pc rfl rfl rfl trivial
      · cases taken

/-- For every program of callbacks on one worker, as long as none returns with its own
`cb_fiber` still queued. -/
theorem run_recycles {t : Scheduler γ} {acts : List (Act γ)} {os : List (Obs γ)}
    (program : Transition.Along step Program ({} : Scheduler γ) acts)
    (returns : Transition.Along step Returns ({} : Scheduler γ) acts)
    (taken : Transition.run step ({} : Scheduler γ) acts = some (os, t)) : t.Recycles := by
  have start : ({} : Scheduler γ).Keeps ∧ ({} : Scheduler γ).Created :=
    ⟨init_keeps, init_created⟩
  have keep : ∀ s act obs next, s.Keeps ∧ s.Created → s.Program act ∧ s.Returns act →
      step s act = some (obs, next) → next.Keeps ∧ Created (γ := γ) next := by
    rintro s act obs next ⟨keeps, created⟩ ⟨program, returns⟩ done
    exact ⟨keeps.step created program returns done, (step_rule done).created created⟩
  exact (Transition.run_invariant keep start (program.and returns) taken).1.recycles

/-- A callback queues its own fiber, yields, is resumed and returns. -/
theorem run_recycles_resumed :
    ∃ os t, Transition.run step ({} : Scheduler Nat)
      [.schedule (some (.cb 5)) none, .run 0, .run 0, .run 0, .schedule (some (.fiber 0)) none,
        .yieldToHold 0, .run 0, .run 0, .run 0, .run 0, .run 0, .run 0, .run 0, .finish 0,
        .run 0, .run 0, .run 0] = some (os, t) ∧
      (t.worker 0).pc.own = true ∧ t.m_fibers = [] ∧ t.Recycles := by
  have shown : (Transition.run step ({} : Scheduler Nat)
      [.schedule (some (.cb 5)) none, .run 0, .run 0, .run 0, .schedule (some (.fiber 0)) none,
        .yieldToHold 0, .run 0, .run 0, .run 0, .run 0, .run 0, .run 0, .run 0, .finish 0,
        .run 0, .run 0, .run 0]).map
      (fun r => ((r.2.worker 0).pc.own, r.2.m_fibers)) = some (true, []) := by
    decide
  obtain ⟨⟨os, t⟩, taken, seen⟩ := Option.map_eq_some_iff.mp shown
  obtain ⟨own, empty⟩ := Prod.mk.inj seen
  exact ⟨os, t, taken, own, empty, run_recycles (by decide) (by decide) taken⟩

/-- A callback queues its own fiber and returns: the fiber is reset while it is queued, and
when it is swapped in again an assertion fails. -/
theorem recycle_queued :
    Transition.Along step Program ({} : Scheduler Nat)
      [.schedule (some (.cb 5)) none, .run 0, .run 0, .run 0, .schedule (some (.fiber 0)) none,
        .finish 0, .run 0, .run 0, .run 0, .run 0, .run 0, .run 0] ∧
    (∃ os t, Transition.run step ({} : Scheduler Nat)
      [.schedule (some (.cb 5)) none, .run 0, .run 0, .run 0, .schedule (some (.fiber 0)) none,
        .finish 0, .run 0, .run 0, .run 0] = some (os, t) ∧
      (t.worker 0).pc = .recycle 0 ∧ ¬ Unqueued t.m_fibers 0) ∧
    ∃ os t, Transition.run step ({} : Scheduler Nat)
      [.schedule (some (.cb 5)) none, .run 0, .run 0, .run 0, .schedule (some (.fiber 0)) none,
        .finish 0, .run 0, .run 0, .run 0, .run 0, .run 0, .run 0] = some (os, t) ∧
      (t.worker 0).pc = .resume 0 .task ∧ (t.fiber 0).m_cb = none ∧
      (t.fiber 0).m_ctx = .entry ∧ step t (.run 0) = none := by
  have first : (Transition.run step ({} : Scheduler Nat)
      [.schedule (some (.cb 5)) none, .run 0, .run 0, .run 0, .schedule (some (.fiber 0)) none,
        .finish 0, .run 0, .run 0, .run 0]).map
      (fun r => ((r.2.worker 0).pc, r.2.m_fibers)) =
      some (.recycle 0, [{ fiber := some 0 }]) := by
    rfl
  have second : (Transition.run step ({} : Scheduler Nat)
      [.schedule (some (.cb 5)) none, .run 0, .run 0, .run 0, .schedule (some (.fiber 0)) none,
        .finish 0, .run 0, .run 0, .run 0, .run 0, .run 0, .run 0]).map
      (fun r => ((r.2.worker 0).pc, (r.2.fiber 0).m_cb, (r.2.fiber 0).m_ctx,
        (step r.2 (.run 0)).isSome)) = some (.resume 0 .task, none, .entry, false) := by
    rfl
  refine ⟨by decide, ?_, ?_⟩
  · obtain ⟨⟨os, t⟩, taken, seen⟩ := Option.map_eq_some_iff.mp first
    obtain ⟨at_pc, queue⟩ := Prod.mk.inj seen
    refine ⟨os, t, taken, at_pc, ?_⟩
    rw [queue]
    decide
  · obtain ⟨⟨os, t⟩, taken, seen⟩ := Option.map_eq_some_iff.mp second
    simp only [Prod.mk.injEq] at seen
    obtain ⟨at_pc, empty, entry, stuck⟩ := seen
    exact ⟨os, t, taken, at_pc, empty, entry, Option.isSome_eq_false_iff.mp stuck |>
      Option.isNone_iff_eq_none.mp⟩

end Scheduler

end CorReactor
