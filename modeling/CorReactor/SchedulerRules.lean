import CorReactor.Scheduler

set_option autoImplicit false

/-! The steps of the scheduler by what they change. -/

namespace CorReactor

variable {γ : Type}

namespace Pc

/-- The fiber that the worker's next steps are about. -/
def fiber? : Pc γ → Option FiberId
  | .tickle (some ft) | .tickleWrite (some ft) | .dispatch (some ft) => ft.fiber
  | .resume f _ | .exec f _ | .swapOut f _ | .leave f _ | .settle f _ | .requeue f _ | .hold f _
  | .recycle f => some f
  | _ => none

/-- The same without `requeue`, where the worker only pushes the fiber. -/
def held? : Pc γ → Option FiberId
  | .requeue _ _ => none
  | pc => pc.fiber?

/-- The fiber that the worker executes. -/
def running? : Pc γ → Option FiberId
  | .exec f _ | .swapOut f _ => some f
  | _ => none

/-- The fiber that is also the worker's `cb_fiber`. -/
def pooled? : Pc γ → Option FiberId
  | .resume f .pooled | .exec f .pooled | .swapOut f .pooled | .leave f .pooled
  | .settle f .pooled | .requeue f .pooled | .hold f .pooled | .recycle f => some f
  | _ => none

/-- The fiber that the worker takes to be alive. -/
def needs? : Pc γ → Option FiberId
  | .resume f _ | .exec f _ | .hold f _ => some f
  | _ => none

/-- The last scan found nothing, and the worker is on its way to `epoll_wait` or in it. -/
def dozing : Pc γ → Bool
  | .tickle none | .tickleWrite none | .dispatch none | .idleEnter | .idle | .wait => true
  | _ => false

theorem fiber?_of_held? {pc : Pc γ} {f : FiberId} (held : pc.held? = some f) :
    pc.fiber? = some f := by
  cases pc with
  | requeue => cases held
  | _ => exact held

theorem held?_of_running? {pc : Pc γ} {f : FiberId} (running : pc.running? = some f) :
    pc.held? = some f := by
  cases pc with
  | exec => exact running
  | swapOut => exact running
  | _ => cases running

theorem held?_of_needs? {pc : Pc γ} {f : FiberId} (needs : pc.needs? = some f) :
    pc.held? = some f := by
  cases pc with
  | resume => exact needs
  | exec => exact needs
  | hold => exact needs
  | _ => cases needs

theorem fiber?_of_pooled? {pc : Pc γ} {f : FiberId} (pooled : pc.pooled? = some f) :
    pc.fiber? = some f := by
  unfold pooled? at pooled
  split at pooled <;> first | exact pooled | cases pooled

end Pc

namespace Scheduler

@[simp] theorem setWorker_worker (s : Scheduler γ) (w v : WorkerId) (worker : Worker γ) :
    (s.setWorker w worker).worker v = if v = w then worker else s.worker v :=
  Function.update_apply ..

@[simp] theorem setFiber_fiber (s : Scheduler γ) (f g : FiberId) (fiber : Fiber γ) :
    (s.setFiber f fiber).fiber g = if g = f then fiber else s.fiber g :=
  Function.update_apply ..

/-- A worker moves on and touches neither a fiber nor the queue. -/
structure Moves (s : Scheduler γ) (pc pc' : Pc γ) : Prop where
  named : ∀ f, pc'.fiber? = some f → pc.held? = some f
  pooled : ∀ f, pc'.pooled? = some f → pc.pooled? = some f
  needs : ∀ f, pc'.needs? = some f → (s.fiber f).alive = true
  still : pc.running? = none
  still' : pc'.running? = none
  doze : pc'.dozing = true → pc.dozing = true
  pushed : ∀ f kind, pc ≠ .requeue f kind

inductive Rule (s : Scheduler γ) : Act γ → Scheduler γ → Prop
  | newFiber (cb : γ) : Rule s (.newFiber cb) (s.newFiber cb)
  | schedule {fc : Option (Task γ)} {thread : Option WorkerId} (known : s.known fc = true) :
      Rule s (.schedule fc thread) (s.schedule (ScheduleTask.of fc thread))
  | scheduleRange {fcs : List (Option (Task γ))} (known : ∀ fc ∈ fcs, s.known fc = true) :
      Rule s (.scheduleRange fcs) (s.scheduleRange (fcs.map (ScheduleTask.of · none)))
  | rangeQuiet (due : 0 < s.calls) (idle : s.hasIdleThreads = true) :
      Rule s .rangeTickle { s with calls := s.calls - 1 }
  | rangeDue (due : 0 < s.calls) :
      Rule s .rangeTickle { s with calls := s.calls - 1, writes := s.writes + 1 }
  | rangeWrite (due : 0 < s.writes) :
      Rule s .rangeWrite { s with writes := s.writes - 1, written := s.written + 1 }
  | tickle (otherWrites : Nat) : Rule s .tickle { s with otherWrites := otherWrites }
  | tickleWrite : Rule s .tickleWrite
      { s with otherWrites := s.otherWrites - 1, written := s.written + 1 }
  | stop : Rule s .stop { s with m_autoStop := true, m_stopping := true }
  | scan {w : WorkerId} {pc : Pc γ} {active : UInt64} (at_pc : (s.worker w).pc = .scan)
      (next : pc = .tickle (s.scan w s.m_fibers).2.1 ∨
        pc = .dispatch (s.scan w s.m_fibers).2.1) :
      Rule s (.run w)
        { s.setWorker w { s.worker w with pc := pc, scannedAt := s.written } with
          m_fibers := (s.scan w s.m_fibers).2.2
          m_activateThreadCount := active }
  | move {act : Act γ} {w : WorkerId} {pc' : Pc γ} {term : Bool} {active idle : UInt64}
      (moves : s.Moves (s.worker w).pc pc') :
      Rule s act
        { s.setWorker w { s.worker w with pc := pc', idle_term := term } with
          m_activateThreadCount := active
          m_idleThreadCount := idle }
  | write {w : WorkerId} {ft : Option (ScheduleTask γ)}
      (at_pc : (s.worker w).pc = .tickleWrite ft) :
      Rule s (.run w) { s.goto w (.dispatch ft) with written := s.written + 1 }
  | swapIn {w : WorkerId} {f : FiberId} {kind : Kind} {fiber : Fiber γ}
      (at_pc : (s.worker w).pc = .resume f kind) (resumed : (s.fiber f).swapIn = some fiber) :
      Rule s (.run w) ((s.setFiber f fiber).goto w (.exec f kind))
  | suspend {act : Act γ} {w : WorkerId} {f : FiberId} {kind : Kind} {fiber : Fiber γ}
      (at_pc : (s.worker w).pc = .exec f kind)
      (by_fiber : act = .yieldToHold w ∨ act = .yieldToReady w ∨ act = .finish w) :
      Rule s act ((s.setFiber f fiber).goto w (.swapOut f kind))
  | saved {w : WorkerId} {f : FiberId} {kind : Kind} (at_pc : (s.worker w).pc = .swapOut f kind) :
      Rule s (.run w) ((s.setFiber f (s.fiber f).swapOut).goto w (.leave f kind))
  | hold {w : WorkerId} {f : FiberId} {kind : Kind} (at_pc : (s.worker w).pc = .hold f kind) :
      Rule s (.run w)
        (((s.setFiber f ((s.fiber f).setState .HOLD)).dropPooled w kind).goto w .scan)
  | recycle {w : WorkerId} {f : FiberId} {fiber : Fiber γ} (at_pc : (s.worker w).pc = .recycle f)
      (reset : (s.fiber f).reset none = some fiber) :
      Rule s (.run w) ((s.setFiber f fiber).goto w .scan)
  | reuse {w : WorkerId} {ft : ScheduleTask γ} {f : FiberId} {cb : γ} {fiber : Fiber γ}
      (at_pc : (s.worker w).pc = .dispatch (some ft)) (pooled : (s.worker w).cb_fiber = some f)
      (reset : (s.fiber f).reset (some cb) = some fiber) :
      Rule s (.run w) ((s.setFiber f fiber).goto w (.resume f .pooled))
  | fresh {w : WorkerId} {ft : ScheduleTask γ} {cb : γ}
      (at_pc : (s.worker w).pc = .dispatch (some ft)) :
      Rule s (.run w)
        ((s.newFiber cb).setWorker w
          { s.worker w with pc := .resume s.count .pooled, cb_fiber := some s.count })
  | requeue {w : WorkerId} {f : FiberId} {kind : Kind}
      (at_pc : (s.worker w).pc = .requeue f kind) :
      Rule s (.run w)
        (((s.schedule (ScheduleTask.of (some (.fiber f)) none)).dropPooled w kind).goto w .scan)

theorem goto_rule {s : Scheduler γ} {act : Act γ} {w : WorkerId} {pc pc' : Pc γ}
    (at_pc : (s.worker w).pc = pc) (moves : s.Moves pc pc') : Rule s act (s.goto w pc') := by
  subst at_pc
  exact .move moves

/-- A step to a place that names no fiber. -/
theorem Moves.plain {s : Scheduler γ} {pc pc' : Pc γ} (still : pc.running? = none)
    (named : pc'.fiber? = none) (doze : pc'.dozing = true → pc.dozing = true)
    (pushed : ∀ f kind, pc ≠ .requeue f kind) : s.Moves pc pc' := by
  have clear {f : FiberId} {P : Prop} (member : pc'.fiber? = some f) : P := by
    rw [named] at member
    cases member
  refine ⟨?_, ?_, ?_, still, ?_, doze, pushed⟩
  · intro f member
    exact clear member
  · intro f member
    exact clear (Pc.fiber?_of_pooled? member)
  · intro f member
    exact clear (Pc.fiber?_of_held? (Pc.held?_of_needs? member))
  · cases running : pc'.running? with
    | none => rfl
    | some f => exact clear (Pc.fiber?_of_held? (Pc.held?_of_running? running))

/-- A step that keeps the task it found, or the lack of one. -/
theorem Moves.same {s : Scheduler γ} {pc pc' : Pc γ} (named : pc'.fiber? = pc.held?)
    (pooled : pc'.pooled? = none) (needs : pc'.needs? = none) (still : pc.running? = none)
    (still' : pc'.running? = none) (doze : pc'.dozing = pc.dozing)
    (pushed : ∀ f kind, pc ≠ .requeue f kind) : s.Moves pc pc' := by
  refine ⟨?_, ?_, ?_, still, still', ?_, pushed⟩
  · intro f member
    rw [← named]
    exact member
  · intro f member
    rw [pooled] at member
    cases member
  · intro f member
    rw [needs] at member
    cases member
  · intro asleep
    rw [← doze]
    exact asleep

theorem dispatchCb_rule {s next : Scheduler γ} {w : WorkerId} {ft : ScheduleTask γ} {cb : γ}
    (at_pc : (s.worker w).pc = .dispatch (some ft)) (done : s.dispatchCb w cb = some next) :
    Rule s (.run w) next := by
  unfold dispatchCb at done
  split at done
  · rename_i f pooled
    obtain ⟨fiber, reset, rfl⟩ := Option.map_eq_some_iff.mp done
    exact .reuse at_pc pooled reset
  · cases done
    exact .fresh at_pc

theorem dispatch_rule {s next : Scheduler γ} {w : WorkerId} {ft : Option (ScheduleTask γ)}
    (at_pc : (s.worker w).pc = .dispatch ft) (done : s.dispatch w ft = some next) :
    Rule s (.run w) next := by
  have skip {ft : ScheduleTask γ} : s.Moves (.dispatch (some ft)) .skip :=
    .plain rfl rfl (fun doze => by cases doze) (fun _ _ same => by cases same)
  cases ft with
  | none =>
      cases done
      apply goto_rule at_pc
      split
      · exact .plain rfl rfl (fun doze => by cases doze) (fun _ _ same => by cases same)
      · exact .plain rfl rfl (fun _ => rfl) (fun _ _ same => by cases same)
  | some ft =>
      simp only [dispatch] at done
      split at done
      · rename_i f cb of_fiber
        split at done
        · rename_i alive
          cases done
          apply goto_rule at_pc
          refine ⟨?_, ?_, ?_, rfl, rfl, ?_, ?_⟩
          · intro g named
            cases named
            exact of_fiber
          · intro g pooled
            cases pooled
          · intro g needs
            cases needs
            exact alive
          · intro doze
            cases doze
          · intro g kind same
            cases same
        · split at done
          · exact dispatchCb_rule at_pc done
          · cases done
            exact goto_rule at_pc skip
      · exact dispatchCb_rule at_pc done
      · cases done
        exact goto_rule at_pc skip

theorem settle_moves (s : Scheduler γ) (f : FiberId) (kind : Kind) :
    s.Moves (.settle f kind) (s.settle f kind) := by
  unfold settle
  split
  · refine ⟨fun _ => id, ?_, ?_, rfl, rfl, ?_, ?_⟩
    · intro g pooled
      cases kind <;> exact pooled
    · intro g needs
      cases needs
    · intro doze
      cases doze
    · intro g k same
      cases same
  · split
    · rename_i alive
      refine ⟨fun _ => id, ?_, ?_, rfl, rfl, ?_, ?_⟩
      · intro g pooled
        cases kind <;> exact pooled
      · intro g needs
        cases needs
        exact alive
      · intro doze
        cases doze
      · intro g k same
        cases same
    · cases kind with
      | task => exact .plain rfl rfl (fun doze => by cases doze) (fun _ _ same => by cases same)
      | pooled =>
          refine ⟨fun _ => id, fun _ => id, ?_, rfl, rfl, ?_, ?_⟩
          · intro g needs
            cases needs
          · intro doze
            cases doze
          · intro g k same
            cases same

theorem runStep_rule {s next : Scheduler γ} {w : WorkerId} {obs : Obs γ}
    (taken : s.runStep w = some (obs, next)) : Rule s (.run w) next := by
  unfold runStep at taken
  cases at_pc : (s.worker w).pc <;> rw [at_pc] at taken <;> dsimp only at taken
  case scan =>
      have next_pc : ∀ b : Bool, (if b then Pc.tickle (s.scan w s.m_fibers).2.1
          else .dispatch (s.scan w s.m_fibers).2.1) = .tickle (s.scan w s.m_fibers).2.1 ∨
          (if b then Pc.tickle (s.scan w s.m_fibers).2.1
          else .dispatch (s.scan w s.m_fibers).2.1) = .dispatch (s.scan w s.m_fibers).2.1 := by
        intro b
        cases b
        · exact .inr rfl
        · exact .inl rfl
      split at taken
      · cases taken
        exact .scan at_pc (next_pc _)
      · cases taken
        exact .scan at_pc (next_pc _)
  case tickle ft =>
      cases taken
      apply goto_rule at_pc
      split
      · cases ft <;>
          exact .same rfl rfl rfl rfl rfl rfl (fun _ _ same => by cases same)
      · cases ft <;>
          exact .same rfl rfl rfl rfl rfl rfl (fun _ _ same => by cases same)
  case tickleWrite =>
      cases taken
      exact .write at_pc
  case dispatch =>
      obtain ⟨next', done, same⟩ := Option.map_eq_some_iff.mp taken
      cases same
      exact dispatch_rule at_pc done
  case resume =>
      obtain ⟨fiber, resumed, same⟩ := Option.map_eq_some_iff.mp taken
      cases same
      exact .swapIn at_pc resumed
  case swapOut =>
      cases taken
      exact .saved at_pc
  case leave f kind =>
      cases taken
      have moves : s.Moves (s.worker w).pc (.settle f kind) := by
        rw [at_pc]
        refine ⟨fun _ => id, ?_, ?_, rfl, rfl, ?_, ?_⟩
        · intro g pooled
          cases kind <;> exact pooled
        · intro g needs
          cases needs
        · intro doze
          cases doze
        · intro g k same
          cases same
      exact .move moves
  case settle =>
      cases taken
      exact goto_rule at_pc (s.settle_moves ..)
  case requeue =>
      cases taken
      exact .requeue at_pc
  case hold =>
      cases taken
      exact .hold at_pc
  case recycle =>
      obtain ⟨fiber, reset, same⟩ := Option.map_eq_some_iff.mp taken
      cases same
      exact .recycle at_pc reset
  case skip =>
      cases taken
      have moves : s.Moves (s.worker w).pc .scan := by
        rw [at_pc]
        exact .plain rfl rfl (fun doze => by cases doze) (fun _ _ same => by cases same)
      exact .move moves
  case idleEnter =>
      cases taken
      have moves : s.Moves (s.worker w).pc .idle := by
        rw [at_pc]
        exact .plain rfl rfl (fun _ => rfl) (fun _ _ same => by cases same)
      exact .move moves
  case idleLeave =>
      cases taken
      have moves : s.Moves (s.worker w).pc .scan := by
        rw [at_pc]
        exact .plain rfl rfl (fun doze => by cases doze) (fun _ _ same => by cases same)
      exact .move moves
  all_goals cases taken

theorem suspend_rule {s next : Scheduler γ} {act : Act γ} {w : WorkerId} {obs : Obs γ}
    {change : Fiber γ → Fiber γ} (taken : s.suspend w change = some (obs, next))
    (by_fiber : act = .yieldToHold w ∨ act = .yieldToReady w ∨ act = .finish w) :
    Rule s act next := by
  unfold suspend at taken
  split at taken
  · rename_i f kind at_pc
    cases taken
    exact .suspend at_pc by_fiber
  · cases taken

/-- Every step is one of the rules. -/
theorem step_rule {s next : Scheduler γ} {act : Act γ} {obs : Obs γ}
    (taken : s.step act = some (obs, next)) : Rule s act next := by
  cases act <;> simp only [step] at taken
  case newFiber cb => cases taken; exact .newFiber cb
  case schedule fc thread =>
      split at taken
      · rename_i known
        cases taken
        exact .schedule known
      · cases taken
  case scheduleRange fcs =>
      split at taken
      · rename_i known
        cases taken
        exact .scheduleRange (List.all_eq_true.mp known)
      · cases taken
  case rangeTickle =>
      split at taken
      · rename_i due
        cases taken
        split
        · rename_i idle
          exact .rangeQuiet due idle
        · exact .rangeDue due
      · cases taken
  case rangeWrite =>
      split at taken
      · rename_i due
        cases taken
        exact .rangeWrite due
      · cases taken
  case tickle =>
      cases taken
      split
      · exact .tickle s.otherWrites
      · exact .tickle _
  case tickleWrite =>
      split at taken
      · cases taken
        exact .tickleWrite
      · cases taken
  case stop => cases taken; exact .stop
  case run w => exact runStep_rule taken
  case yieldToHold w => exact suspend_rule taken (.inl rfl)
  case yieldToReady w => exact suspend_rule taken (.inr (.inl rfl))
  case finish w => exact suspend_rule taken (.inr (.inr rfl))
  case stopping w quiet =>
      unfold idleStopping at taken
      split at taken
      · rename_i at_pc
        split at taken
        · cases taken
          have moves : s.Moves (s.worker w).pc .idleLeave := by
            rw [at_pc]
            exact .plain rfl rfl (fun doze => by cases doze) (fun _ _ same => by cases same)
          exact .move moves
        · cases taken
          exact goto_rule at_pc (.plain rfl rfl (fun _ => rfl) (fun _ _ same => by cases same))
      · cases taken
  case wake w =>
      split at taken
      · rename_i at_pc
        cases taken
        apply goto_rule at_pc
        exact .plain rfl rfl (fun doze => by cases doze) (fun _ _ same => by cases same)
      · cases taken
  case idleDone w =>
      split at taken
      · rename_i at_pc
        cases taken
        apply goto_rule at_pc
        exact .plain rfl rfl (fun doze => by cases doze) (fun _ _ same => by cases same)
      · cases taken

end Scheduler

end CorReactor
