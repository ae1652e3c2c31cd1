import CorReactor.SchedulerCounters
import CorReactor.SchedulerTasks

set_option autoImplicit false

/-! The last look of each worker at the queue. -/

namespace CorReactor

variable {γ : Type}

namespace Pc

/-- The last scan found nothing, and the idle fiber has not been entered since. -/
def past : Pc γ → Bool
  | .tickle none | .tickleWrite none | .dispatch none | .done => true
  | _ => false

/-- The fiber that the worker has switched to. -/
def exec? : Pc γ → Option FiberId
  | .exec f _ => some f
  | _ => none

theorem exec?_of_past {pc : Pc γ} (past : pc.past = true) : pc.exec? = none := by
  cases pc with
  | exec => cases past
  | _ => rfl

end Pc

/-- The worker will not look at the queue again: its idle fiber has terminated and its last
scan found nothing, so that `run` leaves its loop. -/
def Worker.through (worker : Worker γ) : Bool := worker.idle_term && worker.pc.past

namespace Scheduler

/-! ### What a step changes -/

/-- No worker becomes or ceases to be through, and no task leaves the queue. -/
structure Stays (s next : Scheduler γ) : Prop where
  through : ∀ v, (next.worker v).through = (s.worker v).through
  grows : s.m_fibers <+: next.m_fibers
  ended : ∀ v, (next.worker v).pc = .done →
    (s.worker v).pc = .done ∨ (s.worker v).through = true

/-- A worker scans the queue. -/
structure Looks (s : Scheduler γ) (w : WorkerId) (next : Scheduler γ) : Prop where
  before : (s.worker w).pc = .scan
  others : ∀ v, v ≠ w → next.worker v = s.worker v
  ended : (next.worker w).pc ≠ .done
  last : (next.worker w).through = true →
    next.m_fibers = s.m_fibers ∧ ∀ ft ∈ s.m_fibers, s.mayRun w ft = false

/-- No worker moves. -/
theorem Stays.still {s next : Scheduler γ} (still : next.worker = s.worker)
    (grows : s.m_fibers <+: next.m_fibers) : Stays s next := by
  refine ⟨?_, grows, ?_⟩
  · intro v
    rw [still]
  · intro v ended
    rw [still] at ended
    exact .inl ended

theorem Stays.trans {s mid next : Scheduler γ} (first : Stays s mid) (second : Stays mid next) :
    Stays s next := by
  refine ⟨fun v => (second.through v).trans (first.through v), first.grows.trans second.grows, ?_⟩
  intro v ended
  rcases second.ended v ended with before | through
  · exact first.ended v before
  · rw [first.through] at through
    exact .inr through

/-- One worker moves. -/
theorem Stays.move {s next : Scheduler γ} {w : WorkerId} {worker : Worker γ}
    (moved : next.worker = Function.update s.worker w worker)
    (through : worker.through = (s.worker w).through)
    (ended : worker.pc = .done → worker.idle_term = true) (grows : s.m_fibers <+: next.m_fibers) :
    Stays s next := by
  refine ⟨?_, grows, ?_⟩
  · intro v
    rw [moved]
    by_cases same : v = w
    · rw [same, Function.update_self]
      exact through
    · rw [Function.update_of_ne same]
  · intro v at_done
    rw [moved] at at_done
    by_cases same : v = w
    · rw [same, Function.update_self] at at_done
      rw [same, ← through, Worker.through, ended at_done, at_done]
      exact .inr rfl
    · rw [Function.update_of_ne same] at at_done
      exact .inl at_done

/-- It moves between places from which it looks at the queue again. -/
theorem Stays.onward {s next : Scheduler γ} {w : WorkerId} {worker : Worker γ} {pc : Pc γ}
    (at_pc : (s.worker w).pc = pc) (moved : next.worker = Function.update s.worker w worker)
    (before : pc.past = false) (after : worker.pc.past = false)
    (grows : s.m_fibers <+: next.m_fibers) : Stays s next := by
  refine Stays.move moved ?_ ?_ grows
  · simp only [Worker.through, at_pc, before, after, Bool.and_false]
  · intro at_done
    rw [at_done] at after
    cases after

theorem through_pc {worker worker' : Worker γ} (term : worker'.idle_term = worker.idle_term)
    (past : worker'.pc.past = worker.pc.past) : worker'.through = worker.through := by
  simp only [Worker.through, term, past]

theorem dispatchCb_stays {s next : Scheduler γ} {w : WorkerId} {ft : ScheduleTask γ} {cb : γ}
    (at_pc : (s.worker w).pc = .dispatch (some ft)) (done : s.dispatchCb w cb = some next) :
    Stays s next := by
  unfold dispatchCb at done
  split at done
  · obtain ⟨fiber, -, rfl⟩ := Option.map_eq_some_iff.mp done
    exact .onward at_pc rfl rfl rfl (List.prefix_refl _)
  · cases done
    exact .onward at_pc rfl rfl rfl (List.prefix_refl _)

theorem dispatch_stays {s next : Scheduler γ} {w : WorkerId} {ft : Option (ScheduleTask γ)}
    (at_pc : (s.worker w).pc = .dispatch ft) (done : s.dispatch w ft = some next) :
    Stays s next := by
  cases ft with
  | none =>
      cases done
      refine Stays.move rfl ?_ ?_ (List.prefix_refl _)
      · simp only [Worker.through, at_pc]
        cases (s.worker w).idle_term <;> rfl
      · dsimp only
        split
        · exact fun _ => ‹_›
        · exact fun at_done => by cases at_done
  | some ft =>
      simp only [dispatch] at done
      split at done
      · split at done
        · cases done
          exact .onward at_pc rfl rfl rfl (List.prefix_refl _)
        · split at done
          · exact dispatchCb_stays at_pc done
          · cases done
            exact .onward at_pc rfl rfl rfl (List.prefix_refl _)
      · exact dispatchCb_stays at_pc done
      · cases done
        exact .onward at_pc rfl rfl rfl (List.prefix_refl _)

theorem settle_past (s : Scheduler γ) (f : FiberId) (kind : Kind) :
    (s.settle f kind).past = false := by
  unfold settle
  split
  · rfl
  · split
    · rfl
    · cases kind <;> rfl

/-- A worker that finds a task will scan again. -/
theorem scan_looks {s next : Scheduler γ} {w : WorkerId} {obs : Obs γ}
    (at_pc : (s.worker w).pc = .scan) (taken : s.runStep w = some (obs, next)) :
    Looks s w next := by
  simp only [runStep, at_pc] at taken
  split at taken
  · rename_i none_found
    cases taken
    rw [scan_task] at none_found
    have unfit := List.find?_eq_none.mp none_found
    refine ⟨at_pc, fun v other => Function.update_of_ne other .., ?_, fun _ => ⟨?_, ?_⟩⟩
    · simp only [setWorker_worker, if_true]
      split <;> exact fun at_done => by cases at_done
    · exact (s.scan_rest w s.m_fibers).trans (List.eraseP_of_forall_not unfit)
    · intro ft member
      exact Bool.eq_false_iff.mpr (unfit ft member)
  · rename_i task found
    cases taken
    refine ⟨at_pc, fun v other => Function.update_of_ne other .., ?_, ?_⟩
    · simp only [setWorker_worker, if_true]
      split <;> exact fun at_done => by cases at_done
    · intro through
      simp only [setWorker_worker, if_true, Worker.through, found] at through
      split at through <;> simp only [Pc.past, Bool.and_false, Bool.false_eq_true] at through

theorem runStep_stays {s next : Scheduler γ} {w : WorkerId} {obs : Obs γ}
    (elsewhere : (s.worker w).pc ≠ .scan) (taken : s.runStep w = some (obs, next)) :
    Stays s next := by
  unfold runStep at taken
  cases at_pc : (s.worker w).pc <;> rw [at_pc] at taken <;> dsimp only at taken
  case scan => exact absurd at_pc elsewhere
  case tickle ft =>
      cases taken
      refine Stays.move rfl (through_pc rfl ?_) ?_ (List.prefix_refl _)
      · rw [at_pc]
        cases ft <;> split <;> rfl
      · dsimp only
        split <;> exact fun at_done => by cases at_done
  case tickleWrite ft =>
      cases taken
      refine Stays.move rfl (through_pc rfl ?_) (fun at_done => by cases at_done)
        (List.prefix_refl _)
      rw [at_pc]
      cases ft <;> rfl
  case dispatch =>
      obtain ⟨next', done, same⟩ := Option.map_eq_some_iff.mp taken
      cases same
      exact dispatch_stays at_pc done
  case resume | recycle =>
      obtain ⟨fiber, -, same⟩ := Option.map_eq_some_iff.mp taken
      cases same
      exact .onward at_pc rfl rfl rfl (List.prefix_refl _)
  case settle f kind =>
      cases taken
      exact .onward at_pc rfl rfl (s.settle_past f kind) (List.prefix_refl _)
  case requeue =>
      cases taken
      rw [dropPooled_goto, schedule_eq]
      exact .onward at_pc rfl rfl rfl (List.prefix_append ..)
  case hold =>
      cases taken
      rw [dropPooled_goto]
      exact .onward at_pc rfl rfl rfl (List.prefix_refl _)
  all_goals cases taken
  all_goals exact .onward at_pc rfl rfl rfl (List.prefix_refl _)

theorem suspend_stays {s next : Scheduler γ} {w : WorkerId} {obs : Obs γ}
    {change : Fiber γ → Fiber γ} (taken : s.suspend w change = some (obs, next)) :
    Stays s next := by
  unfold suspend at taken
  split at taken
  · rename_i f kind at_pc
    cases taken
    exact .onward at_pc rfl rfl rfl (List.prefix_refl _)
  · cases taken

/-- Only a scan takes a task or lets a worker through. -/
theorem step_stays {s next : Scheduler γ} {act : Act γ} {obs : Obs γ}
    (taken : s.step act = some (obs, next)) :
    Stays s next ∨ ∃ w, act = .run w ∧ Looks s w next := by
  cases act <;> simp only [step] at taken
  case schedule fc thread =>
      split at taken
      · cases taken
        rw [schedule_eq]
        exact .inl (.still rfl (List.prefix_append ..))
      · cases taken
  case scheduleRange fcs =>
      split at taken
      · cases taken
        obtain ⟨calls, -, -, shape⟩ := s.scheduleRange_eq (fcs.map (ScheduleTask.of · none))
        rw [shape]
        exact .inl (.still rfl (List.prefix_append ..))
      · cases taken
  case rangeTickle =>
      split at taken
      · cases taken
        split <;> exact .inl (.still rfl (List.prefix_refl _))
      · cases taken
  case tickle =>
      cases taken
      split <;> exact .inl (.still rfl (List.prefix_refl _))
  case newFiber | stop =>
      cases taken
      exact .inl (.still rfl (List.prefix_refl _))
  case rangeWrite | tickleWrite =>
      split at taken <;> cases taken
      exact .inl (.still rfl (List.prefix_refl _))
  case run w =>
      by_cases at_scan : (s.worker w).pc = .scan
      · exact .inr ⟨w, rfl, scan_looks at_scan taken⟩
      · exact .inl (runStep_stays at_scan taken)
  case yieldToHold w | yieldToReady w | finish w => exact .inl (suspend_stays taken)
  case stopping w quiet =>
      unfold idleStopping at taken
      split at taken
      · rename_i at_pc
        split at taken <;> cases taken <;>
          exact .inl (.onward at_pc rfl rfl rfl (List.prefix_refl _))
      · cases taken
  case wake w | idleDone w =>
      split at taken
      · rename_i at_pc
        cases taken
        exact .inl (.onward at_pc rfl rfl rfl (List.prefix_refl _))
      · cases taken

/-! ### Executing fibers -/

/-- A fiber is in state `EXEC` only while one of the `n` workers has switched to it. -/
def Executing (n : Nat) (s : Scheduler γ) : Prop :=
  ∀ f, (s.fiber f).m_state = .EXEC → ∃ w < n, (s.worker w).pc.exec? = some f

variable {n : Nat} {s next : Scheduler γ} {w : WorkerId} {obs : Obs γ}

theorem Executing.keep (executing : Executing n s)
    (states : ∀ f, (next.fiber f).m_state = .EXEC → (s.fiber f).m_state = .EXEC)
    (workers : ∀ v f, (s.worker v).pc.exec? = some f → (next.worker v).pc.exec? = some f) :
    Executing n next := by
  intro f at_exec
  obtain ⟨v, here, running⟩ := executing f (states f at_exec)
  exact ⟨v, here, workers v f running⟩

/-- A worker that has not switched to a fiber moves. -/
theorem Executing.move {worker : Worker γ} {pc : Pc γ} (executing : Executing n s)
    (at_pc : (s.worker w).pc = pc) (still : pc.exec? = none)
    (moved : next.worker = Function.update s.worker w worker)
    (states : ∀ f, (next.fiber f).m_state = .EXEC → (s.fiber f).m_state = .EXEC) :
    Executing n next := by
  apply executing.keep states
  intro v f running
  have other : v ≠ w := by
    rintro rfl
    rw [at_pc, still] at running
    cases running
  rw [moved, Function.update_of_ne other]
  exact running

/-- One fiber changes, and does not come to execute. -/
theorem exec_of_setFiber {f g : FiberId} {fiber : Fiber γ}
    (stopped : fiber.m_state = .EXEC → (s.fiber f).m_state = .EXEC)
    (at_exec : ((s.setFiber f fiber).fiber g).m_state = .EXEC) : (s.fiber g).m_state = .EXEC := by
  rw [setFiber_fiber] at at_exec
  split at at_exec
  · rename_i same
    rw [same]
    exact stopped at_exec
  · exact at_exec

theorem reset_stopped {fiber fiber' : Fiber γ} {cb : Option γ}
    (reset : fiber.reset cb = some fiber') : fiber'.m_state = .INIT := by
  unfold Fiber.reset at reset
  split at reset
  · cases reset
    rfl
  · cases reset

theorem dispatchCb_executing {ft : ScheduleTask γ} {cb : γ} (executing : Executing n s)
    (at_pc : (s.worker w).pc = .dispatch (some ft)) (done : s.dispatchCb w cb = some next) :
    Executing n next := by
  unfold dispatchCb at done
  split at done
  · obtain ⟨fiber, reset, rfl⟩ := Option.map_eq_some_iff.mp done
    refine executing.move at_pc rfl rfl fun g => exec_of_setFiber fun at_exec => ?_
    rw [reset_stopped reset] at at_exec
    cases at_exec
  · cases done
    refine executing.move at_pc rfl rfl fun g => exec_of_setFiber fun at_exec => ?_
    cases at_exec

theorem dispatch_executing {ft : Option (ScheduleTask γ)} (executing : Executing n s)
    (at_pc : (s.worker w).pc = .dispatch ft) (done : s.dispatch w ft = some next) :
    Executing n next := by
  cases ft with
  | none =>
      cases done
      exact executing.move at_pc rfl rfl fun _ => id
  | some ft =>
      simp only [dispatch] at done
      split at done
      · split at done
        · cases done
          exact executing.move at_pc rfl rfl fun _ => id
        · split at done
          · exact dispatchCb_executing executing at_pc done
          · cases done
            exact executing.move at_pc rfl rfl fun _ => id
      · exact dispatchCb_executing executing at_pc done
      · cases done
        exact executing.move at_pc rfl rfl fun _ => id

theorem runStep_executing (executing : Executing n s) (here : w < n)
    (taken : s.runStep w = some (obs, next)) : Executing n next := by
  unfold runStep at taken
  cases at_pc : (s.worker w).pc <;> rw [at_pc] at taken <;> dsimp only at taken
  case scan =>
      split at taken <;> cases taken <;> exact executing.move at_pc rfl rfl fun _ => id
  case dispatch =>
      obtain ⟨next', done, same⟩ := Option.map_eq_some_iff.mp taken
      cases same
      exact dispatch_executing executing at_pc done
  case resume f kind =>
      -- the one step that makes a fiber execute, with the worker that does
      obtain ⟨fiber, resumed, same⟩ := Option.map_eq_some_iff.mp taken
      cases same
      intro g at_exec
      by_cases same : g = f
      · refine ⟨w, here, ?_⟩
        simp only [goto, setWorker_worker, if_true, same]
        rfl
      · have before : (s.fiber g).m_state = .EXEC := by
          rw [← Function.update_of_ne same fiber s.fiber]
          exact at_exec
        obtain ⟨v, there, running⟩ := executing g before
        have other : v ≠ w := by
          rintro rfl
          rw [at_pc] at running
          cases running
        refine ⟨v, there, ?_⟩
        simp only [goto, setWorker_worker, other, if_false]
        exact running
  case recycle =>
      obtain ⟨fiber, reset, same⟩ := Option.map_eq_some_iff.mp taken
      cases same
      refine executing.move at_pc rfl rfl fun g => exec_of_setFiber fun at_exec => ?_
      rw [reset_stopped reset] at at_exec
      cases at_exec
  case swapOut =>
      cases taken
      exact executing.move at_pc rfl rfl fun g => exec_of_setFiber id
  case requeue =>
      cases taken
      rw [dropPooled_goto, schedule_eq]
      exact executing.move at_pc rfl rfl fun _ => id
  case hold =>
      cases taken
      rw [dropPooled_goto]
      refine executing.move at_pc rfl rfl fun g => exec_of_setFiber fun at_exec => ?_
      cases at_exec
  all_goals cases taken
  all_goals exact executing.move at_pc rfl rfl fun _ => id

/-- The fiber that gives up its worker leaves `EXEC`, whatever other worker is in it. -/
theorem suspend_executing {change : Fiber γ → Fiber γ} (executing : Executing n s)
    (stops : ∀ fiber, (change fiber).m_state ≠ .EXEC)
    (taken : s.suspend w change = some (obs, next)) : Executing n next := by
  unfold suspend at taken
  split at taken
  · rename_i f kind at_pc
    cases taken
    intro g at_exec
    have other_fiber : g ≠ f := by
      rintro rfl
      apply stops (s.fiber g)
      rw [← Function.update_self g (change (s.fiber g)) s.fiber]
      exact at_exec
    have before : (s.fiber g).m_state = .EXEC := by
      rw [← Function.update_of_ne other_fiber (change (s.fiber f)) s.fiber]
      exact at_exec
    obtain ⟨v, there, running⟩ := executing g before
    have other : v ≠ w := by
      rintro rfl
      rw [at_pc] at running
      exact other_fiber (Option.some.inj running).symm
    refine ⟨v, there, ?_⟩
    simp only [goto, setWorker_worker, other, if_false]
    exact running
  · cases taken

theorem step_executing {act : Act γ} (executing : Executing n s)
    (inside : ∀ w, act.worker? = some w → w < n) (taken : s.step act = some (obs, next)) :
    Executing n next := by
  cases act <;> simp only [step] at taken
  case newFiber cb =>
      cases taken
      refine executing.keep (fun g => exec_of_setFiber fun at_exec => ?_) fun _ _ => id
      cases at_exec
  case schedule fc thread =>
      split at taken
      · cases taken
        rw [schedule_eq]
        exact executing
      · cases taken
  case scheduleRange fcs =>
      split at taken
      · cases taken
        obtain ⟨calls, -, -, shape⟩ := s.scheduleRange_eq (fcs.map (ScheduleTask.of · none))
        rw [shape]
        exact executing
      · cases taken
  case rangeTickle =>
      split at taken
      · cases taken
        split <;> exact executing
      · cases taken
  case tickle =>
      cases taken
      split <;> exact executing
  case stop =>
      cases taken
      exact executing
  case rangeWrite | tickleWrite =>
      split at taken <;> cases taken
      exact executing
  case run w => exact runStep_executing executing (inside w rfl) taken
  case yieldToHold w | yieldToReady w | finish w =>
      refine suspend_executing executing (fun fiber at_exec => ?_) taken
      cases at_exec
  case stopping w quiet =>
      unfold idleStopping at taken
      split at taken
      · rename_i at_pc
        split at taken <;> cases taken <;> exact executing.move at_pc rfl rfl fun _ => id
      · cases taken
  case wake w | idleDone w =>
      split at taken
      · rename_i at_pc
        cases taken
        exact executing.move at_pc rfl rfl fun _ => id
      · cases taken

/-! ### All workers through -/

/-- None of the `n` workers will look at the queue again. -/
def Deserted (n : Nat) (s : Scheduler γ) : Prop := ∀ w < n, (s.worker w).through = true

/-- The queued tasks that any worker may take. -/
def unpinned (s : Scheduler γ) : List (ScheduleTask γ) :=
  s.m_fibers.filter fun ft => decide (ft.thread = none)

theorem Stays.deserted (stays : Stays s next) : Deserted n next ↔ Deserted n s := by
  unfold Deserted
  simp only [stays.through]

/-- When the last worker goes through, no task that it might have taken is queued: no
worker executes a fiber then. -/
theorem Looks.unpinned (looks : Looks s w next) (here : w < n) (executing : Executing n s)
    (deserted : Deserted n next) : next.unpinned = [] := by
  obtain ⟨queue, unfit⟩ := looks.last (deserted w here)
  have none_executes : ∀ f, (s.fiber f).m_state ≠ .EXEC := by
    intro f at_exec
    obtain ⟨v, there, running⟩ := executing f at_exec
    by_cases same : v = w
    · rw [same, looks.before] at running
      cases running
    · have through := deserted v there
      rw [looks.others v same, Worker.through, Bool.and_eq_true] at through
      rw [Pc.exec?_of_past through.2] at running
      cases running
  unfold Scheduler.unpinned
  rw [queue]
  apply List.filter_eq_nil_iff.mpr
  intro ft member unpinned
  have no := unfit ft member
  unfold mayRun at no
  have mine : ft.isFor w = true := by
    simp only [ScheduleTask.isFor, of_decide_eq_true unpinned, decide_true, Bool.true_or]
  have idle : s.executing ft = false := by
    cases of_fiber : ft.fiber with
    | none => simp only [Scheduler.executing, of_fiber, Option.any_none]
    | some f =>
        simp only [Scheduler.executing, of_fiber, Option.any_some, none_executes f, decide_false]
  rw [mine, idle] at no
  cases no

/-- A worker that is through does not look. -/
theorem Looks.not_deserted (looks : Looks s w next) (here : w < n) : ¬ Deserted n s := by
  intro deserted
  have through := deserted w here
  rw [Worker.through, looks.before] at through
  cases (Bool.and_eq_true _ _).mp through |>.2

end Scheduler

end CorReactor
