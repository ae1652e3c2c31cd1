import CorReactor.SchedulerQueue

set_option autoImplicit false

/-! Wake-ups of the workers that sleep in `epoll_wait`. -/

namespace CorReactor

variable {γ : Type}

namespace Scheduler

/-- A call of the range `schedule` has not returned yet. -/
def Calling (s : Scheduler γ) : Prop := 0 < s.calls + s.writes

/-- The worker is about to sleep, or asleep, and no byte was written since its scan. -/
def Dozes (s : Scheduler γ) (w : WorkerId) : Prop :=
  (s.worker w).pc.dozing = true ∧ (s.worker w).scannedAt = s.written

/-- No dozing worker may run the task. -/
def Unneeded (s : Scheduler γ) (ft : ScheduleTask γ) : Prop :=
  ∀ w, s.Dozes w → s.mayRun w ft = false

/-- Between calls of `schedule`, a worker in `epoll_wait` that may run a queued task has
a byte to read that was written after its scan. -/
def Heard (s : Scheduler γ) : Prop :=
  s.calls = 0 → s.writes = 0 → ∀ w, (s.worker w).pc = .wait →
    ∀ ft ∈ s.m_fibers, s.mayRun w ft = true → (s.worker w).scannedAt < s.written

/-- The tasks can be queued without a byte. -/
def Silent (s : Scheduler γ) (fts : List (ScheduleTask γ)) : Prop :=
  s.Calling ∨ ∀ ft ∈ fts, ft.valid = true → s.Unneeded ft

/-- The fiber can leave EXEC without a byte. -/
def Released (s : Scheduler γ) (f : FiberId) : Prop :=
  s.Calling ∨ ∀ ft ∈ s.m_fibers, ft.fiber = some f → ∀ w, s.Dozes w → ft.isFor w = false

/-- No step that writes no byte makes a task runnable for a dozing worker. -/
def Warned (s : Scheduler γ) : Act γ → Prop
  | .schedule fc thread => s.Silent [ScheduleTask.of fc thread]
  | .scheduleRange fcs => s.m_fibers = [] ∨ s.Silent (fcs.map (ScheduleTask.of · none))
  | .rangeTickle =>
      s.hasIdleThreads = false ∨ 1 < s.calls + s.writes ∨ ∀ ft ∈ s.m_fibers, s.Unneeded ft
  | .run w =>
      match (s.worker w).pc with
      | .requeue f _ => s.Silent [ScheduleTask.of (some (.fiber f)) none]
      | .hold f _ => s.Released f
      | _ => True
  | .yieldToHold w | .yieldToReady w | .finish w =>
      match (s.worker w).pc with
      | .exec f _ => s.Released f
      | _ => True
  | _ => True

structure Wakeful (s : Scheduler γ) : Prop where
  created : s.Created
  past : ∀ w, (s.worker w).scannedAt ≤ s.written
  quiet : ¬ s.Calling → ∀ ft ∈ s.m_fibers, s.Unneeded ft

theorem init_wakeful : ({} : Scheduler γ).Wakeful := by
  refine ⟨init_created, ?_, ?_⟩
  · intro w
    exact Nat.le_refl 0
  · intro _ ft member
    cases member

theorem Wakeful.heard {s : Scheduler γ} (wakeful : s.Wakeful) : s.Heard := by
  intro calls writes w at_pc ft member runs
  have silent : ¬ s.Calling := by
    unfold Calling
    omega
  apply Nat.lt_of_le_of_ne (wakeful.past w)
  intro same
  have asleep : (s.worker w).pc.dozing = true := by
    rw [at_pc]
    rfl
  have unneeded := wakeful.quiet silent ft member w ⟨asleep, same⟩
  rw [runs] at unneeded
  cases unneeded

/-! ### Steps that keep it -/

/-- A task is runnable in the next state only if it was before, where no fiber has left
EXEC. -/
theorem mayRun_of_next {s next : Scheduler γ} {ft : ScheduleTask γ} {v : WorkerId}
    (states : ∀ f, ft.fiber = some f → (s.fiber f).m_state = .EXEC →
      (next.fiber f).m_state = .EXEC)
    (runs : next.mayRun v ft = true) : s.mayRun v ft = true := by
  simp only [mayRun, Bool.and_eq_true, Bool.not_eq_true'] at runs ⊢
  refine ⟨runs.1, ?_⟩
  cases of_fiber : ft.fiber with
  | none => simp only [executing, of_fiber, Option.any_none]
  | some f =>
      have ended := runs.2
      simp only [executing, of_fiber, Option.any_some, decide_eq_false_iff_not] at ended ⊢
      exact fun running => ended (states f of_fiber running)

theorem Unneeded.next {s next : Scheduler γ} {ft : ScheduleTask γ} (unneeded : s.Unneeded ft)
    (dozes : ∀ v, next.Dozes v → s.Dozes v)
    (runs : ∀ v, s.Dozes v → next.mayRun v ft = true → s.mayRun v ft = true) :
    next.Unneeded ft := by
  intro v asleep
  have before := unneeded v (dozes v asleep)
  by_contra runnable
  have now : next.mayRun v ft = true := by simpa using runnable
  rw [runs v (dozes v asleep) now] at before
  cases before

/-- A byte in the pipe wakes everyone that has scanned before. -/
theorem Wakeful.byte {s next : Scheduler γ} (wakeful : s.Wakeful) (created : next.Created)
    (written : next.written = s.written + 1)
    (scans : ∀ w, (next.worker w).scannedAt = (s.worker w).scannedAt) : next.Wakeful := by
  have past (w : WorkerId) : (next.worker w).scannedAt < next.written := by
    rw [scans, written]
    exact Nat.lt_succ_of_le (wakeful.past w)
  refine ⟨created, fun w => Nat.le_of_lt (past w), ?_⟩
  intro _ ft _ w dozes
  exact absurd dozes.2 (Nat.ne_of_lt (past w))

/-- No worker moves. -/
theorem Wakeful.stay {s next : Scheduler γ} (wakeful : s.Wakeful) (created : next.Created)
    (workers : next.worker = s.worker) (written : next.written = s.written)
    (quiet : ¬ next.Calling → ∀ ft ∈ next.m_fibers, s.Unneeded ft)
    (runs : ∀ ft ∈ next.m_fibers, ∀ v, next.mayRun v ft = true → s.mayRun v ft = true) :
    next.Wakeful := by
  refine ⟨created, ?_, ?_⟩
  · rw [workers, written]
    exact wakeful.past
  · intro silent ft member
    apply (quiet silent ft member).next
    · intro v asleep
      unfold Dozes at asleep
      rw [workers, written] at asleep
      exact asleep
    · exact fun v _ => runs ft member v

/-- A worker that has not scanned moves on, and dozes only if it did before. -/
structure Onward (s next : Scheduler γ) (w : WorkerId) (worker : Worker γ) : Prop where
  moved : next.worker = Function.update s.worker w worker
  written : next.written = s.written
  scanned : worker.scannedAt = (s.worker w).scannedAt
  doze : worker.pc.dozing = true → (s.worker w).pc.dozing = true

namespace Onward

variable {s next : Scheduler γ} {w : WorkerId} {worker : Worker γ}

theorem scannedAt (onward : Onward s next w worker) (v : WorkerId) :
    (next.worker v).scannedAt = (s.worker v).scannedAt := by
  by_cases same : v = w
  · subst same
    rw [onward.moved, Function.update_self]
    exact onward.scanned
  · rw [onward.moved, Function.update_of_ne same]

theorem dozes (onward : Onward s next w worker) {v : WorkerId} (asleep : next.Dozes v) :
    s.Dozes v := by
  refine ⟨?_, ?_⟩
  · have dozing := asleep.1
    rw [onward.moved] at dozing
    by_cases same : v = w
    · subst same
      rw [Function.update_self] at dozing
      exact onward.doze dozing
    · rw [Function.update_of_ne same] at dozing
      exact dozing
  · rw [← onward.scannedAt v, ← onward.written]
    exact asleep.2

theorem wakeful (onward : Onward s next w worker) (wakeful : s.Wakeful) (created : next.Created)
    (quiet : ¬ next.Calling → ∀ ft ∈ next.m_fibers, s.Unneeded ft)
    (runs : ¬ next.Calling → ∀ ft ∈ next.m_fibers, ∀ v, s.Dozes v →
      next.mayRun v ft = true → s.mayRun v ft = true) : next.Wakeful := by
  refine ⟨created, ?_, ?_⟩
  · intro v
    rw [onward.scannedAt, onward.written]
    exact wakeful.past v
  · intro silent ft member
    exact (quiet silent ft member).next (fun v => onward.dozes) (runs silent ft member)

end Onward

/-- A worker goes on to a place where it is awake. -/
theorem Wakeful.awake {s next : Scheduler γ} {w : WorkerId} {worker : Worker γ}
    (wakeful : s.Wakeful) (created : next.Created)
    (moved : next.worker = Function.update s.worker w worker) (written : next.written = s.written)
    (scanned : worker.scannedAt = (s.worker w).scannedAt) (awake : worker.pc.dozing = false)
    (quiet : ¬ next.Calling → ∀ ft ∈ next.m_fibers, s.Unneeded ft)
    (runs : ¬ next.Calling → ∀ ft ∈ next.m_fibers, ∀ v, s.Dozes v →
      next.mayRun v ft = true → s.mayRun v ft = true) : next.Wakeful := by
  have onward : Onward s next w worker := by
    refine ⟨moved, written, scanned, ?_⟩
    intro dozing
    rw [awake] at dozing
    cases dozing
  exact onward.wakeful wakeful created quiet runs

/-- A fiber that leaves EXEC under the guard makes no task runnable for a dozing worker. -/
theorem Released.runs {s next : Scheduler γ} {f : FiberId} (released : s.Released f)
    (silent : ¬ s.Calling) (fibers : ∀ g, g ≠ f → next.fiber g = s.fiber g) :
    ∀ ft ∈ s.m_fibers, ∀ v, s.Dozes v → next.mayRun v ft = true → s.mayRun v ft = true := by
  intro ft member v asleep runs
  by_cases mine : ft.fiber = some f
  · rcases released with calling | free
    · exact absurd calling silent
    · have other := free ft member mine v asleep
      simp only [mayRun, other, Bool.false_and] at runs
      cases runs
  · apply mayRun_of_next _ runs
    intro g of_fiber executing
    rw [fibers g]
    · exact executing
    · rintro rfl
      exact mine of_fiber

/-- A step on a fiber that does not leave EXEC makes nothing runnable. -/
theorem mayRun_of_fiber {s next : Scheduler γ} {f : FiberId}
    (fibers : ∀ g, g ≠ f → next.fiber g = s.fiber g)
    (state : (s.fiber f).m_state = .EXEC → (next.fiber f).m_state = .EXEC) {v : WorkerId}
    {ft : ScheduleTask γ} (runs : next.mayRun v ft = true) : s.mayRun v ft = true := by
  apply mayRun_of_next _ runs
  intro g of_fiber executing
  by_cases same : g = f
  · subst same
    exact state executing
  · rw [fibers g same]
    exact executing

theorem reset_idle {fiber fiber' : Fiber γ} {cb : Option γ} (reset : fiber.reset cb = some fiber') :
    fiber.m_state ≠ .EXEC := by
  intro executing
  simp [Fiber.reset, executing] at reset

theorem swapIn_executes {fiber fiber' : Fiber γ} (resumed : fiber.swapIn = some fiber') :
    fiber'.m_state = .EXEC := by
  unfold Fiber.swapIn at resumed
  split at resumed
  · cases resumed
  · split at resumed
    · cases resumed
    · cases resumed
      rfl

theorem Silent.unneeded {s : Scheduler γ} {fts : List (ScheduleTask γ)} (wakeful : s.Wakeful)
    (silent : s.Silent fts) (calling : ¬ s.Calling) :
    ∀ ft ∈ s.m_fibers ++ fts.filter ScheduleTask.valid, s.Unneeded ft := by
  intro ft member
  rcases List.mem_append.mp member with old | new
  · exact wakeful.quiet calling ft old
  · rcases silent with busy | free
    · exact absurd busy calling
    · have pushed := List.mem_filter.mp new
      exact free ft pushed.1 pushed.2

/-- After a scan that found nothing the worker may run nothing that is queued. -/
theorem Wakeful.scan {s : Scheduler γ} (wakeful : s.Wakeful) {w : WorkerId} {pc : Pc γ}
    {active : UInt64} (next : pc = .tickle (s.scan w s.m_fibers).2.1 ∨
      pc = .dispatch (s.scan w s.m_fibers).2.1)
    (created : Created { s.setWorker w { s.worker w with pc := pc, scannedAt := s.written } with
      m_fibers := (s.scan w s.m_fibers).2.2
      m_activateThreadCount := active }) :
    Wakeful { s.setWorker w { s.worker w with pc := pc, scannedAt := s.written } with
      m_fibers := (s.scan w s.m_fibers).2.2
      m_activateThreadCount := active } := by
  refine ⟨created, ?_, ?_⟩
  · intro v
    simp only [setWorker_worker]
    split
    · exact Nat.le_refl _
    · exact wakeful.past v
  · intro silent ft member v asleep
    have queued := s.scan_left w s.m_fibers ft member
    have dozing := asleep.1
    simp only [setWorker_worker] at dozing
    by_cases same : v = w
    · subst same
      rw [if_pos rfl] at dozing
      cases found : (s.scan v s.m_fibers).2.1 with
      | none =>
          rw [scan_task] at found
          exact Bool.eq_false_iff.mpr (List.find?_eq_none.mp found ft queued)
      | some task =>
          rw [found] at next
          rcases next with rfl | rfl <;> cases dozing
    · rw [if_neg same] at dozing
      have scanned := asleep.2
      simp only [setWorker_worker, if_neg same] at scanned
      exact wakeful.quiet silent ft queued v ⟨dozing, scanned⟩

theorem Rule.wakeful {s next : Scheduler γ} {act : Act γ} (rule : Rule s act next)
    (wakeful : s.Wakeful) (warned : s.Warned act) : next.Wakeful := by
  have created := rule.created wakeful.created
  cases rule with
  | newFiber cb =>
      apply wakeful.stay created rfl rfl wakeful.quiet
      intro ft member v
      apply mayRun_of_next
      intro f of_fiber executing
      have known := wakeful.created.queued ft member f of_fiber
      simp only [Scheduler.newFiber, setFiber_fiber, if_neg (Nat.ne_of_lt known)]
      exact executing
  | @schedule fc thread known =>
      rw [schedule_eq] at created ⊢
      apply wakeful.stay created rfl rfl _ (fun _ _ _ => id)
      exact fun silent => warned.unneeded wakeful silent
  | @scheduleRange fcs known =>
      obtain ⟨calls, asks, more, shape⟩ := s.scheduleRange_eq (fcs.map (ScheduleTask.of · none))
      rw [shape] at created ⊢
      apply wakeful.stay created rfl rfl _ (fun _ _ _ => id)
      intro silent
      have before : ¬ s.Calling := by
        unfold Calling at silent ⊢
        simp only at silent
        omega
      rcases warned with none_queued | warned
      · by_cases some_pushed : fcs.map (ScheduleTask.of · none) = []
        · intro ft member
          rw [some_pushed, none_queued] at member
          cases member
        · have asked := asks none_queued some_pushed
          unfold Calling at silent
          simp only at silent
          omega
      · exact warned.unneeded wakeful before
  | rangeQuiet due idle =>
      apply wakeful.stay created rfl rfl _ (fun _ _ _ => id)
      intro silent
      unfold Calling at silent
      simp only at silent
      rcases warned with busy | more | free
      · rw [idle] at busy
        cases busy
      · omega
      · exact free
  | rangeDue due =>
      apply wakeful.stay created rfl rfl _ (fun _ _ _ => id)
      intro silent
      unfold Calling at silent
      simp only at silent
      omega
  | rangeWrite => exact wakeful.byte created rfl (fun _ => rfl)
  | tickle =>
      exact wakeful.stay created rfl rfl wakeful.quiet (fun _ _ _ => id)
  | tickleWrite => exact wakeful.byte created rfl (fun _ => rfl)
  | stop =>
      exact wakeful.stay created rfl rfl wakeful.quiet (fun _ _ _ => id)
  | scan at_pc next => exact wakeful.scan next created
  | @move _ w pc' term active idle moves =>
      apply Onward.wakeful (s := s) (w := w) _ wakeful created wakeful.quiet (fun _ _ _ _ _ => id)
      · exact { s.worker w with pc := pc', idle_term := term }
      · exact ⟨rfl, rfl, rfl, moves.doze⟩
  | write at_pc =>
      apply wakeful.byte created rfl
      intro v
      simp only [goto, setWorker, Function.update_apply]
      split
      · rename_i same
        rw [same]
      · rfl
  | @swapIn w f kind fiber at_pc resumed =>
      refine wakeful.awake created rfl rfl rfl rfl wakeful.quiet ?_
      intro _ ft _ v _
      apply mayRun_of_fiber (fun g other => Function.update_of_ne other ..)
      intro _
      simp only [goto, setWorker, setFiber_fiber, if_true]
      exact swapIn_executes resumed
  | @suspend _ w f kind fiber at_pc by_fiber =>
      have released : s.Released f := by
        rcases by_fiber with rfl | rfl | rfl <;> simpa only [Warned, at_pc] using warned
      refine wakeful.awake created rfl rfl rfl rfl wakeful.quiet ?_
      exact fun silent => released.runs silent (fun g other => Function.update_of_ne other ..)
  | @saved w f kind at_pc =>
      refine wakeful.awake created rfl rfl rfl rfl wakeful.quiet ?_
      intro _ ft _ v _
      apply mayRun_of_fiber (fun g other => Function.update_of_ne other ..)
      intro executing
      simp only [goto, setWorker, setFiber_fiber, if_true]
      exact executing
  | @hold w f kind at_pc =>
      rw [dropPooled_goto] at created ⊢
      have released : s.Released f := by simpa only [Warned, at_pc] using warned
      refine wakeful.awake created rfl rfl rfl rfl wakeful.quiet ?_
      exact fun silent => released.runs silent (fun g other => Function.update_of_ne other ..)
  | @recycle w f fiber at_pc reset =>
      refine wakeful.awake created rfl rfl rfl rfl wakeful.quiet ?_
      intro _ ft _ v _
      apply mayRun_of_fiber (fun g other => Function.update_of_ne other ..)
      exact fun executing => absurd executing (reset_idle reset)
  | @reuse w ft f cb fiber at_pc pooled reset =>
      refine wakeful.awake created rfl rfl rfl rfl wakeful.quiet ?_
      intro _ ft _ v _
      apply mayRun_of_fiber (fun g other => Function.update_of_ne other ..)
      exact fun executing => absurd executing (reset_idle reset)
  | @fresh w ft cb at_pc =>
      refine wakeful.awake created rfl rfl rfl rfl wakeful.quiet ?_
      intro _ ft member v _
      apply mayRun_of_next
      intro f of_fiber executing
      have known := wakeful.created.queued ft member f of_fiber
      simp only [setWorker, Scheduler.newFiber, setFiber_fiber, if_neg (Nat.ne_of_lt known)]
      exact executing
  | @requeue w f kind at_pc =>
      rw [dropPooled_goto, schedule_eq] at created ⊢
      have silent : s.Silent [ScheduleTask.of (some (.fiber f)) none] := by
        simpa only [Warned, at_pc] using warned
      refine wakeful.awake created rfl rfl rfl rfl ?_ (fun _ _ _ _ _ => id)
      exact fun calling => silent.unneeded wakeful calling

/-- A guarded step keeps the invariant. -/
theorem step_wakeful {s next : Scheduler γ} {act : Act γ} {obs : Obs γ} (wakeful : s.Wakeful)
    (warned : s.Warned act) (taken : s.step act = some (obs, next)) : next.Wakeful :=
  (step_rule taken).wakeful wakeful warned

end Scheduler

end CorReactor
