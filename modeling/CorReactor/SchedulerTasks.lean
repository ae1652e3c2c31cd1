import CorReactor.SchedulerQueue

set_option autoImplicit false

/-! Every task that is queued is taken once, by a worker it is for, or still queued. -/

namespace CorReactor

variable {γ : Type}

/-! ### What is seen of a run -/

/-- The tasks with a fiber or a callback that a step queues. -/
def Obs.pushed : Obs γ → List (ScheduleTask γ)
  | .queued fts => fts.filter ScheduleTask.valid
  | _ => []

/-- The task that a step takes, with the worker that takes it. -/
def Obs.taken : Obs γ → List (WorkerId × ScheduleTask γ)
  | .took w task => [(w, task)]
  | _ => []

namespace Scheduler

/-! ### One step -/

/-- What a step does to the queue, as can be seen of it. -/
def QueueStep (s : Scheduler γ) (obs : Obs γ) (next : Scheduler γ) : Prop :=
  match obs with
  | .silent => next.m_fibers = s.m_fibers
  | .queued fts => next.m_fibers = s.m_fibers ++ fts.filter ScheduleTask.valid
  | .took w task =>
      s.m_fibers.find? (s.mayRun w) = some task ∧
        next.m_fibers = s.m_fibers.eraseP (s.mayRun w)

/-- The scan leaves the other tasks, in their order. -/
theorem scan_rest (s : Scheduler γ) (w : WorkerId) (queue : List (ScheduleTask γ)) :
    (s.scan w queue).2.2 = queue.eraseP (s.mayRun w) := by
  induction queue with
  | nil => rfl
  | cons it rest ih =>
      rw [List.eraseP_cons]
      unfold scan mayRun
      cases it.isFor w with
      | false => simp only [Bool.not_false, if_true, Bool.false_and, cond_false, ih]; rfl
      | true =>
          cases s.executing it with
          | true => simp [ih]; rfl
          | false => simp

/-- What a worker at the head of the loop does: it takes the first task it may run. -/
theorem scan_step {s next : Scheduler γ} {w : WorkerId} {obs : Obs γ}
    (at_pc : (s.worker w).pc = .scan) (taken : s.step (.run w) = some (obs, next)) :
    obs = (match s.m_fibers.find? (s.mayRun w) with
      | none => .silent
      | some task => .took w task) ∧
      next.m_fibers = s.m_fibers.eraseP (s.mayRun w) := by
  simp only [step, runStep, at_pc] at taken
  rw [← scan_task, ← scan_rest]
  split at taken
  · rename_i none_found
    cases taken
    rw [none_found]
    exact ⟨rfl, rfl⟩
  · rename_i task found
    cases taken
    rw [found]
    exact ⟨rfl, rfl⟩

theorem dispatchCb_queue {s next : Scheduler γ} {w : WorkerId} {cb : γ}
    (done : s.dispatchCb w cb = some next) : next.m_fibers = s.m_fibers := by
  unfold dispatchCb at done
  split at done
  · obtain ⟨fiber, -, rfl⟩ := Option.map_eq_some_iff.mp done
    rfl
  · cases done
    rfl

theorem dispatch_queue {s next : Scheduler γ} {w : WorkerId} {ft : Option (ScheduleTask γ)}
    (done : s.dispatch w ft = some next) : next.m_fibers = s.m_fibers := by
  cases ft with
  | none =>
      cases done
      rfl
  | some ft =>
      simp only [dispatch] at done
      split at done
      · split at done
        · cases done
          rfl
        · split at done
          · exact dispatchCb_queue done
          · cases done
            rfl
      · exact dispatchCb_queue done
      · cases done
        rfl

theorem runStep_queue {s next : Scheduler γ} {w : WorkerId} {obs : Obs γ}
    (taken : s.runStep w = some (obs, next)) : s.QueueStep obs next := by
  by_cases at_scan : (s.worker w).pc = .scan
  · obtain ⟨rfl, left⟩ := scan_step at_scan taken
    cases found : s.m_fibers.find? (s.mayRun w) with
    | none =>
        have none_fits := List.find?_eq_none.mp found
        exact left.trans (List.eraseP_of_forall_not none_fits)
    | some task => exact ⟨found, left⟩
  · unfold runStep at taken
    cases at_pc : (s.worker w).pc <;> rw [at_pc] at taken <;> dsimp only at taken
    case scan => exact absurd at_pc at_scan
    case dispatch =>
      obtain ⟨next', done, same⟩ := Option.map_eq_some_iff.mp taken
      cases same
      exact dispatch_queue done
    case resume | recycle =>
      obtain ⟨fiber, -, same⟩ := Option.map_eq_some_iff.mp taken
      cases same
      rfl
    case requeue =>
      cases taken
      rw [dropPooled_goto, schedule_eq]
      rfl
    case hold =>
      cases taken
      rw [dropPooled_goto]
      rfl
    all_goals cases taken
    all_goals rfl

theorem suspend_queue {s next : Scheduler γ} {w : WorkerId} {obs : Obs γ}
    {change : Fiber γ → Fiber γ} (taken : s.suspend w change = some (obs, next)) :
    s.QueueStep obs next := by
  unfold suspend at taken
  split at taken
  · cases taken
    rfl
  · cases taken

theorem step_queue {s next : Scheduler γ} {act : Act γ} {obs : Obs γ}
    (taken : s.step act = some (obs, next)) : s.QueueStep obs next := by
  cases act <;> simp only [step] at taken
  case schedule fc thread =>
      split at taken
      · cases taken
        rw [schedule_eq]
        rfl
      · cases taken
  case scheduleRange fcs =>
      split at taken
      · cases taken
        obtain ⟨calls, -, -, shape⟩ := s.scheduleRange_eq (fcs.map (ScheduleTask.of · none))
        rw [shape]
        rfl
      · cases taken
  case rangeTickle =>
      split at taken
      · cases taken
        split <;> rfl
      · cases taken
  case tickle =>
      cases taken
      split <;> rfl
  case run w => exact runStep_queue taken
  case yieldToHold w => exact suspend_queue taken
  case yieldToReady w => exact suspend_queue taken
  case finish w => exact suspend_queue taken
  case stopping w quiet =>
      unfold idleStopping at taken
      split at taken
      · split at taken <;> cases taken <;> rfl
      · cases taken
  case newFiber | stop =>
      cases taken
      rfl
  case rangeWrite | tickleWrite | wake | idleDone =>
      split at taken <;> cases taken
      rfl

/-! ### Whole runs -/

/-- A worker at the head of the loop takes the first queued task that is for it and whose
fiber is not executing, if there is one, and leaves the others in their order. -/
def ScansInOrder (s : Scheduler γ) (act : Act γ) : Prop :=
  ∀ w obs next, act = .run w → (s.worker w).pc = .scan → s.step act = some (obs, next) →
    obs = (match s.m_fibers.find? (s.mayRun w) with
      | none => .silent
      | some task => .took w task) ∧
    next.m_fibers = s.m_fibers.eraseP (s.mayRun w)

theorem scansInOrder (s : Scheduler γ) (act : Act γ) : s.ScansInOrder act := by
  rintro w obs next rfl at_pc taken
  exact scan_step at_pc taken

/-- Taking the first fitting element out splits the queue around it. -/
theorem perm_of_find? {queue : List (ScheduleTask γ)} {fits : ScheduleTask γ → Bool}
    {task : ScheduleTask γ} (found : queue.find? fits = some task) :
    queue.Perm (task :: queue.eraseP fits) := by
  obtain ⟨fit, front, back, rfl, skipped⟩ := List.find?_eq_some_iff_append.mp found
  have unfit : ∀ it ∈ front, ¬ fits it = true := by
    intro it member yes
    have no := skipped it member
    rw [yes] at no
    cases no
  rw [List.eraseP_append_right _ unfit, List.eraseP_cons_of_pos fit]
  exact List.perm_middle

/-- The balance of a step: what was queued and what it pushes is what is queued after it
and what it takes. -/
theorem QueueStep.perm {s next : Scheduler γ} {obs : Obs γ} (change : s.QueueStep obs next) :
    (s.m_fibers ++ obs.pushed).Perm (next.m_fibers ++ obs.taken.map Prod.snd) := by
  cases obs with
  | silent =>
      rw [show next.m_fibers = s.m_fibers from change]
      exact List.Perm.refl _
  | queued fts =>
      have pushed : next.m_fibers = s.m_fibers ++ fts.filter ScheduleTask.valid := change
      rw [pushed]
      simp only [Obs.pushed, Obs.taken, List.map_nil, List.append_nil]
      exact List.Perm.refl _
  | took w task =>
      obtain ⟨found, left⟩ := change
      simp only [Obs.pushed, Obs.taken, List.append_nil, List.map_cons, List.map_nil, left]
      exact (perm_of_find? found).trans (List.perm_append_singleton task _).symm

/-- Only a worker that the task is for takes it. -/
theorem QueueStep.placed {s next : Scheduler γ} {obs : Obs γ} (change : s.QueueStep obs next)
    {w : WorkerId} {task : ScheduleTask γ} (taken : (w, task) ∈ obs.taken) {t : WorkerId}
    (pinned : task.thread = some t) : w = t := by
  cases obs with
  | silent => cases taken
  | queued fts => cases taken
  | took v it =>
      cases List.mem_singleton.mp taken
      have fits := List.find?_some change.1
      unfold mayRun ScheduleTask.isFor at fits
      rw [pinned] at fits
      simp at fits
      exact fits.1.symm

/-- Over any run, from any state, the tasks ever queued are those taken and those still
in the queue, and each is taken by a worker it is for, at its turn. -/
theorem run_conserves {s t : Scheduler γ} {acts : List (Act γ)} {os : List (Obs γ)}
    (taken : Transition.run step s acts = some (os, t)) :
    (s.m_fibers ++ os.flatMap Obs.pushed).Perm
        (t.m_fibers ++ (os.flatMap Obs.taken).map Prod.snd) ∧
      (∀ w task, (w, task) ∈ os.flatMap Obs.taken → ∀ t, task.thread = some t → w = t) ∧
      Transition.Along step ScansInOrder s acts := by
  refine ⟨?_, ?_, Transition.Along.of_mem (fun act _ s => s.scansInOrder act) s⟩
  · induction acts generalizing s os with
    | nil =>
        cases taken
        exact List.Perm.refl _
    | cons act rest ih =>
        obtain ⟨obs, mid, tail, first, after, rfl⟩ := (Transition.run_cons_iff ..).mp taken
        have here := (step_queue first).perm
        have later := ih after
        simp only [List.flatMap_cons, List.map_append]
        calc List.Perm (s.m_fibers ++ (obs.pushed ++ tail.flatMap Obs.pushed))
              ((mid.m_fibers ++ obs.taken.map Prod.snd) ++ tail.flatMap Obs.pushed) := by
                rw [← List.append_assoc]
                exact here.append_right _
          List.Perm _ ((mid.m_fibers ++ tail.flatMap Obs.pushed) ++ obs.taken.map Prod.snd) := by
                rw [List.append_assoc, List.append_assoc]
                exact List.perm_append_comm.append_left _
          List.Perm _ ((t.m_fibers ++ (tail.flatMap Obs.taken).map Prod.snd) ++
                obs.taken.map Prod.snd) := later.append_right _
          List.Perm _ (t.m_fibers ++ (obs.taken.map Prod.snd ++
                (tail.flatMap Obs.taken).map Prod.snd)) := by
                rw [List.append_assoc]
                exact List.perm_append_comm.append_left _
  · induction acts generalizing s os with
    | nil =>
        cases taken
        rintro w task ⟨⟩
    | cons act rest ih =>
        obtain ⟨obs, mid, tail, first, after, rfl⟩ := (Transition.run_cons_iff ..).mp taken
        intro w task member t pinned
        rw [List.flatMap_cons] at member
        rcases List.mem_append.mp member with here | later
        · exact (step_queue first).placed here pinned
        · exact ih after w task later t pinned

/-- Worker 0 passes over a task for worker 1 and takes the fiber behind it. -/
theorem run_conserves_pinned :
    ∃ os t, Transition.run step ({} : Scheduler Nat)
      [.newFiber 7, .schedule (some (.cb 8)) (some 1), .schedule (some (.fiber 0)) none,
        .schedule none none, .run 0] = some (os, t) ∧
      t.m_fibers = [{ cb := some 8, thread := some 1 }] ∧
      os.flatMap Obs.taken = [(0, { fiber := some 0 })] ∧
      (([] : List (ScheduleTask Nat)) ++ os.flatMap Obs.pushed).Perm
        (t.m_fibers ++ (os.flatMap Obs.taken).map Prod.snd) := by
  have shown : (Transition.run step ({} : Scheduler Nat)
      [.newFiber 7, .schedule (some (.cb 8)) (some 1), .schedule (some (.fiber 0)) none,
        .schedule none none, .run 0]).map (fun r => (r.2.m_fibers, r.1.flatMap Obs.taken)) =
        some ([{ cb := some 8, thread := some 1 }], [(0, { fiber := some 0 })]) := by
    decide
  obtain ⟨⟨os, t⟩, taken, seen⟩ := Option.map_eq_some_iff.mp shown
  obtain ⟨queue, tasks⟩ := Prod.mk.inj seen
  exact ⟨os, t, taken, queue, tasks, (run_conserves taken).1⟩

end Scheduler

end CorReactor
