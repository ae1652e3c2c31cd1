import CorReactor.ReactorShutdown
import CorReactor.SchedulerDrain

set_option autoImplicit false

/-! What is left in the queue of an `IOManager` when all workers have left `run`. -/

namespace CorReactor

variable {γ : Type}

namespace Reactor

/-- What every run keeps: a worker that has begun a test of `stopping` is inside its idle
fiber, executing fibers have their workers, and a worker that has left is through. -/
structure Draining (n : Nat) (r : Reactor γ) : Prop where
  placed : ∀ w, (r.idle w).sawTimers = true → (r.scheduler.worker w).pc = .idle
  executing : Scheduler.Executing n r.scheduler
  ended : ∀ w, (r.scheduler.worker w).pc = .done → (r.scheduler.worker w).through = true

/-- A step of the whole by what it does to the scheduler's queue and workers. -/
def Turns (n : Nat) (s next : Scheduler γ) : Prop :=
  s.Stays next ∨ ∃ w < n, s.Looks w next

variable {n : Nat} {r next : Reactor γ} {w : WorkerId} {verdict : Option Bool}

theorem new_draining (now : UInt64) : Draining n (new now : Reactor γ) where
  placed := fun _ saw => by cases saw
  executing := fun _ at_exec => by cases at_exec
  ended := fun _ at_done => by cases at_done

/-- No worker comes to its end without being through. -/
theorem Turns.ended {s next : Scheduler γ} (turns : Turns n s next)
    (ended : ∀ w, (s.worker w).pc = .done → (s.worker w).through = true) :
    ∀ w, (next.worker w).pc = .done → (next.worker w).through = true := by
  intro v at_done
  rcases turns with stays | ⟨w, -, looks⟩
  · rw [stays.through]
    rcases stays.ended v at_done with before | through
    · exact ended v before
    · exact through
  · have other : v ≠ w := by
      rintro rfl
      exact looks.ended at_done
    rw [looks.others v other] at at_done ⊢
    exact ended v at_done

/-- A step of the scheduler that is not one of the turns of `idle`. -/
theorem scheduler_turns {s next : Scheduler γ} {act : Scheduler.Act γ} {obs : Obs γ}
    (inside : ∀ w, act.worker? = some w → w < n) (taken : s.step act = some (obs, next)) :
    Turns n s next := by
  rcases Scheduler.step_stays taken with stays | ⟨w, rfl, looks⟩
  · exact .inl stays
  · exact .inr ⟨w, inside w rfl, looks⟩

/-- Triggered events only add to the queue. -/
theorem trigger_turns {deliveries : List (Delivery γ)} (done : r.trigger deliveries = some next) :
    r.scheduler.Stays next.scheduler ∧
      (Scheduler.Executing n r.scheduler → Scheduler.Executing n next.scheduler) := by
  unfold trigger at done
  obtain ⟨⟨os, s⟩, taken, rfl⟩ := Option.map_eq_some_iff.mp done
  have schedules : Transition.Along Scheduler.step
      (fun _ act => ∃ task, act = .schedule task none) r.scheduler
      ((deliveries.filter (·.scheduler = self)).map (.schedule ·.task none)) := by
    apply Transition.Along.of_mem
    intro act member _
    obtain ⟨delivery, -, rfl⟩ := List.mem_map.mp member
    exact ⟨_, rfl⟩
  have keep : ∀ s act obs s', r.scheduler.Stays s ∧
      (Scheduler.Executing n r.scheduler → Scheduler.Executing n s) →
      (∃ task, act = Scheduler.Act.schedule task none) → s.step act = some (obs, s') →
      r.scheduler.Stays s' ∧
        (Scheduler.Executing n r.scheduler → Scheduler.Executing n s') := by
    intro s act obs s' ⟨stays, executing⟩ ⟨task, same⟩ first
    subst same
    refine ⟨?_, fun before => Scheduler.step_executing (executing before)
      (fun _ mover => by cases mover) first⟩
    rcases Scheduler.step_stays first with more | ⟨w, same, -⟩
    · exact stays.trans more
    · cases same
  exact Transition.run_invariant keep ⟨.still rfl (List.prefix_refl _), id⟩ schedules taken

/-- A step of the scheduler with the idle fibers as they are or one of them moved on. -/
theorem Draining.scheduler (draining : r.Draining n) {act : Scheduler.Act γ} {obs : Obs γ}
    {s : Scheduler γ} (inside : ∀ w, act.worker? = some w → w < n)
    (taken : r.scheduler.step act = some (obs, s)) (same : next.scheduler = s)
    (placed : ∀ w, (next.idle w).sawTimers = true → (s.worker w).pc = .idle) :
    next.Draining n ∧ Turns n r.scheduler next.scheduler := by
  subst same
  have turns := scheduler_turns inside taken
  exact ⟨⟨placed, Scheduler.step_executing draining.executing inside taken,
    turns.ended draining.ended⟩, turns⟩

/-- A worker inside its idle fiber moves on within it, or a read takes it further. -/
theorem Draining.idle (draining : r.Draining n) (at_pc : (r.scheduler.worker w).pc = .idle)
    {worker : Worker γ} (past : worker.pc.past = false)
    (moved : next.scheduler = r.scheduler.setWorker w worker)
    (idle : next.idle = Function.update r.idle w .loop) :
    next.Draining n ∧ Turns n r.scheduler next.scheduler := by
  have stays : r.scheduler.Stays next.scheduler := by
    rw [moved]
    exact .onward at_pc rfl rfl past (List.prefix_refl _)
  refine ⟨⟨?_, ?_, Turns.ended (n := n) (.inl stays) draining.ended⟩, .inl stays⟩
  · intro v saw
    rw [idle] at saw
    have other : v ≠ w := by
      rintro rfl
      rw [Function.update_self] at saw
      cases saw
    rw [Function.update_of_ne other] at saw
    rw [moved, Scheduler.setWorker_worker, if_neg other]
    exact draining.placed v saw
  · rw [moved]
    exact draining.executing.move at_pc rfl rfl fun _ => id

/-- Nothing but the idle fibers' places and what is not the scheduler's changes. -/
theorem Draining.outside (draining : r.Draining n) (same : next.scheduler = r.scheduler)
    (placed : ∀ w, (next.idle w).sawTimers = true → (r.scheduler.worker w).pc = .idle) :
    next.Draining n ∧ Turns n r.scheduler next.scheduler := by
  rw [same]
  refine ⟨⟨?_, ?_, ?_⟩, .inl (.still rfl (List.prefix_refl _))⟩
  · rw [same]
    exact placed
  · rw [same]
    exact draining.executing
  · rw [same]
    exact draining.ended

theorem Draining.setIdle (draining : r.Draining n) {pc : IdlePc γ}
    (own : pc.sawTimers = true → (r.scheduler.worker w).pc = .idle)
    (same : next.scheduler = r.scheduler) (idle : next.idle = Function.update r.idle w pc) :
    next.Draining n ∧ Turns n r.scheduler next.scheduler := by
  apply draining.outside same
  intro v saw
  rw [idle] at saw
  by_cases here : v = w
  · rw [here, Function.update_self] at saw
    rw [here]
    exact own saw
  · rw [Function.update_of_ne here] at saw
    exact draining.placed v saw

theorem Draining.read (draining : r.Draining n) (at_pc : (r.scheduler.worker w).pc = .idle)
    (holds : Bool) (pc : IdlePc γ) :
    (r.read w holds pc).2.Draining n ∧ Turns n r.scheduler (r.read w holds pc).2.scheduler := by
  unfold Reactor.read
  split
  · exact draining.setIdle (fun _ => at_pc) rfl rfl
  · exact draining.idle at_pc rfl rfl rfl

theorem Draining.io (draining : r.Draining n) {op : IOOp γ}
    (taken : r.execIO op = some (verdict, next)) :
    next.Draining n ∧ Turns n r.scheduler next.scheduler := by
  obtain ⟨⟨out, io⟩, -, rest⟩ := Option.bind_eq_some_iff.mp taken
  obtain ⟨last, triggered, same⟩ := Option.map_eq_some_iff.mp rest
  cases same
  obtain ⟨⟨idle, -, -⟩, still, -⟩ := trigger_still triggered
  obtain ⟨stays, executing⟩ := trigger_turns (n := n) triggered
  refine ⟨⟨?_, executing draining.executing, Turns.ended (n := n) (.inl stays) draining.ended⟩,
    .inl stays⟩
  intro v saw
  rw [idle] at saw
  rw [still.workers]
  exact draining.placed v saw

theorem Draining.step (draining : r.Draining n) {act : Act γ}
    (inside : ∀ w, act.worker? = some w → w < n) (taken : r.step act = some (verdict, next)) :
    next.Draining n ∧ Turns n r.scheduler next.scheduler := by
  cases act <;> simp only [Reactor.step] at taken
  case scheduler act =>
      split at taken
      · rename_i own
        obtain ⟨⟨obs, s⟩, done, same⟩ := Option.map_eq_some_iff.mp taken
        cases same
        apply draining.scheduler inside done rfl
        intro v saw
        apply Scheduler.step_idle (draining.placed v saw) _ done
        intro quiet same
        rw [same] at own
        cases own
      · cases taken
  case timer op =>
      split at taken
      · obtain ⟨⟨ret, timers⟩, -, same⟩ := Option.map_eq_some_iff.mp taken
        cases same
        exact draining.outside rfl draining.placed
      · cases taken
  case io op =>
      split at taken
      · exact draining.io taken
      · cases taken
  case getNextTimer w now =>
      split at taken
      · rename_i at_pc _
        have shape : _ = next := congrArg Prod.snd (Option.some.inj taken)
        rw [← shape]
        have early : Draining n { r with timers := (r.timers.getNextTimer now).2 } :=
          ⟨draining.placed, draining.executing, draining.ended⟩
        exact early.read at_pc _ _
      · cases taken
  case readPending w | readFlags w | readQueue w =>
      split at taken
      · rename_i at_pc
        have shape : _ = next := congrArg Prod.snd (Option.some.inj taken)
        have place := draining.placed w
        rw [at_pc] at place
        rw [← shape]
        exact draining.read (place rfl) _ _
      · cases taken
  case readActive w =>
      split at taken
      · rename_i at_pc
        have place := draining.placed w
        rw [at_pc] at place
        split at taken <;> cases taken
        · exact draining.idle (place rfl) rfl rfl rfl
        · exact draining.idle (place rfl) rfl rfl rfl
      · cases taken
  case listExpiredCb w now addr =>
      split at taken
      · cases taken
        exact draining.setIdle (fun saw => by cases saw) rfl rfl
      · cases taken
  case scheduleCbs w =>
      split at taken
      · obtain ⟨⟨obs, s⟩, done, same⟩ := Option.map_eq_some_iff.mp taken
        cases same
        have still : s.worker = r.scheduler.worker := by
          rcases Scheduler.step_tracks done with ⟨-, still⟩ | ⟨u, mover, -⟩
          · exact still.workers
          · cases mover
        refine draining.scheduler (fun _ mover => by cases mover) done rfl ?_
        intro v saw
        rw [still]
        by_cases here : v = w
        · rw [here, Reactor.setIdle] at saw
          simp only [Function.update_self] at saw
          cases saw
        · simp only [Reactor.setIdle, Function.update_of_ne here] at saw
          exact draining.placed v saw
      · cases taken
  case deliver w fd events granted =>
      split at taken
      · exact draining.io taken
      · cases taken
  case idleDone w =>
      split at taken
      · obtain ⟨⟨obs, s⟩, done, same⟩ := Option.map_eq_some_iff.mp taken
        cases same
        have own : ∀ u, (Scheduler.Act.idleDone w : Scheduler.Act γ).worker? = some u → u < n :=
          inside
        refine draining.scheduler own done rfl ?_
        intro v saw
        by_cases here : v = w
        · rw [here, Reactor.setIdle] at saw
          simp only [Function.update_self] at saw
          cases saw
        · simp only [Reactor.setIdle, Function.update_of_ne here] at saw
          apply Scheduler.step_idle (draining.placed v saw) _ done
          intro quiet same
          cases same
      · cases taken

/-! ### Whole runs -/

/-- The step queues no task that any worker might take. -/
def QueuesNone (r : Reactor γ) (act : Act γ) : Prop :=
  ∀ verdict next, r.step act = some (verdict, next) → next.scheduler.unpinned = r.scheduler.unpinned

/-- When all `n` workers have left `run`, no task that any of them might have taken is left
in the queue, exactly if none was queued after the last look of the last worker. -/
theorem run_drained {now : UInt64} {acts : List (Act γ)} {verdicts : List (Option Bool)}
    (workers : ∀ act ∈ acts, ∀ w, act.worker? = some w → w < n)
    (taken : Transition.run step (new now) acts = some (verdicts, r))
    (ended : ∀ w < n, (r.scheduler.worker w).pc = .done) :
    r.scheduler.unpinned = [] ↔
      Transition.Along step (fun r act => r.scheduler.Deserted n → r.QueuesNone act)
        (new now) acts := by
  have inside : Transition.Along step (fun _ act => ∀ w, act.worker? = some w → w < n)
      (new now : Reactor γ) acts :=
    Transition.Along.of_mem (fun act member _ => workers act member) _
  have draining : r.Draining n :=
    Transition.run_invariant (fun _ _ _ _ holds good done => (holds.step good done).1)
      (new_draining now) inside taken
  have deserted : r.scheduler.Deserted n := fun w here => draining.ended w (ended w here)
  have enters : ∀ (r : Reactor γ) act verdict next, r.Draining n →
      (∀ w, act.worker? = some w → w < n) → ¬ r.scheduler.Deserted n →
      r.step act = some (verdict, next) → next.scheduler.Deserted n →
      next.scheduler.unpinned = [] := by
    intro r act verdict next holds good before done after
    rcases (holds.step good done).2 with stays | ⟨w, here, looks⟩
    · exact absurd (stays.deserted.mp after) before
    · exact looks.unpinned here holds.executing after
  have stays : ∀ (r : Reactor γ) act verdict next, r.Draining n →
      (∀ w, act.worker? = some w → w < n) → r.scheduler.Deserted n →
      r.step act = some (verdict, next) → next.scheduler.Deserted n ∧
      (next.scheduler.unpinned = [] ↔ r.scheduler.unpinned = [] ∧ r.QueuesNone act) := by
    intro r act verdict next holds good before done
    rcases (holds.step good done).2 with stays | ⟨w, here, looks⟩
    · refine ⟨stays.deserted.mpr before, ?_⟩
      obtain ⟨more, grown⟩ := stays.grows
      have shape : next.scheduler.unpinned = r.scheduler.unpinned ++
          more.filter fun ft => decide (ft.thread = none) := by
        simp only [Scheduler.unpinned, ← grown, List.filter_append]
      have quiet : r.QueuesNone act ↔ next.scheduler.unpinned = r.scheduler.unpinned := by
        constructor
        · exact fun queues => queues verdict next done
        · intro same verdict' next' again
          rw [done] at again
          cases again
          exact same
      rw [quiet, shape, List.append_eq_nil_iff, List.append_right_eq_self]
    · exact absurd before (looks.not_deserted here)
  rw [Transition.settled_iff_along
    (fun _ _ _ _ holds good done => (Draining.step holds good done).1)
    enters stays (new_draining now) inside taken deserted]
  exact and_iff_right fun _ => rfl

/-- A worker's turns in `run`. -/
def turns (w : WorkerId) (k : Nat) : List (Act Nat) := List.replicate k (.scheduler (.run w))

/-- A test of `stopping`. -/
def test (w : WorkerId) (now : UInt64) : List (Act Nat) :=
  [.getNextTimer w now, .readPending w, .readFlags w, .readQueue w, .readActive w]

/-- Worker 0 leaves while worker 1 executes a task, which schedules the next one; worker 1
executes that too before it leaves. -/
def left : List (Act Nat) :=
  [.scheduler .stop] ++ turns 0 3 ++ test 0 10 ++
    [.scheduler (.schedule (some (.cb 5)) none)] ++ turns 1 1 ++ turns 0 3 ++ turns 1 2 ++
    [.scheduler (.schedule (some (.cb 7)) none), .scheduler (.finish 1)] ++ turns 1 7 ++
    [.scheduler (.finish 1)] ++ turns 1 7 ++ test 1 20 ++ turns 1 3

theorem run_drained_last :
    ∃ verdicts r, Transition.run step (new 0) left = some (verdicts, r) ∧
      r.scheduler.unpinned = [] ∧
      Transition.Along step (fun r act => r.scheduler.Deserted 2 → r.QueuesNone act)
        (new 0) left := by
  have shown : (Transition.run step (new 0) left).map (fun p =>
      ((p.2.scheduler.worker 0).pc, (p.2.scheduler.worker 1).pc, p.2.scheduler.unpinned)) =
      some (.done, .done, []) := by
    rfl
  obtain ⟨⟨verdicts, r⟩, taken, seen⟩ := Option.map_eq_some_iff.mp shown
  simp only [Prod.mk.injEq] at seen
  obtain ⟨first, second, empty⟩ := seen
  have ended : ∀ w < 2, (r.scheduler.worker w).pc = .done := by
    intro w here
    match w, here with
    | 0, _ => exact first
    | 1, _ => exact second
  exact ⟨verdicts, r, taken, empty, (run_drained (by decide) taken ended).mp empty⟩

end Reactor

end CorReactor
