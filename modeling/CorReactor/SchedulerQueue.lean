import CorReactor.SchedulerRules

set_option autoImplicit false

/-! What `schedule` and the scan do to the queue; the fibers that are named exist. -/

namespace CorReactor

variable {γ : Type}

/-- The test of `scheduleNoLock`. -/
def ScheduleTask.valid (ft : ScheduleTask γ) : Bool := ft.fiber.isSome || ft.cb.isSome

namespace Scheduler

theorem schedule_eq (s : Scheduler γ) (ft : ScheduleTask γ) :
    s.schedule ft = { s with m_fibers := s.m_fibers ++ [ft].filter ScheduleTask.valid } := by
  unfold schedule scheduleNoLock
  by_cases valid : ft.valid
  · have shape : (ft.fiber.isSome || ft.cb.isSome) = true := valid
    simp only [shape, valid, if_true, List.filter_cons_of_pos, List.filter_nil]
  · have shape : ¬(ft.fiber.isSome || ft.cb.isSome) = true := valid
    simp only [shape, valid, if_false, List.filter_cons_of_neg, List.filter_nil,
      List.append_nil, Bool.false_eq_true, not_false_eq_true]

theorem scheduleAll_eq (s : Scheduler γ) (tickles : Bool) (fts : List (ScheduleTask γ)) :
    (s.scheduleAll tickles fts).2 =
      { s with m_fibers := s.m_fibers ++ fts.filter ScheduleTask.valid } := by
  induction fts generalizing s tickles with
  | nil => simp only [scheduleAll, List.filter_nil, List.append_nil]
  | cons ft rest ih =>
      have first : (s.scheduleNoLock ft).2 =
          { s with m_fibers := s.m_fibers ++ [ft].filter ScheduleTask.valid } :=
        s.schedule_eq ft
      simp only [scheduleAll]
      rw [ih, first]
      simp only [List.append_assoc, ← List.filter_append, List.singleton_append]

theorem scheduleAll_tickles (s : Scheduler γ) (fts : List (ScheduleTask γ)) :
    (s.scheduleAll true fts).1 = true := by
  induction fts generalizing s with
  | nil => rfl
  | cons ft rest ih =>
      simp only [scheduleAll, Bool.or_true]
      exact ih _

/-- The range `schedule` asks for `tickle` when it finds the queue empty. -/
theorem scheduleAll_of_empty {s : Scheduler γ} (none_queued : s.m_fibers = [])
    {fts : List (ScheduleTask γ)} (some_pushed : fts ≠ []) :
    (s.scheduleAll false fts).1 = true := by
  cases fts with
  | nil => exact absurd rfl some_pushed
  | cons ft rest =>
      have first : (s.scheduleNoLock ft).1 = true := by
        simp only [scheduleNoLock, none_queued, List.isEmpty_nil]
      simp only [scheduleAll, first, Bool.or_false]
      exact scheduleAll_tickles _ rest

theorem scheduleRange_eq (s : Scheduler γ) (fts : List (ScheduleTask γ)) :
    ∃ calls, (s.m_fibers = [] → fts ≠ [] → s.calls < calls) ∧ s.calls ≤ calls ∧
      s.scheduleRange fts =
        { s with m_fibers := s.m_fibers ++ fts.filter ScheduleTask.valid, calls := calls } := by
  unfold scheduleRange
  simp only [scheduleAll_eq]
  split
  · exact ⟨s.calls + 1, fun _ _ => Nat.lt_succ_self _, Nat.le_succ _, rfl⟩
  · rename_i quiet
    refine ⟨s.calls, ?_, Nat.le_refl _, rfl⟩
    intro none_queued some_pushed
    exact absurd (scheduleAll_of_empty none_queued some_pushed) quiet

theorem scan_left (s : Scheduler γ) (w : WorkerId) (queue : List (ScheduleTask γ)) :
    ∀ ft ∈ (s.scan w queue).2.2, ft ∈ queue := by
  induction queue with
  | nil => exact fun _ => id
  | cons it rest ih =>
      have keep : ∀ ft ∈ it :: (s.scan w rest).2.2, ft ∈ it :: rest := by
        intro ft member
        rcases List.mem_cons.mp member with rfl | member
        · exact List.mem_cons_self
        · exact List.mem_cons_of_mem it (ih ft member)
      unfold scan
      split
      · exact keep
      · split
        · exact keep
        · exact fun ft member => List.mem_cons_of_mem it member

/-- The test that both conditions of the scan make. -/
def mayRun (s : Scheduler γ) (w : WorkerId) (ft : ScheduleTask γ) : Bool :=
  ft.isFor w && !s.executing ft

/-- The scan takes the first task that the worker may run. -/
theorem scan_task (s : Scheduler γ) (w : WorkerId) (queue : List (ScheduleTask γ)) :
    (s.scan w queue).2.1 = queue.find? (s.mayRun w) := by
  induction queue with
  | nil => rfl
  | cons it rest ih =>
      unfold scan
      cases mine : it.isFor w with
      | false =>
          have skipped : s.mayRun w it = false := by simp only [mayRun, mine, Bool.false_and]
          simp only [Bool.not_false, if_true, ih, List.find?_cons, skipped]
      | true =>
          cases busy : s.executing it with
          | true =>
              have skipped : s.mayRun w it = false := by
                simp only [mayRun, mine, busy, Bool.not_true, Bool.and_false]
              simp only [Bool.not_true, Bool.false_eq_true, if_false, if_true, ih,
                List.find?_cons, skipped]
          | false =>
              have taken : s.mayRun w it = true := by
                simp only [mayRun, mine, busy, Bool.not_false, Bool.and_true]
              simp only [Bool.not_true, Bool.false_eq_true, if_false, List.find?_cons, taken]

/-! ### Fibers exist before they are named -/

structure Created (s : Scheduler γ) : Prop where
  queued : ∀ ft ∈ s.m_fibers, ∀ f, ft.fiber = some f → f < s.count
  named : ∀ w f, (s.worker w).pc.fiber? = some f → f < s.count
  pooled : ∀ w f, (s.worker w).cb_fiber = some f → f < s.count

theorem init_created : (({} : Scheduler γ)).Created := by
  refine ⟨?_, ?_, ?_⟩
  · intro ft member
    cases member
  · intro w f named
    cases named
  · intro w f pooled
    cases pooled

theorem Created.update {s next : Scheduler γ} (created : s.Created) (count : s.count ≤ next.count)
    (queue : ∀ ft ∈ next.m_fibers, ft ∈ s.m_fibers ∨ ∀ f, ft.fiber = some f → f < next.count)
    (w : WorkerId) (others : ∀ v, v ≠ w → next.worker v = s.worker v)
    (named : ∀ f, (next.worker w).pc.fiber? = some f → f < next.count)
    (pooled : ∀ f, (next.worker w).cb_fiber = some f → f < next.count) : next.Created := by
  refine ⟨?_, ?_, ?_⟩
  · intro ft member f of_fiber
    rcases queue ft member with old | new
    · exact Nat.lt_of_lt_of_le (created.queued ft old f of_fiber) count
    · exact new f of_fiber
  · intro v f member
    by_cases same : v = w
    · subst same
      exact named f member
    · rw [others v same] at member
      exact Nat.lt_of_lt_of_le (created.named v f member) count
  · intro v f member
    by_cases same : v = w
    · subst same
      exact pooled f member
    · rw [others v same] at member
      exact Nat.lt_of_lt_of_le (created.pooled v f member) count

/-- A change of the queue alone. -/
theorem Created.enqueue {s next : Scheduler γ} (created : s.Created) (count : s.count ≤ next.count)
    (workers : next.worker = s.worker)
    (queue : ∀ ft ∈ next.m_fibers, ft ∈ s.m_fibers ∨ ∀ f, ft.fiber = some f → f < next.count) :
    next.Created := by
  apply created.update count queue 0
  · intro v _
    rw [workers]
  · intro f member
    rw [workers] at member
    exact Nat.lt_of_lt_of_le (created.named 0 f member) count
  · intro f member
    rw [workers] at member
    exact Nat.lt_of_lt_of_le (created.pooled 0 f member) count

theorem known_of {s : Scheduler γ} {fc : Option (Task γ)} {thread : Option WorkerId}
    {f : FiberId} (known : s.known fc = true)
    (of_fiber : (ScheduleTask.of fc thread).fiber = some f) : f < s.count := by
  rcases fc with _ | _ | g
  · cases of_fiber
  · cases of_fiber
  · cases of_fiber
    simpa [Scheduler.known] using known

/-- The worker's `cb_fiber` after `dropPooled`. -/
def keptPool (s : Scheduler γ) (w : WorkerId) : Kind → Option FiberId
  | .task => (s.worker w).cb_fiber
  | .pooled => none

theorem keptPool_some {s : Scheduler γ} {w : WorkerId} {kind : Kind} {f : FiberId}
    (kept : s.keptPool w kind = some f) : (s.worker w).cb_fiber = some f := by
  cases kind with
  | task => exact kept
  | pooled => cases kept

theorem dropPooled_goto (s : Scheduler γ) (w : WorkerId) (kind : Kind) (pc : Pc γ) :
    (s.dropPooled w kind).goto w pc =
      s.setWorker w { s.worker w with pc := pc, cb_fiber := s.keptPool w kind } := by
  cases kind with
  | task => rfl
  | pooled =>
      simp only [dropPooled, goto, setWorker, keptPool, Function.update_self,
        Function.update_idem]

/-- One worker moves on, the queue keeps or loses tasks. -/
theorem Created.go {s next : Scheduler γ} (created : s.Created) (count : next.count = s.count)
    (queue : ∀ ft ∈ next.m_fibers, ft ∈ s.m_fibers) {w : WorkerId} {worker : Worker γ}
    (moved : next.worker = Function.update s.worker w worker)
    (named : ∀ f, worker.pc.fiber? = some f → f < s.count)
    (pooled : ∀ f, worker.cb_fiber = some f → f < s.count) : next.Created := by
  have at_w : next.worker w = worker := by rw [moved, Function.update_self]
  apply created.update (Nat.le_of_eq count.symm) (fun ft member => .inl (queue ft member)) w
  · intro v other
    rw [moved, Function.update_of_ne other]
  · intro f member
    rw [at_w] at member
    rw [count]
    exact named f member
  · intro f member
    rw [at_w] at member
    rw [count]
    exact pooled f member

/-- One worker moves on and names no other fiber than before. -/
theorem Created.onward {s next : Scheduler γ} (created : s.Created) {w : WorkerId} {pc : Pc γ}
    {worker : Worker γ} (at_pc : (s.worker w).pc = pc) (count : next.count = s.count)
    (queue : ∀ ft ∈ next.m_fibers, ft ∈ s.m_fibers)
    (moved : next.worker = Function.update s.worker w worker)
    (named : ∀ f, worker.pc.fiber? = some f → pc.fiber? = some f)
    (pooled : ∀ f, worker.cb_fiber = some f → (s.worker w).cb_fiber = some f) :
    next.Created := by
  apply created.go count queue moved
  · intro f member
    apply created.named w f
    rw [at_pc]
    exact named f member
  · exact fun f member => created.pooled w f (pooled f member)

/-- A task is pushed. -/
theorem Created.push {s : Scheduler γ} (created : s.Created) {fts : List (ScheduleTask γ)}
    {calls : Nat} (known : ∀ ft ∈ fts, ∀ f, ft.fiber = some f → f < s.count) :
    Created { s with m_fibers := s.m_fibers ++ fts.filter ScheduleTask.valid, calls := calls } := by
  refine created.enqueue ?_ rfl ?_
  · exact Nat.le_refl s.count
  · intro ft member
    rcases List.mem_append.mp member with old | new
    · exact .inl old
    · exact .inr (known ft (List.mem_filter.mp new).1)

theorem Rule.created {s next : Scheduler γ} {act : Act γ} (rule : Rule s act next)
    (created : s.Created) : next.Created := by
  have none_named {f : FiberId} (named : (Pc.scan : Pc γ).fiber? = some f) : f < s.count := by
    cases named
  cases rule with
  | newFiber cb =>
      exact created.enqueue (Nat.le_succ _) rfl (fun ft member => .inl member)
  | schedule known =>
      rw [schedule_eq]
      apply created.push
      intro ft member f of_fiber
      rw [List.mem_singleton.mp member] at of_fiber
      exact known_of known of_fiber
  | @scheduleRange fcs known =>
      obtain ⟨calls, -, -, shape⟩ := s.scheduleRange_eq (fcs.map (ScheduleTask.of · none))
      rw [shape]
      apply created.push
      intro ft member f of_fiber
      obtain ⟨fc, given, rfl⟩ := List.mem_map.mp member
      exact known_of (known fc given) of_fiber
  | rangeQuiet => exact ⟨created.queued, created.named, created.pooled⟩
  | rangeDue => exact ⟨created.queued, created.named, created.pooled⟩
  | rangeWrite => exact ⟨created.queued, created.named, created.pooled⟩
  | tickle => exact ⟨created.queued, created.named, created.pooled⟩
  | tickleWrite => exact ⟨created.queued, created.named, created.pooled⟩
  | stop => exact ⟨created.queued, created.named, created.pooled⟩
  | @scan w pc active at_pc next =>
      refine created.go rfl (s.scan_left w s.m_fibers) rfl ?_ (created.pooled w)
      intro f named
      cases found : (s.scan w s.m_fibers).2.1 with
      | none =>
          rw [found] at next
          rcases next with rfl | rfl <;> cases named
      | some ft =>
          rw [found] at next
          have of_fiber : ft.fiber = some f := by
            rcases next with rfl | rfl <;> exact named
          rw [scan_task] at found
          exact created.queued ft (List.mem_of_find?_eq_some found) f of_fiber
  | move moves =>
      refine created.onward rfl rfl (fun _ => id) rfl ?_ (fun _ => id)
      exact fun f named => Pc.fiber?_of_held? (moves.named f named)
  | @write w ft at_pc =>
      refine created.onward at_pc rfl (fun _ => id) rfl ?_ (fun _ => id)
      intro f named
      cases ft with
      | none => cases named
      | some ft => exact named
  | swapIn at_pc => exact created.onward at_pc rfl (fun _ => id) rfl (fun _ => id) (fun _ => id)
  | suspend at_pc => exact created.onward at_pc rfl (fun _ => id) rfl (fun _ => id) (fun _ => id)
  | saved at_pc => exact created.onward at_pc rfl (fun _ => id) rfl (fun _ => id) (fun _ => id)
  | hold =>
      rw [dropPooled_goto]
      refine created.go rfl (fun _ => id) rfl (fun _ => none_named) ?_
      exact fun g kept => created.pooled _ g (keptPool_some kept)
  | recycle => exact created.go rfl (fun _ => id) rfl (fun _ => none_named) (created.pooled _)
  | @reuse w ft f cb fiber at_pc pooled reset =>
      refine created.go rfl (fun _ => id) rfl ?_ (created.pooled w)
      intro g named
      cases named
      exact created.pooled w f pooled
  | @fresh w ft cb at_pc =>
      refine created.update ?_ (fun ft member => .inl member) w ?_ ?_ ?_
      · exact Nat.le_succ s.count
      · exact fun v other => Function.update_of_ne other ..
      · intro f named
        simp only [setWorker_worker, if_true] at named
        cases named
        exact Nat.lt_succ_self s.count
      · intro f pooled
        simp only [setWorker_worker, if_true] at pooled
        cases pooled
        exact Nat.lt_succ_self s.count
  | @requeue w f kind at_pc =>
      have pushed : (s.schedule (ScheduleTask.of (some (.fiber f)) none)).Created := by
        rw [schedule_eq]
        apply created.push
        intro ft member g of_fiber
        rw [List.mem_singleton.mp member] at of_fiber
        cases of_fiber
        apply created.named w f
        rw [at_pc]
        rfl
      rw [dropPooled_goto]
      refine pushed.go rfl (fun _ => id) rfl (fun _ named => by cases named) ?_
      exact fun g kept => pushed.pooled w g (keptPool_some kept)

end Scheduler

end CorReactor
