import CorReactor.Counting
import CorReactor.SchedulerQueue

set_option autoImplicit false

/-! The counts of active and of idle threads against the places of the workers. -/

namespace CorReactor

variable {γ : Type}

namespace Pc

/-- The worker has taken a task and not counted it off yet. -/
def active : Pc γ → Bool
  | .tickle ft | .tickleWrite ft | .dispatch ft => ft.isSome
  | .resume .. | .exec .. | .swapOut .. | .leave .. | .skip => true
  | _ => false

/-- The worker is inside `idle_fiber->swapIn()`, up to the decrement behind it. -/
def idling : Pc γ → Bool
  | .idle | .wait | .work | .idleLeave => true
  | _ => false

/-- The next step of the worker is `--m_activateThreadCount`. -/
def counting : Pc γ → Bool
  | .leave .. | .skip => true
  | _ => false

theorem active_of_counting {pc : Pc γ} (counting : pc.counting = true) : pc.active = true := by
  cases pc <;> first | rfl | cases counting

end Pc

namespace Scheduler

/-- The worker whose step it is. -/
def Act.worker? : Act γ → Option WorkerId
  | .run w | .yieldToHold w | .yieldToReady w | .finish w | .stopping w _ | .wake w
  | .idleDone w => some w
  | _ => none

/-! ### One step -/

/-- The two counts follow the places of the workers, of which only `w` moves. -/
structure Tracks (s next : Scheduler γ) (w : WorkerId) : Prop where
  others : ∀ v, v ≠ w → (next.worker v).pc = (s.worker v).pc
  active : next.m_activateThreadCount + (s.worker w).pc.active.toUInt64 =
    s.m_activateThreadCount + (next.worker w).pc.active.toUInt64
  idle : next.m_idleThreadCount + (s.worker w).pc.idling.toUInt64 =
    s.m_idleThreadCount + (next.worker w).pc.idling.toUInt64

/-- No worker moves. -/
structure Still (s next : Scheduler γ) : Prop where
  workers : next.worker = s.worker
  active : next.m_activateThreadCount = s.m_activateThreadCount
  idle : next.m_idleThreadCount = s.m_idleThreadCount

theorem count_up (count : UInt64) :
    count + 1 + Bool.toUInt64 false = count + Bool.toUInt64 true := by
  change count + 1 + 0 = count + 1
  exact UInt64.add_zero _

theorem count_down (count : UInt64) :
    count - 1 + Bool.toUInt64 true = count + Bool.toUInt64 false := by
  change count - 1 + 1 = count + 0
  rw [UInt64.sub_add_cancel, UInt64.add_zero]

theorem Tracks.move {s next : Scheduler γ} {w : WorkerId} {worker : Worker γ} {pc : Pc γ}
    (at_pc : (s.worker w).pc = pc) (moved : next.worker = Function.update s.worker w worker)
    (active : next.m_activateThreadCount + pc.active.toUInt64 =
      s.m_activateThreadCount + worker.pc.active.toUInt64)
    (idle : next.m_idleThreadCount + pc.idling.toUInt64 =
      s.m_idleThreadCount + worker.pc.idling.toUInt64) : Tracks s next w := by
  refine ⟨?_, ?_, ?_⟩
  · intro v other
    rw [moved, Function.update_of_ne other]
  · rw [at_pc, moved, Function.update_self]
    exact active
  · rw [at_pc, moved, Function.update_self]
    exact idle

theorem dispatchCb_tracks {s next : Scheduler γ} {w : WorkerId} {ft : ScheduleTask γ} {cb : γ}
    (at_pc : (s.worker w).pc = .dispatch (some ft)) (done : s.dispatchCb w cb = some next) :
    Tracks s next w := by
  unfold dispatchCb at done
  split at done
  · obtain ⟨fiber, -, rfl⟩ := Option.map_eq_some_iff.mp done
    exact .move at_pc rfl rfl rfl
  · cases done
    exact .move at_pc rfl rfl rfl

theorem dispatch_tracks {s next : Scheduler γ} {w : WorkerId} {ft : Option (ScheduleTask γ)}
    (at_pc : (s.worker w).pc = .dispatch ft) (done : s.dispatch w ft = some next) :
    Tracks s next w := by
  cases ft with
  | none =>
      cases done
      apply Tracks.move at_pc rfl
      · split <;> rfl
      · split <;> rfl
  | some ft =>
      simp only [dispatch] at done
      split at done
      · split at done
        · cases done
          exact .move at_pc rfl rfl rfl
        · split at done
          · exact dispatchCb_tracks at_pc done
          · cases done
            exact .move at_pc rfl rfl rfl
      · exact dispatchCb_tracks at_pc done
      · cases done
        exact .move at_pc rfl rfl rfl

/-- After the decrement behind `swapIn` no branch counts again. -/
theorem settle_counted (s : Scheduler γ) (f : FiberId) (kind : Kind) :
    (s.settle f kind).active = false ∧ (s.settle f kind).idling = false := by
  unfold settle
  split
  · exact ⟨rfl, rfl⟩
  · split
    · exact ⟨rfl, rfl⟩
    · cases kind <;> exact ⟨rfl, rfl⟩

theorem runStep_tracks {s next : Scheduler γ} {w : WorkerId} {obs : Obs γ}
    (taken : s.runStep w = some (obs, next)) : Tracks s next w := by
  unfold runStep at taken
  cases at_pc : (s.worker w).pc <;> rw [at_pc] at taken <;> dsimp only at taken
  case scan =>
      -- the increment under the lock, where a task was found
      split at taken
      · rename_i none_found
        cases taken
        rw [none_found]
        apply Tracks.move at_pc rfl
        · dsimp only
          split <;> rfl
        · dsimp only
          split <;> rfl
      · rename_i task found
        cases taken
        rw [found]
        apply Tracks.move at_pc rfl
        · dsimp only
          split <;> exact count_up _
        · dsimp only
          split <;> rfl
  case tickle =>
      cases taken
      apply Tracks.move at_pc rfl
      · split <;> rfl
      · split <;> rfl
  case dispatch =>
      obtain ⟨next', done, same⟩ := Option.map_eq_some_iff.mp taken
      cases same
      exact dispatch_tracks at_pc done
  case resume | recycle =>
      obtain ⟨fiber, -, same⟩ := Option.map_eq_some_iff.mp taken
      cases same
      exact .move at_pc rfl rfl rfl
  case settle f kind =>
      cases taken
      obtain ⟨active, idle⟩ := s.settle_counted f kind
      apply Tracks.move at_pc rfl
      · rw [active]
        rfl
      · rw [idle]
        rfl
  case requeue =>
      cases taken
      rw [dropPooled_goto, schedule_eq]
      exact .move at_pc rfl rfl rfl
  case hold =>
      cases taken
      rw [dropPooled_goto]
      exact .move at_pc rfl rfl rfl
  all_goals cases taken
  case tickleWrite | swapOut => exact .move at_pc rfl rfl rfl
  case leave | skip => exact .move at_pc rfl (count_down _) rfl
  case idleEnter => exact .move at_pc rfl rfl (count_up _)
  case idleLeave => exact .move at_pc rfl rfl (count_down _)

theorem suspend_tracks {s next : Scheduler γ} {w : WorkerId} {obs : Obs γ}
    {change : Fiber γ → Fiber γ} (taken : s.suspend w change = some (obs, next)) :
    Tracks s next w := by
  unfold suspend at taken
  split at taken
  · rename_i f kind at_pc
    cases taken
    exact .move at_pc rfl rfl rfl
  · cases taken

/-- Every step moves one worker and keeps the counts with it, or moves none. -/
theorem step_tracks {s next : Scheduler γ} {act : Act γ} {obs : Obs γ}
    (taken : s.step act = some (obs, next)) :
    act.worker? = none ∧ Still s next ∨ ∃ w, act.worker? = some w ∧ Tracks s next w := by
  cases act <;> simp only [step] at taken
  case schedule fc thread =>
      split at taken
      · cases taken
        rw [schedule_eq]
        exact .inl ⟨rfl, rfl, rfl, rfl⟩
      · cases taken
  case scheduleRange fcs =>
      split at taken
      · cases taken
        obtain ⟨calls, -, -, shape⟩ := s.scheduleRange_eq (fcs.map (ScheduleTask.of · none))
        rw [shape]
        exact .inl ⟨rfl, rfl, rfl, rfl⟩
      · cases taken
  case rangeTickle =>
      split at taken
      · cases taken
        split <;> exact .inl ⟨rfl, rfl, rfl, rfl⟩
      · cases taken
  case tickle =>
      cases taken
      split <;> exact .inl ⟨rfl, rfl, rfl, rfl⟩
  case newFiber | stop =>
      cases taken
      exact .inl ⟨rfl, rfl, rfl, rfl⟩
  case rangeWrite | tickleWrite =>
      split at taken <;> cases taken
      exact .inl ⟨rfl, rfl, rfl, rfl⟩
  case run w => exact .inr ⟨w, rfl, runStep_tracks taken⟩
  case yieldToHold w => exact .inr ⟨w, rfl, suspend_tracks taken⟩
  case yieldToReady w => exact .inr ⟨w, rfl, suspend_tracks taken⟩
  case finish w => exact .inr ⟨w, rfl, suspend_tracks taken⟩
  case stopping w quiet =>
      unfold idleStopping at taken
      split at taken
      · rename_i at_pc
        split at taken <;> cases taken <;> exact .inr ⟨w, rfl, .move at_pc rfl rfl rfl⟩
      · cases taken
  case wake w | idleDone w =>
      split at taken
      · rename_i at_pc
        cases taken
        exact .inr ⟨w, rfl, .move at_pc rfl rfl rfl⟩
      · cases taken

/-! ### Callbacks that fail -/

/-- The steps of all threads, and the end of a callback that throws: `MainFunc` sets
`EXCEPT`, and goes on behind its assertion where that is compiled out. -/
inductive FailAct (γ : Type)
  | act (a : Act γ)
  | fail (w : WorkerId)

def FailAct.worker? : FailAct γ → Option WorkerId
  | .act a => a.worker?
  | .fail w => some w

def failStep : Transition.Step (Scheduler γ) (FailAct γ) (Obs γ) := fun s a =>
  match a with
  | .act a => s.step a
  | .fail w => s.suspend w (·.setState .EXCEPT)

theorem failStep_tracks {s next : Scheduler γ} {a : FailAct γ} {obs : Obs γ}
    (taken : s.failStep a = some (obs, next)) :
    a.worker? = none ∧ Still s next ∨ ∃ w, a.worker? = some w ∧ Tracks s next w := by
  cases a with
  | act a => exact step_tracks taken
  | fail w =>
      have done : s.suspend w (·.setState .EXCEPT) = some (obs, next) := taken
      exact .inr ⟨w, rfl, suspend_tracks done⟩

/-! ### Whole runs -/

/-- The counts are those of the workers, `n` of them, in the two sections. -/
structure Accounted (n : Nat) (s : Scheduler γ) : Prop where
  active : s.m_activateThreadCount.toNat = Counting.count (fun w => (s.worker w).pc.active) n
  idle : s.m_idleThreadCount.toNat = Counting.count (fun w => (s.worker w).pc.idling) n

/-- A count in 64 bits follows a count of fewer than 2^64 things. -/
theorem count_exact {c c' : UInt64} {k k' : Nat} {b b' : Bool}
    (step : c' + b.toUInt64 = c + b'.toUInt64) (real : k' + b.toNat = k + b'.toNat)
    (exact_before : c.toNat = k) (small : k' < 2 ^ 64) : c'.toNat = k' := by
  have whole := congrArg UInt64.toNat step
  have bound := c'.toNat_lt
  rw [UInt64.toNat_add, UInt64.toNat_add] at whole
  have bit : ∀ b : Bool, b.toUInt64.toNat = b.toNat := by decide
  rw [bit, bit] at whole
  have := Bool.toNat_le b
  have := Bool.toNat_le b'
  omega

theorem Accounted.still {n : Nat} {s next : Scheduler γ} (accounted : Accounted n s)
    (still : Still s next) : Accounted n next := by
  constructor
  · rw [still.active, still.workers]
    exact accounted.active
  · rw [still.idle, still.workers]
    exact accounted.idle

theorem Accounted.tracks {n : Nat} {s next : Scheduler γ} {w : WorkerId}
    (accounted : Accounted n s) (few : n < 2 ^ 64) (here : w < n) (tracks : Tracks s next w) :
    Accounted n next := by
  have small (p : Nat → Bool) : Counting.count p n < 2 ^ 64 :=
    Nat.lt_of_le_of_lt (Counting.count_le p n) few
  constructor
  · have real := Counting.count_replace (p := fun v => (s.worker v).pc.active)
      (q := fun v => (next.worker v).pc.active) here
      fun v other => congrArg Pc.active (tracks.others v other)
    exact count_exact tracks.active real accounted.active (small _)
  · have real := Counting.count_replace (p := fun v => (s.worker v).pc.idling)
      (q := fun v => (next.worker v).pc.idling) here
      fun v other => congrArg Pc.idling (tracks.others v other)
    exact count_exact tracks.idle real accounted.idle (small _)

theorem Accounted.step {n : Nat} {s next : Scheduler γ} {a : FailAct γ} {obs : Obs γ}
    (accounted : Accounted n s) (few : n < 2 ^ 64) (inside : ∀ w, a.worker? = some w → w < n)
    (taken : s.failStep a = some (obs, next)) : Accounted n next := by
  rcases failStep_tracks taken with ⟨-, still⟩ | ⟨w, moves, tracks⟩
  · exact accounted.still still
  · exact accounted.tracks few (inside w moves) tracks

/-- Along any run of `n` workers, from any queue and any fibers, the counts are those of
the workers in the two sections; so neither is decremented from zero, and both are zero
when no worker is in its section. -/
theorem run_accounted {n : UInt64} {s t : Scheduler γ} {acts : List (FailAct γ)}
    {os : List (Obs γ)} (scanning : ∀ w, (s.worker w).pc = .scan)
    (active : s.m_activateThreadCount = 0) (idle : s.m_idleThreadCount = 0)
    (workers : ∀ a ∈ acts, ∀ w, a.worker? = some w → w < n.toNat)
    (taken : Transition.run failStep s acts = some (os, t)) :
    Accounted n.toNat t ∧
      (∀ w < n.toNat, (t.worker w).pc.counting = true → t.m_activateThreadCount ≠ 0) ∧
      (∀ w < n.toNat, (t.worker w).pc = .idleLeave → t.m_idleThreadCount ≠ 0) ∧
      ((∀ w < n.toNat, (t.worker w).pc.active = false) → t.m_activateThreadCount = 0) ∧
      ((∀ w < n.toNat, (t.worker w).pc.idling = false) → t.m_idleThreadCount = 0) := by
  have start : Accounted n.toNat s := by
    constructor
    · rw [active]
      symm
      exact Counting.count_eq_zero.mpr fun w _ => by rw [scanning]; rfl
    · rw [idle]
      symm
      exact Counting.count_eq_zero.mpr fun w _ => by rw [scanning]; rfl
  have along : Transition.Along failStep
      (fun _ a => ∀ w, a.worker? = some w → w < n.toNat) s acts :=
    Transition.Along.of_mem (fun a member _ => workers a member) s
  have accounted : Accounted n.toNat t :=
    Transition.run_invariant (fun _ _ _ _ holds inside done => holds.step n.toNat_lt inside done)
      start along taken
  have zero_active : t.m_activateThreadCount = 0 ↔
      ∀ w < n.toNat, (t.worker w).pc.active = false := by
    rw [← UInt64.toNat_inj, accounted.active]
    exact Counting.count_eq_zero
  have zero_idle : t.m_idleThreadCount = 0 ↔
      ∀ w < n.toNat, (t.worker w).pc.idling = false := by
    rw [← UInt64.toNat_inj, accounted.idle]
    exact Counting.count_eq_zero
  refine ⟨accounted, ?_, ?_, zero_active.mpr, zero_idle.mpr⟩
  · intro w inside counting none_active
    have quiet := zero_active.mp none_active w inside
    rw [Pc.active_of_counting counting] at quiet
    cases quiet
  · intro w inside leaving none_idle
    have quiet := zero_idle.mp none_idle w inside
    rw [leaving] at quiet
    cases quiet

/-- A pinned callback that fails, while the other worker is idle. -/
theorem run_accounted_failing :
    ∃ os t, Transition.run failStep ({} : Scheduler Nat)
      [.act (.schedule (some (.cb 5)) (some 1)), .act (.run 0), .act (.run 1), .act (.run 1),
        .act (.run 1), .fail 1, .act (.run 1), .act (.run 0), .act (.run 0), .act (.run 0),
        .act (.run 0)] = some (os, t) ∧
      t.m_activateThreadCount = 1 ∧ t.m_idleThreadCount = 1 ∧ Accounted 2 t := by
  have shown : (Transition.run failStep ({} : Scheduler Nat)
      [.act (.schedule (some (.cb 5)) (some 1)), .act (.run 0), .act (.run 1), .act (.run 1),
        .act (.run 1), .fail 1, .act (.run 1), .act (.run 0), .act (.run 0), .act (.run 0),
        .act (.run 0)]).map
      (fun r => (r.2.m_activateThreadCount, r.2.m_idleThreadCount)) = some (1, 1) := by
    decide
  obtain ⟨⟨os, t⟩, taken, counts⟩ := Option.map_eq_some_iff.mp shown
  obtain ⟨active, idle⟩ := Prod.mk.inj counts
  exact ⟨os, t, taken, active, idle,
    (run_accounted (n := 2) (fun _ => rfl) rfl rfl (by decide) taken).1⟩

end Scheduler

end CorReactor
