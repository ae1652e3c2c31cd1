import CorReactor.IOManagerPending
import CorReactor.Reactor
import CorReactor.SchedulerCounters
import CorReactor.SchedulerTasks
import CorReactor.TimerStore

set_option autoImplicit false

/-! What `IOManager::stopping` says of the state in which it returns true. -/

namespace CorReactor

variable {γ : Type}

namespace IdlePc

/-- The test under way has found the timer set empty. -/
def sawTimers : IdlePc γ → Bool
  | .pending | .flags | .queue | .active => true
  | _ => false

/-- It has found no pending event. -/
def sawEvents : IdlePc γ → Bool
  | .flags | .queue | .active => true
  | _ => false

/-- It has found the queue empty. -/
def sawQueue : IdlePc γ → Bool
  | .active => true
  | _ => false

/-- The callbacks of expired timers that are not queued yet. -/
def held : IdlePc γ → List (Option γ)
  | .cbs expired => expired
  | _ => []

theorem sawEvents_of_sawQueue {pc : IdlePc γ} (saw : pc.sawQueue = true) :
    pc.sawEvents = true := by
  cases pc <;> first | rfl | cases saw

theorem sawTimers_of_sawEvents {pc : IdlePc γ} (saw : pc.sawEvents = true) :
    pc.sawTimers = true := by
  cases pc <;> first | rfl | cases saw

end IdlePc

/-! ### What fills a container -/

namespace Scheduler

/-- The step puts a task into the queue. -/
def queues (s : Scheduler γ) : Act γ → Bool
  | .schedule fc _ => fc.isSome
  | .scheduleRange fcs => fcs.any Option.isSome
  | .run w =>
      match (s.worker w).pc with
      | .requeue .. => true
      | _ => false
  | _ => false

theorem of_valid {fc : Option (Task γ)} {thread : Option WorkerId} :
    (ScheduleTask.of fc thread).valid = fc.isSome := by
  rcases fc with _ | cb | f <;> rfl

/-- Any other step pushes nothing that is valid. -/
theorem step_pushed {s next : Scheduler γ} {act : Act γ} {fts : List (ScheduleTask γ)}
    (idle : s.queues act = false) (taken : s.step act = some (.queued fts, next)) :
    fts.filter ScheduleTask.valid = [] := by
  cases act <;> simp only [step] at taken
  case schedule fc thread =>
      split at taken
      · cases taken
        apply List.filter_eq_nil_iff.mpr
        intro ft member
        rw [List.mem_singleton.mp member, of_valid, Bool.not_eq_true]
        exact idle
      · cases taken
  case scheduleRange fcs =>
      split at taken
      · cases taken
        apply List.filter_eq_nil_iff.mpr
        intro ft member
        obtain ⟨fc, listed, rfl⟩ := List.mem_map.mp member
        rw [of_valid]
        exact List.any_eq_false.mp idle fc listed
      · cases taken
  case run w =>
      unfold runStep at taken
      cases at_pc : (s.worker w).pc <;> rw [at_pc] at taken <;> dsimp only at taken
      case scan =>
          split at taken <;> cases taken
      case dispatch | resume | recycle =>
          obtain ⟨_, -, same⟩ := Option.map_eq_some_iff.mp taken
          cases same
      case requeue =>
          simp only [queues, at_pc] at idle
          cases idle
      all_goals cases taken
  case yieldToHold w | yieldToReady w | finish w =>
      unfold suspend at taken
      split at taken <;> cases taken
  case stopping w quiet =>
      unfold idleStopping at taken
      split at taken
      · split at taken <;> cases taken
      · cases taken
  case newFiber | tickle | stop => cases taken
  case rangeTickle | rangeWrite | tickleWrite | wake | idleDone => split at taken <;> cases taken

/-- An empty queue stays empty. -/
theorem step_unqueued {s next : Scheduler γ} {act : Act γ} {obs : Obs γ}
    (empty : s.m_fibers = []) (idle : s.queues act = false)
    (taken : s.step act = some (obs, next)) : next.m_fibers = [] := by
  have queue := step_queue taken
  unfold QueueStep at queue
  split at queue
  · rw [queue, empty]
  · rw [queue, empty, step_pushed idle taken]
    rfl
  · rw [empty] at queue
    cases queue.1

/-- A worker in its idle fiber moves by the steps of `idle` only. -/
theorem step_idle {s next : Scheduler γ} {act : Act γ} {obs : Obs γ} {w : WorkerId}
    (at_pc : (s.worker w).pc = .idle) (other : ∀ quiet, act ≠ .stopping w quiet)
    (taken : s.step act = some (obs, next)) : (next.worker w).pc = .idle := by
  rcases step_tracks taken with ⟨-, still⟩ | ⟨v, mover, tracks⟩
  · rw [still.workers]
    exact at_pc
  · by_cases same : w = v
    · rw [← same] at mover
      exfalso
      cases act with
      | run u =>
          obtain rfl : u = w := Option.some.inj mover
          simp only [step, runStep, at_pc] at taken
          cases taken
      | yieldToHold u | yieldToReady u | finish u =>
          obtain rfl : u = w := Option.some.inj mover
          simp only [step, suspend, at_pc] at taken
          cases taken
      | stopping u quiet =>
          obtain rfl : u = w := Option.some.inj mover
          exact other quiet rfl
      | wake u | idleDone u =>
          obtain rfl : u = w := Option.some.inj mover
          simp only [step, at_pc] at taken
          cases taken
      | _ => cases mover
    · rw [tracks.others w same]
      exact at_pc

end Scheduler

namespace TimerManager

def Adds : TimerOp γ → Prop
  | .addTimer .. => True
  | _ => False

/-- An empty set stays empty, and no timer of it expires. -/
theorem step_unfilled {m next : TimerManager γ} {op : TimerOp γ} {ret : TimerRet γ}
    (empty : m.m_timers = []) (other : ¬ Adds op) (taken : m.step op = some (ret, next)) :
    next.m_timers = [] ∧ ∀ cbs, ret = .expired cbs → cbs = [] := by
  cases op with
  | addTimer => exact absurd trivial other
  | cancel t =>
      simp only [step, cancel] at taken
      split at taken
      · obtain ⟨r, done, same⟩ := Option.map_eq_some_iff.mp taken
        cases same
        simp only [empty, OrderedSet.find?, setTimer] at done
        split at done
        · cases done
        · cases done
          refine ⟨empty, ?_⟩
          intro cbs expired
          cases expired
      · cases taken
  | refresh now t =>
      simp only [step, refresh, empty, OrderedSet.find?] at taken
      split at taken
      · cases taken
        refine ⟨?_, ?_⟩
        · split <;> exact empty
        · intro cbs expired
          cases expired
      · cases taken
  | reset now t ms from_now =>
      simp only [step, reset, empty, OrderedSet.find?] at taken
      split at taken
      · cases taken
        refine ⟨?_, ?_⟩
        · split
          · exact empty
          · split <;> exact empty
        · intro cbs expired
          cases expired
      · cases taken
  | listExpiredCb now addr =>
      simp only [step, listExpiredCb, empty] at taken
      cases taken
      refine ⟨empty, ?_⟩
      intro cbs expired
      cases expired
      rfl
  | getNextTimer now =>
      cases taken
      refine ⟨?_, ?_⟩
      · simp only [getNextTimer, empty]
      · intro cbs expired
        cases expired

end TimerManager

namespace IOManager

theorem events_clear {m : IOManager γ} (none : ∀ fd_ctx ∈ m.m_fdContexts, fd_ctx.m_events = 0)
    (fd : Nat) : (m.slot fd).m_events = 0 := by
  by_cases inside : fd < m.m_fdContexts.length
  · rw [slot_of_get (List.getElem?_eq_getElem inside)]
    exact none _ (List.getElem_mem inside)
  · exact events_of_le (Nat.le_of_not_lt inside)

/-- Where no event is registered none is triggered, and only an `addEvent` that the kernel
grants changes that. -/
theorem step_unregistered {m next : IOManager γ} {op : IOOp γ} {out : Outcome γ}
    (none : ∀ fd, (m.slot fd).m_events = 0)
    (other : ∀ caller fd event cb, op ≠ .addEvent caller fd event cb true)
    (taken : m.step op = some (out, next)) :
    (∀ fd, (next.slot fd).m_events = 0) ∧ out.deliveries = [] := by
  have unset (fd : Nat) (e : Event) : ¬ (m.slot fd).Has e := by
    intro has
    apply has
    rw [none]
    exact BitVec.zero_and
  have quiet (op : IOOp γ) : ¬ m.Fires op := by
    intro fires
    cases op with
    | addEvent | delEvent => exact fires
    | cancelEvent fd event granted => exact unset _ _ fires.1
    | cancelAll fd granted => exact fires.1 (none _)
    | deliver fd events granted =>
        obtain ⟨e, has, -⟩ := fires.1
        exact unset _ _ has
  cases step_effect taken with
  | refused refused slot =>
      rw [slot]
      exact ⟨none, rfl⟩
  | @added caller fd event cb granted _ registers =>
      cases granted with
      | false => cases registers
      | true => exact absurd rfl (other caller fd event cb)
  | kept => exact ⟨none, rfl⟩
  | deleted has => exact absurd has (unset _ _)
  | fired fires => exact absurd fires (quiet op)

end IOManager

/-! ### The shutdown test -/

namespace Reactor

/-- The worker whose step it is. -/
def Act.worker? : Act γ → Option WorkerId
  | .scheduler act => act.worker?
  | .timer _ | .io _ => none
  | .getNextTimer w _ | .readPending w | .readFlags w | .readQueue w | .readActive w
  | .listExpiredCb w _ _ | .scheduleCbs w | .deliver w _ _ _ | .idleDone w => some w

/-- Nothing is left to do: no task is queued or with one of the `n` workers, no event is
registered, no timer is set, and no callback of an expired timer is on its way. -/
structure Quiet (n : Nat) (r : Reactor γ) : Prop where
  queue : r.scheduler.m_fibers = []
  workers : ∀ v < n, (r.scheduler.worker v).pc.active = false
  events : ∀ fd_ctx ∈ r.io.m_fdContexts, fd_ctx.m_events = 0
  timers : r.timers.m_timers = []
  expired : ∀ v < n, (r.idle v).held = []

/-- No step fills a container that a test under way has found empty, the queue is not found
empty while a worker holds callbacks that it has yet to put there, and no timer is so far
ahead that `getNextTimer` returns what it returns for none. -/
def Undisturbed (n : Nat) (r : Reactor γ) : Act γ → Prop
  | .scheduler act => r.scheduler.queues act = true → ∀ v < n, (r.idle v).sawQueue = false
  | .timer (.addTimer ..) => ∀ v < n, (r.idle v).sawTimers = false
  | .io (.addEvent _ _ _ _ granted) => granted = true → ∀ v < n, (r.idle v).sawEvents = false
  | .readQueue _ => ∀ v < n, (r.idle v).held = []
  | .getNextTimer _ now => now = 0 → ∀ t ∈ r.timers.m_timers,
      (r.timers.timer t).m_next ≠ 0xFFFFFFFFFFFFFFFF
  | _ => True

instance (n : Nat) (r : Reactor γ) : DecidablePred (r.Undisturbed n)
  | .scheduler act => inferInstanceAs
      (Decidable (r.scheduler.queues act = true → ∀ v < n, (r.idle v).sawQueue = false))
  | .timer (.addTimer ..) => inferInstanceAs (Decidable (∀ v < n, (r.idle v).sawTimers = false))
  | .io (.addEvent _ _ _ _ granted) => inferInstanceAs
      (Decidable (granted = true → ∀ v < n, (r.idle v).sawEvents = false))
  | .readQueue _ => inferInstanceAs (Decidable (∀ v < n, (r.idle v).held = []))
  | .getNextTimer _ now => inferInstanceAs (Decidable (now = 0 → ∀ t ∈ r.timers.m_timers,
      (r.timers.timer t).m_next ≠ 0xFFFFFFFFFFFFFFFF))
  | .timer (.cancel _) | .timer (.refresh _ _) | .timer (.reset ..) | .timer (.listExpiredCb ..)
  | .timer (.getNextTimer _) | .io (.delEvent ..) | .io (.cancelEvent ..) | .io (.cancelAll ..)
  | .io (.deliver ..) | .readPending _ | .readFlags _ | .readActive _ | .listExpiredCb ..
  | .scheduleCbs _ | .deliver .. | .idleDone _ => isTrue trivial

/-- What a worker's test has found, up to its place `pc`, is still so. -/
structure Seen (n : Nat) (r : Reactor γ) (w : WorkerId) (pc : IdlePc γ) : Prop where
  place : pc.sawTimers = true → (r.scheduler.worker w).pc = .idle
  timers : pc.sawTimers = true → r.timers.m_timers = []
  events : pc.sawEvents = true → ∀ fd, (r.io.slot fd).m_events = 0
  queue : pc.sawQueue = true → r.scheduler.m_fibers = []
  held : pc.sawQueue = true → ∀ v < n, (r.idle v).held = []

structure Watched (n : Nat) (r : Reactor γ) : Prop where
  tallied : r.io.Tallied
  accounted : Scheduler.Accounted n r.scheduler
  seen : ∀ w < n, r.Seen n w (r.idle w)

variable {n : Nat} {r next : Reactor γ} {w v : WorkerId} {pc pc' : IdlePc γ}
  {verdict : Option Bool}

/-- No test is under way. -/
theorem Seen.none (no_test : pc.sawTimers = false) : r.Seen n w pc := by
  have clear {P : Prop} (saw : pc.sawTimers = true) : P := by
    rw [no_test] at saw
    cases saw
  refine ⟨clear, clear, ?_, ?_, ?_⟩
  · intro saw
    exact clear (IdlePc.sawTimers_of_sawEvents saw)
  · intro saw
    exact clear (IdlePc.sawTimers_of_sawEvents (IdlePc.sawEvents_of_sawQueue saw))
  · intro saw
    exact clear (IdlePc.sawTimers_of_sawEvents (IdlePc.sawEvents_of_sawQueue saw))

theorem new_watched (now : UInt64) : Watched n (new now : Reactor γ) where
  tallied := IOManager.new_tallied
  accounted := ⟨(Counting.count_eq_zero.mpr fun _ _ => rfl).symm,
    (Counting.count_eq_zero.mpr fun _ _ => rfl).symm⟩
  seen := fun _ _ => Seen.none rfl

/-- A step that is none of a test. -/
theorem Watched.outside (watched : r.Watched n) (idle : next.idle = r.idle)
    (tallied : next.io.Tallied) (accounted : Scheduler.Accounted n next.scheduler)
    (place : ∀ w < n, (r.idle w).sawTimers = true →
      (r.scheduler.worker w).pc = .idle → (next.scheduler.worker w).pc = .idle)
    (timers : ∀ w < n, (r.idle w).sawTimers = true → r.timers.m_timers = [] →
      next.timers.m_timers = [])
    (events : ∀ w < n, (r.idle w).sawEvents = true → (∀ fd, (r.io.slot fd).m_events = 0) →
      ∀ fd, (next.io.slot fd).m_events = 0)
    (queue : ∀ w < n, (r.idle w).sawQueue = true → r.scheduler.m_fibers = [] →
      next.scheduler.m_fibers = []) : next.Watched n := by
  refine ⟨tallied, accounted, ?_⟩
  intro w here
  rw [idle]
  have seen := watched.seen w here
  refine ⟨?_, ?_, ?_, ?_, ?_⟩
  · exact fun saw => place w here saw (seen.place saw)
  · exact fun saw => timers w here saw (seen.timers saw)
  · exact fun saw => events w here saw (seen.events saw)
  · exact fun saw => queue w here saw (seen.queue saw)
  · rw [idle]
    exact seen.held

theorem Watched.scheduler (watched : r.Watched n) (few : n < 2 ^ 64) {act : Scheduler.Act γ}
    {obs : Obs γ} {s : Scheduler γ} (inside : ∀ w, act.worker? = some w → w < n)
    (own : ofScheduler act = true) (undisturbed : r.Undisturbed n (.scheduler act))
    (taken : r.scheduler.step act = some (obs, s)) :
    Watched n { r with scheduler := s } := by
  have accounted : Scheduler.Accounted n s :=
    watched.accounted.step (a := .act act) few inside taken
  refine watched.outside rfl watched.tallied accounted ?_ (fun _ _ _ => id) (fun _ _ _ => id) ?_
  · intro w _ _ at_pc
    apply Scheduler.step_idle at_pc _ taken
    rintro quiet rfl
    cases own
  · intro w here saw empty
    apply Scheduler.step_unqueued empty _ taken
    by_contra fills
    rw [Bool.not_eq_false] at fills
    have none := undisturbed fills w here
    rw [none] at saw
    cases saw

theorem Watched.timer (watched : r.Watched n) {op : TimerOp γ} {ret : TimerRet γ}
    {timers : TimerManager γ} (undisturbed : r.Undisturbed n (.timer op))
    (taken : r.timers.step op = some (ret, timers)) :
    Watched n { r with timers := timers } := by
  refine watched.outside rfl watched.tallied watched.accounted (fun _ _ _ => id) ?_
    (fun _ _ _ => id) (fun _ _ _ => id)
  intro w here saw empty
  refine (TimerManager.step_unfilled empty ?_ taken).1
  intro adds
  cases op with
  | addTimer =>
      have none := undisturbed w here
      rw [none] at saw
      cases saw
  | _ => exact adds

/-- Triggered events only schedule. -/
theorem trigger_still {deliveries : List (Delivery γ)} (done : r.trigger deliveries = some next) :
    (next.idle = r.idle ∧ next.timers = r.timers ∧ next.io = r.io) ∧
      Scheduler.Still r.scheduler next.scheduler ∧ (deliveries = [] → next = r) := by
  unfold trigger at done
  obtain ⟨⟨os, s⟩, taken, rfl⟩ := Option.map_eq_some_iff.mp done
  refine ⟨⟨rfl, rfl, rfl⟩, ?_, ?_⟩
  · have keep : ∀ t act obs t', Scheduler.Still r.scheduler t →
        (act : Scheduler.Act γ).worker? = none → Scheduler.step t act = some (obs, t') →
        Scheduler.Still r.scheduler t' := by
      intro t act obs t' still none done
      rcases Scheduler.step_tracks done with ⟨-, after⟩ | ⟨w, mover, -⟩
      · exact ⟨after.workers.trans still.workers, after.active.trans still.active,
          after.idle.trans still.idle⟩
      · rw [none] at mover
        cases mover
    have along : Transition.Along Scheduler.step (fun _ act => act.worker? = none) r.scheduler
        ((deliveries.filter (·.scheduler = self)).map (.schedule ·.task none)) := by
      apply Transition.Along.of_mem
      intro act member _
      obtain ⟨delivery, -, rfl⟩ := List.mem_map.mp member
      rfl
    exact Transition.run_invariant keep ⟨rfl, rfl, rfl⟩ along taken
  · rintro rfl
    cases taken
    rfl

theorem Watched.io (watched : r.Watched n) {op : IOOp γ}
    (undisturbed : ∀ w < n, (r.idle w).sawEvents = true →
      ∀ caller fd event cb, op ≠ .addEvent caller fd event cb true)
    (taken : r.execIO op = some (verdict, next)) : next.Watched n := by
  obtain ⟨⟨out, io⟩, done, rest⟩ := Option.bind_eq_some_iff.mp taken
  obtain ⟨last, triggered, same⟩ := Option.map_eq_some_iff.mp rest
  cases same
  obtain ⟨⟨idle, timers, events⟩, still, unchanged⟩ := trigger_still triggered
  refine watched.outside idle ?_ (watched.accounted.still still) ?_ ?_ ?_ ?_
  · rw [events]
    exact watched.tallied.step done
  · intro w _ _ at_pc
    rw [still.workers]
    exact at_pc
  · intro w _ _ empty
    rw [timers]
    exact empty
  · intro w here saw none
    rw [events]
    exact (IOManager.step_unregistered none (undisturbed w here saw) done).1
  · intro w here saw empty
    have saw_events := IdlePc.sawEvents_of_sawQueue saw
    have none := (watched.seen w here).events saw_events
    rw [unchanged (IOManager.step_unregistered none (undisturbed w here saw_events) done).2]
    exact empty

/-! ### The steps of `idle` -/

/-- A step of `idle` in one worker. -/
theorem Watched.inside (watched : r.Watched n) (idle : next.idle = Function.update r.idle w pc)
    (tallied : next.io.Tallied) (accounted : Scheduler.Accounted n next.scheduler)
    (own : next.Seen n w pc)
    (others : ∀ v < n, v ≠ w → r.Seen n v (r.idle v) → next.Seen n v (r.idle v)) :
    next.Watched n := by
  refine ⟨tallied, accounted, ?_⟩
  intro v here
  rw [idle]
  by_cases same : v = w
  · rw [same, Function.update_self]
    exact own
  · rw [Function.update_of_ne same]
    exact others v here same (watched.seen v here)

/-- A worker moves and holds no callbacks then. -/
theorem Seen.onward (seen : r.Seen n v pc')
    (idle : next.idle = Function.update r.idle w pc) (unheld : pc'.sawQueue = true → pc.held = [])
    (workers : (next.scheduler.worker v).pc = (r.scheduler.worker v).pc)
    (timers : pc'.sawTimers = true → next.timers.m_timers = []) (io : next.io = r.io)
    (queue : pc'.sawQueue = true → next.scheduler.m_fibers = []) : next.Seen n v pc' := by
  refine ⟨?_, timers, ?_, queue, ?_⟩
  · rw [workers]
    exact seen.place
  · rw [io]
    exact seen.events
  · intro saw u here
    rw [idle]
    by_cases same : u = w
    · rw [same, Function.update_self]
      exact unheld saw
    · rw [Function.update_of_ne same]
      exact seen.held saw u here

/-- A read that holds takes the test to its next place. -/
theorem Watched.setIdle (watched : r.Watched n) (unheld : pc.held = []) (own : r.Seen n w pc) :
    (r.setIdle w pc).Watched n := by
  refine watched.inside rfl watched.tallied watched.accounted ?_ ?_
  · exact own.onward rfl (fun _ => unheld) rfl own.timers rfl own.queue
  · intro v _ _ seen
    exact seen.onward rfl (fun _ => unheld) rfl seen.timers rfl seen.queue

/-- The test ends, and the worker stays inside its idle fiber. -/
theorem Watched.back (watched : r.Watched n) (few : n < 2 ^ 64) (here : w < n)
    (at_pc : (r.scheduler.worker w).pc = .idle) {worker : Worker γ}
    (active : worker.pc.active = false) (idling : worker.pc.idling = true) :
    Watched n { r.setIdle w .loop with scheduler := r.scheduler.setWorker w worker } := by
  have tracks : Scheduler.Tracks r.scheduler (r.scheduler.setWorker w worker) w := by
    apply Scheduler.Tracks.move at_pc rfl
    · rw [active]
      rfl
    · rw [idling]
      rfl
  refine watched.inside rfl watched.tallied (watched.accounted.tracks few here tracks) ?_ ?_
  · exact Seen.none rfl
  · intro v _ other seen
    exact seen.onward rfl (fun _ => rfl) (tracks.others v other) seen.timers rfl seen.queue

theorem Watched.read (watched : r.Watched n) (few : n < 2 ^ 64) (here : w < n)
    (at_pc : (r.scheduler.worker w).pc = .idle) {holds : Bool} (unheld : pc.held = [])
    (own : holds = true → r.Seen n w pc) : (r.read w holds pc).2.Watched n := by
  unfold Reactor.read
  split
  · rename_i found
    exact watched.setIdle unheld (own found)
  · exact watched.back few here at_pc rfl rfl

theorem getNextTimer_none {m : TimerManager γ} {now : UInt64}
    (near : now = 0 → ∀ t ∈ m.m_timers, (m.timer t).m_next ≠ 0xFFFFFFFFFFFFFFFF)
    (none : (m.getNextTimer now).1 = 0xFFFFFFFFFFFFFFFF) : m.m_timers = [] := by
  unfold TimerManager.getNextTimer at none
  dsimp only at none
  split at none
  · assumption
  · rename_i first rest timers
    exfalso
    split at none
    · cases none
    · rename_i ahead
      have later : now.toNat < (m.timer first).m_next.toNat :=
        UInt64.lt_iff_toNat_lt.mp (UInt64.not_le.mp ahead)
      have difference := congrArg UInt64.toNat none
      rw [UInt64.toNat_sub_of_le _ _ (UInt64.le_iff_toNat_le.mpr (Nat.le_of_lt later))]
        at difference
      have bound := (m.timer first).m_next.toNat_lt
      have whole : (0xFFFFFFFFFFFFFFFF : UInt64).toNat = 2 ^ 64 - 1 := rfl
      have zero : now = 0 := by
        apply UInt64.toNat_inj.mp
        have : (0 : UInt64).toNat = 0 := rfl
        omega
      apply near zero first
      · rw [timers]
        exact List.mem_cons_self
      · apply UInt64.toNat_inj.mp
        omega

theorem Watched.getNextTimer (watched : r.Watched n) (few : n < 2 ^ 64) (here : w < n)
    (at_pc : (r.scheduler.worker w).pc = .idle) {now : UInt64}
    (undisturbed : r.Undisturbed n (.getNextTimer w now)) :
    ({ r with timers := (r.timers.getNextTimer now).2 }.read w
      ((r.timers.getNextTimer now).1 = 0xFFFFFFFFFFFFFFFF) .pending).2.Watched n := by
  have same : (r.timers.getNextTimer now).2.m_timers = r.timers.m_timers := by
    unfold TimerManager.getNextTimer
    dsimp only
    split
    · rfl
    · split <;> rfl
  have after : Watched n { r with timers := (r.timers.getNextTimer now).2 } := by
    refine watched.outside rfl watched.tallied watched.accounted (fun _ _ _ => id) ?_
      (fun _ _ _ => id) (fun _ _ _ => id)
    intro v _ _ empty
    exact same.trans empty
  apply after.read few here at_pc rfl
  intro none
  have empty := getNextTimer_none undisturbed (decide_eq_true_eq.mp none)
  refine ⟨fun _ => at_pc, fun _ => same.trans empty, ?_, ?_, ?_⟩
  · intro saw
    cases saw
  · intro saw
    cases saw
  · intro saw
    cases saw

theorem Watched.listExpiredCb (watched : r.Watched n) {now : UInt64} {addr : Nat} :
    Watched n { r.setIdle w (.cbs ((r.timers.listExpiredCb now addr).1.map Prod.snd)) with
      timers := (r.timers.listExpiredCb now addr).2 } := by
  have unfilled (empty : r.timers.m_timers = []) :
      (r.timers.listExpiredCb now addr).2.m_timers = [] ∧
        (r.timers.listExpiredCb now addr).1 = [] := by
    have taken : r.timers.step (.listExpiredCb now addr) =
      some (.expired (r.timers.listExpiredCb now addr).1,
        (r.timers.listExpiredCb now addr).2) := rfl
    obtain ⟨left, none⟩ := TimerManager.step_unfilled empty id taken
    exact ⟨left, none _ rfl⟩
  refine watched.inside rfl watched.tallied watched.accounted ?_ ?_
  · exact Seen.none rfl
  · intro v _ _ seen
    refine seen.onward rfl ?_ rfl ?_ rfl seen.queue
    · intro saw
      have empty := seen.timers (IdlePc.sawTimers_of_sawEvents (IdlePc.sawEvents_of_sawQueue saw))
      change (r.timers.listExpiredCb now addr).1.map Prod.snd = []
      rw [(unfilled empty).2]
      rfl
    · intro saw
      exact (unfilled (seen.timers saw)).1

theorem Watched.scheduleCbs (watched : r.Watched n) (here : w < n)
    {cbs : List (Option γ)} (at_pc : r.idle w = .cbs cbs) {obs : Obs γ} {s : Scheduler γ}
    (taken : r.scheduler.step (.scheduleRange (cbs.map (·.map .cb))) = some (obs, s)) :
    Watched n { r.setIdle w .events with scheduler := s } := by
  have still : Scheduler.Still r.scheduler s := by
    rcases Scheduler.step_tracks taken with ⟨-, still⟩ | ⟨u, mover, -⟩
    · exact still
    · cases mover
  refine watched.inside rfl watched.tallied (watched.accounted.still still) ?_ ?_
  · exact Seen.none rfl
  · intro v _ _ seen
    refine seen.onward rfl (fun _ => rfl) ?_ seen.timers rfl ?_
    · change (s.worker v).pc = _
      rw [still.workers]
    · intro saw
      have unheld := seen.held saw w here
      rw [at_pc] at unheld
      obtain rfl : cbs = [] := unheld
      exact Scheduler.step_unqueued (seen.queue saw) rfl taken

theorem Watched.idleDone (watched : r.Watched n) (few : n < 2 ^ 64) (here : w < n)
    {obs : Obs γ} {s : Scheduler γ}
    (taken : r.scheduler.step (.idleDone w) = some (obs, s)) :
    Watched n { r.setIdle w .loop with scheduler := s } := by
  have tracks : Scheduler.Tracks r.scheduler s w := by
    rcases Scheduler.step_tracks taken with ⟨mover, -⟩ | ⟨u, mover, tracks⟩
    · cases mover
    · cases mover
      exact tracks
  refine watched.inside rfl watched.tallied (watched.accounted.tracks few here tracks) ?_ ?_
  · exact Seen.none rfl
  · intro v _ other seen
    refine seen.onward rfl (fun _ => rfl) (tracks.others v other) seen.timers rfl ?_
    intro saw
    exact Scheduler.step_unqueued (seen.queue saw) rfl taken

theorem Watched.step (watched : r.Watched n) (few : n < 2 ^ 64) {act : Act γ}
    (inside : ∀ w, act.worker? = some w → w < n) (undisturbed : r.Undisturbed n act)
    (taken : r.step act = some (verdict, next)) : next.Watched n := by
  cases act <;> simp only [Reactor.step] at taken
  case scheduler act =>
      split at taken
      · rename_i own
        obtain ⟨⟨obs, s⟩, done, same⟩ := Option.map_eq_some_iff.mp taken
        cases same
        exact watched.scheduler few inside own undisturbed done
      · cases taken
  case timer op =>
      split at taken
      · obtain ⟨⟨ret, timers⟩, done, same⟩ := Option.map_eq_some_iff.mp taken
        cases same
        exact watched.timer undisturbed done
      · cases taken
  case io op =>
      split at taken
      · apply watched.io _ taken
        rintro w here saw caller fd event cb rfl
        have none := undisturbed rfl w here
        rw [none] at saw
        cases saw
      · cases taken
  case getNextTimer w now =>
      split at taken
      · rename_i at_pc _
        have shape : _ = next := congrArg Prod.snd (Option.some.inj taken)
        rw [← shape]
        exact watched.getNextTimer few (inside w rfl) at_pc undisturbed
      · cases taken
  case readPending w =>
      split at taken
      · rename_i at_pc
        have shape : _ = next := congrArg Prod.snd (Option.some.inj taken)
        have seen := watched.seen w (inside w rfl)
        rw [at_pc] at seen
        rw [← shape]
        apply watched.read few (inside w rfl) (seen.place rfl) rfl
        intro none
        have none := watched.tallied.zero_iff.mp (decide_eq_true_eq.mp none)
        refine ⟨seen.place, seen.timers, fun _ => IOManager.events_clear none, ?_, ?_⟩
        · intro saw
          cases saw
        · intro saw
          cases saw
      · cases taken
  case readFlags w =>
      split at taken
      · rename_i at_pc
        have shape : _ = next := congrArg Prod.snd (Option.some.inj taken)
        have seen := watched.seen w (inside w rfl)
        rw [at_pc] at seen
        rw [← shape]
        apply watched.read few (inside w rfl) (seen.place rfl) rfl
        intro _
        refine ⟨seen.place, seen.timers, seen.events, ?_, ?_⟩
        · intro saw
          cases saw
        · intro saw
          cases saw
      · cases taken
  case readQueue w =>
      split at taken
      · rename_i at_pc
        have shape : _ = next := congrArg Prod.snd (Option.some.inj taken)
        have seen := watched.seen w (inside w rfl)
        rw [at_pc] at seen
        rw [← shape]
        apply watched.read few (inside w rfl) (seen.place rfl) rfl
        intro empty
        exact ⟨seen.place, seen.timers, seen.events, fun _ => List.isEmpty_iff.mp empty,
          fun _ => undisturbed⟩
      · cases taken
  case readActive w =>
      split at taken
      · rename_i at_pc
        have seen := watched.seen w (inside w rfl)
        rw [at_pc] at seen
        split at taken <;> cases taken
        · exact watched.back few (inside w rfl) (seen.place rfl) rfl rfl
        · exact watched.back few (inside w rfl) (seen.place rfl) rfl rfl
      · cases taken
  case listExpiredCb w now addr =>
      split at taken
      · cases taken
        exact watched.listExpiredCb
      · cases taken
  case scheduleCbs w =>
      split at taken
      · rename_i cbs at_pc
        obtain ⟨⟨obs, s⟩, done, same⟩ := Option.map_eq_some_iff.mp taken
        cases same
        exact watched.scheduleCbs (inside w rfl) at_pc done
      · cases taken
  case deliver w fd events granted =>
      split at taken
      · apply watched.io _ taken
        rintro w here saw caller fd event cb same
        cases same
      · cases taken
  case idleDone w =>
      split at taken
      · obtain ⟨⟨obs, s⟩, done, same⟩ := Option.map_eq_some_iff.mp taken
        cases same
        exact watched.idleDone few (inside w rfl) done
      · cases taken

/-! ### Whole runs -/

/-- `stopping` returns true by its last read. -/
theorem verdict_true {act : Act γ} (taken : r.step act = some (some true, next)) :
    ∃ w, act = .readActive w ∧ r.idle w = .active ∧
      r.scheduler.m_activateThreadCount = 0 := by
  have silent {r : Reactor γ} {w : WorkerId} {holds : Bool} {pc : IdlePc γ}
      (done : some (r.read w holds pc) = some (some true, next)) : False := by
    unfold read at done
    split at done <;> cases done
  have events {op : IOOp γ} (done : r.execIO op = some (some true, next)) : False := by
    obtain ⟨_, -, rest⟩ := Option.bind_eq_some_iff.mp done
    obtain ⟨_, -, same⟩ := Option.map_eq_some_iff.mp rest
    cases same
  cases act <;> simp only [Reactor.step] at taken
  case readActive w =>
      split at taken
      · rename_i at_pc
        split at taken
        · rename_i none
          exact ⟨w, rfl, at_pc, none⟩
        · exact (silent taken).elim
      · cases taken
  case getNextTimer | readPending | readFlags | readQueue =>
      split at taken
      · exact (silent taken).elim
      · cases taken
  case io | deliver =>
      split at taken
      · exact (events taken).elim
      · cases taken
  case listExpiredCb => split at taken <;> cases taken
  all_goals
    split at taken
    · obtain ⟨_, -, same⟩ := Option.map_eq_some_iff.mp taken
      cases same
    · cases taken

theorem Watched.quiet (watched : r.Watched n) (here : w < n) (at_pc : r.idle w = .active)
    (none : r.scheduler.m_activateThreadCount = 0) : r.Quiet n := by
  have seen := watched.seen w here
  rw [at_pc] at seen
  refine ⟨seen.queue rfl, ?_, ?_, seen.timers rfl, seen.held rfl⟩
  · apply Counting.count_eq_zero.mp
    rw [← watched.accounted.active, none]
    rfl
  · intro fd_ctx member
    obtain ⟨fd, inside, rfl⟩ := List.mem_iff_getElem.mp member
    have clear := seen.events rfl fd
    rwa [IOManager.slot_of_get (List.getElem?_eq_getElem inside)] at clear

/-- In every undisturbed run of `n` workers, when `stopping` returns true in one of them,
nothing is left to do. -/
theorem run_quiet {n now : UInt64} {acts : List (Act γ)} {verdicts : List (Option Bool)}
    {act : Act γ} (workers : ∀ a ∈ acts ++ [act], ∀ w, a.worker? = some w → w < n.toNat)
    (undisturbed : Transition.Along step (Undisturbed n.toNat) (new now) acts)
    (taken : Transition.run step (new now) acts = some (verdicts, r))
    (stops : r.step act = some (some true, next)) : r.Quiet n.toNat := by
  have inside : Transition.Along step
      (fun _ a => ∀ w, a.worker? = some w → w < n.toNat) (new now : Reactor γ) acts :=
    Transition.Along.of_mem
      (fun a member _ => workers a (List.mem_append_left _ member)) _
  have watched : r.Watched n.toNat :=
    Transition.run_invariant
      (fun _ _ _ _ holds good done => holds.step n.toNat_lt good.1 good.2 done)
      (new_watched now) (inside.and undisturbed) taken
  obtain ⟨w, rfl, at_pc, none⟩ := verdict_true stops
  exact watched.quiet (workers _ (List.mem_append_right _ List.mem_cons_self) w rfl) at_pc none

/-- Worker 1 executes a task, `stop` is called, and worker 0 is idle. -/
def stopped : List (Act Nat) :=
  [.scheduler (.schedule (some (.cb 5)) none), .scheduler (.run 1), .scheduler (.run 1),
    .scheduler (.run 1), .scheduler .stop, .scheduler (.run 0), .scheduler (.run 0),
    .scheduler (.run 0)]

/-- The task of worker 1 returns and is counted off. -/
def returned : List (Act Nat) :=
  [.scheduler (.finish 1), .scheduler (.run 1), .scheduler (.run 1)]

/-- The task sets a timer and returns, and the timer expires while worker 1 is idle. -/
def expired : List (Act Nat) :=
  stopped ++ [.timer (.addTimer 10 1 5 (some 7) false)] ++ returned ++
    [.scheduler (.run 1), .scheduler (.run 1), .scheduler (.run 1), .scheduler (.run 1),
      .scheduler (.run 1), .getNextTimer 1 12, .scheduler (.wake 1), .listExpiredCb 1 20 2]

/-- The test of worker 0 up to its last read. -/
def tested : List (Act Nat) :=
  [.getNextTimer 0 20, .readPending 0, .readFlags 0, .readQueue 0]

/-- The expired callback is queued and executed before worker 0 makes its test. -/
theorem run_quiet_expired :
    ∃ verdicts r next, Transition.run step (new 0)
      (expired ++ [.scheduleCbs 1, .idleDone 1, .scheduler (.run 1), .scheduler (.run 1),
        .scheduler (.run 1), .scheduler (.run 1)] ++ returned ++ tested) = some (verdicts, r) ∧
      r.step (.readActive 0) = some (some true, next) ∧ r.timers.count = 1 ∧ r.Quiet 2 := by
  have shown : (Transition.run step (new 0)
      (expired ++ [.scheduleCbs 1, .idleDone 1, .scheduler (.run 1), .scheduler (.run 1),
        .scheduler (.run 1), .scheduler (.run 1)] ++ returned ++ tested)).map
      (fun p => ((p.2.step (.readActive 0)).map Prod.fst, p.2.timers.count)) =
      some (some (some true), 1) := by
    decide
  obtain ⟨⟨verdicts, r⟩, taken, seen⟩ := Option.map_eq_some_iff.mp shown
  obtain ⟨stops, count⟩ := Prod.mk.inj seen
  obtain ⟨⟨verdict, next⟩, stops, same⟩ := Option.map_eq_some_iff.mp stops
  obtain rfl : verdict = some true := same
  exact ⟨verdicts, r, next, taken, stops, count,
    run_quiet (n := 2) (by decide) (by decide) taken stops⟩

/-- Worker 0 reads `getNextTimer`, then the task of worker 1 sets a timer and returns; or it
finds everything empty while worker 1 holds the callback of the expired timer. -/
theorem stopping_not_quiet :
    (∃ verdicts r next, Transition.run step (new 0)
      (stopped ++ [.getNextTimer 0 10, .timer (.addTimer 10 1 5 (some 7) false)] ++ returned ++
        [.readPending 0, .readFlags 0, .readQueue 0]) = some (verdicts, r) ∧
      r.step (.readActive 0) = some (some true, next) ∧ r.timers.m_timers = [0]) ∧
    ∃ verdicts r next, Transition.run step (new 0) (expired ++ tested) = some (verdicts, r) ∧
      r.step (.readActive 0) = some (some true, next) ∧ (r.idle 1).held = [some 7] := by
  have first : (Transition.run step (new 0)
      (stopped ++ [.getNextTimer 0 10, .timer (.addTimer 10 1 5 (some 7) false)] ++ returned ++
        [.readPending 0, .readFlags 0, .readQueue 0])).map
      (fun p => ((p.2.step (.readActive 0)).map Prod.fst, p.2.timers.m_timers)) =
      some (some (some true), [0]) := by
    decide
  have second : (Transition.run step (new 0) (expired ++ tested)).map
      (fun p => ((p.2.step (.readActive 0)).map Prod.fst, (p.2.idle 1).held)) =
      some (some (some true), [some 7]) := by
    decide
  refine ⟨?_, ?_⟩
  · obtain ⟨⟨verdicts, r⟩, taken, seen⟩ := Option.map_eq_some_iff.mp first
    obtain ⟨stops, timers⟩ := Prod.mk.inj seen
    obtain ⟨⟨verdict, next⟩, stops, same⟩ := Option.map_eq_some_iff.mp stops
    obtain rfl : verdict = some true := same
    exact ⟨verdicts, r, next, taken, stops, timers⟩
  · obtain ⟨⟨verdicts, r⟩, taken, seen⟩ := Option.map_eq_some_iff.mp second
    obtain ⟨stops, held⟩ := Prod.mk.inj seen
    obtain ⟨⟨verdict, next⟩, stops, same⟩ := Option.map_eq_some_iff.mp stops
    obtain rfl : verdict = some true := same
    exact ⟨verdicts, r, next, taken, stops, held⟩

end Reactor

end CorReactor
