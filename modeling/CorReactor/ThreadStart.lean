import CorReactor.Transition
import Mathlib.Logic.Function.Basic

set_option autoImplicit false

/-! The constructor of `Thread`, `Thread::run` and `Scheduler::start`: who waits for whom until
all threads of a scheduler are known. -/

namespace CorReactor

/-- Who has the scheduler's `m_mutex`: a call of `start`, a thread in `Scheduler::run`, or
someone else. -/
inductive Owner
  | start (call : Nat)
  | worker (thread : Nat)
  | other (caller : Nat)
  deriving DecidableEq

/-- Where a call of `start` is. At `create`, `wait` and `record` it is in a turn of its loop: before
`pthread_create`, in the `m_semphore.wait()` of the constructor, and before `m_threadIds`. -/
inductive StartPc
  | outside
  | entered
  | create (i : Nat)
  | wait (i : Nat)
  | record (i : Nat)
  | leaving
  | returned
  | threw
  deriving DecidableEq

/-- Where a thread is: in `Thread::run`, before each of its accesses to the `Thread` object, or in
its callback `Scheduler::run`, outside the lock or with it. -/
inductive ThreadPc
  | unborn
  | naming
  | identifying
  | taking
  | notifying
  | running
  | scanning
  deriving DecidableEq

/-- The thread has called `notify`. -/
def ThreadPc.notified : ThreadPc → Bool
  | .running | .scanning => true
  | _ => false

/-- It has stored its id. -/
def ThreadPc.identified : ThreadPc → Bool
  | .unborn | .naming | .identifying => false
  | _ => true

/-- A `Thread` object; an `m_id` of -1 is `none`. `semphore` is the count of `m_semphore`, and
`m_cb` says whether the callback is still there. -/
structure Thread where
  m_id : Option Nat := none
  m_cb : Bool := true
  semphore : Nat := 0
  pc : ThreadPc := .unborn
  deriving DecidableEq

/-- A scheduler while it is started. `calls` counts the callbacks that a thread has begun. -/
structure Starting where
  m_mutex : Option Owner := none
  m_stopping : Bool := true
  /-- `m_threads.size()`. -/
  m_threads : Nat := 0
  m_threadIds : List (Option Nat) := []
  thread : Nat → Thread := fun _ => {}
  start : Nat → StartPc := fun _ => .outside
  calls : Nat → Nat := fun _ => 0

/-- The steps of the callers of `start`, of the new threads and of others that use the mutex.
`create` says whether `pthread_create` succeeds. -/
inductive StartAct
  | lock (call : Nat)
  | check (call : Nat)
  | create (call : Nat) (created : Bool)
  | wait (call : Nat)
  | record (call : Nat)
  | unlock (call : Nat)
  | thread (i : Nat)
  | scan (i : Nat)
  | scanned (i : Nat)
  | other (caller : Nat)
  | otherDone (caller : Nat)
  deriving DecidableEq

namespace Starting

/-- The turn of the loop for `i`, or its end. -/
def turn (m_threadCount i : Nat) : StartPc := if i < m_threadCount then .create i else .leaving

def goto (s : Starting) (call : Nat) (pc : StartPc) : Starting :=
  { s with start := Function.update s.start call pc }

def setThread (s : Starting) (i : Nat) (thread : Thread) : Starting :=
  { s with thread := Function.update s.thread i thread }

/-- One access of `Thread::run` to the object; the callback begins behind `notify`. `tid` is
`GetThreadId()` in each thread. -/
def runThread (tid : Nat → Nat) (s : Starting) (i : Nat) : Option Starting :=
  let thread := s.thread i
  match thread.pc with
  | .naming => some (s.setThread i { thread with pc := .identifying })
  | .identifying => some (s.setThread i { thread with m_id := some (tid i), pc := .taking })
  | .taking => some (s.setThread i { thread with m_cb := false, pc := .notifying })
  | .notifying =>
      some { s.setThread i { thread with semphore := thread.semphore + 1, pc := .running } with
        calls := Function.update s.calls i (s.calls i + 1) }
  | .unborn | .running | .scanning => none

/-- A step; `none` where it waits for the mutex or the semaphore, or where the assertion fails. -/
def exec (m_threadCount : Nat) (tid : Nat → Nat) (s : Starting) : StartAct → Option Starting
  | .lock call =>
      if s.start call = .outside ∧ s.m_mutex = none then
        some { s.goto call .entered with m_mutex := some (.start call) }
      else none
  | .check call =>
      if s.start call = .entered then
        if !s.m_stopping then some (s.goto call .leaving)
        else if s.m_threads = 0 then
          some { s.goto call (turn m_threadCount 0) with
            m_stopping := false
            m_threads := m_threadCount }
        else none
      else none
  | .create call created =>
      match s.start call with
      | .create i =>
          if created then
            some ((s.setThread i { s.thread i with pc := .naming }).goto call (.wait i))
          -- the exception leaves `start`, and its guard unlocks
          else some { s.goto call .threw with m_mutex := none }
      | _ => none
  | .wait call =>
      match s.start call with
      | .wait i =>
          if 0 < (s.thread i).semphore then
            some ((s.setThread i { s.thread i with
              semphore := (s.thread i).semphore - 1 }).goto call (.record i))
          else none
      | _ => none
  | .record call =>
      match s.start call with
      | .record i =>
          some { s.goto call (turn m_threadCount (i + 1)) with
            m_threadIds := s.m_threadIds ++ [(s.thread i).m_id] }
      | _ => none
  | .unlock call =>
      if s.start call = .leaving then some { s.goto call .returned with m_mutex := none } else none
  | .thread i => s.runThread tid i
  | .scan i =>
      if (s.thread i).pc = .running ∧ s.m_mutex = none then
        some { s.setThread i { s.thread i with pc := .scanning } with
          m_mutex := some (.worker i) }
      else none
  | .scanned i =>
      if (s.thread i).pc = .scanning then
        some { s.setThread i { s.thread i with pc := .running } with m_mutex := none }
      else none
  | .other caller =>
      if s.m_mutex = none then some { s with m_mutex := some (.other caller) } else none
  | .otherDone caller =>
      if s.m_mutex = some (.other caller) then some { s with m_mutex := none } else none

def step (m_threadCount : Nat) (tid : Nat → Nat) : Transition.Step Starting StartAct Unit :=
  fun s act => (s.exec m_threadCount tid act).map ((), ·)

/-- Behind the constructor; `root` is `m_rootThread` where the caller's thread takes part. -/
def boot (root : Option Nat) : Starting := { m_threadIds := root.toList.map some }

/-! ### How far the scheduler is started -/

/-- Nothing has begun, a call is in its turn for `i`, or the loop has ended after `k` threads. -/
inductive Stage
  | before
  | create (call i : Nat)
  | wait (call i : Nat)
  | record (call i : Nat)
  | after (k : Nat)

namespace Stage

/-- The ids that have been stored. -/
def recorded : Stage → Nat
  | .before => 0
  | .create _ i | .wait _ i | .record _ i => i
  | .after k => k

/-- The threads that have been created. -/
def born : Stage → Nat
  | .before => 0
  | .create _ i => i
  | .wait _ i | .record _ i => i + 1
  | .after k => k

/-- The thread that the constructor still waits for. -/
def awaited : Stage → Option Nat
  | .wait _ i => some i
  | _ => none

def started : Stage → Bool
  | .before => false
  | _ => true

/-- The place of a call that is in its loop. -/
def at? (call : Nat) : StartPc → Option Stage
  | .create i => some (.create call i)
  | .wait i => some (.wait call i)
  | .record i => some (.record call i)
  | _ => none

/-- The call that is in its loop. -/
def call? : Stage → Option Nat
  | .create call _ | .wait call _ | .record call _ => some call
  | _ => none

end Stage

end Starting

/-- The call has the mutex. -/
def StartPc.locked : StartPc → Bool
  | .entered | .create _ | .wait _ | .record _ | .leaving => true
  | _ => false

/-- The call has seen the scheduler started. -/
def StartPc.gone : StartPc → Bool
  | .leaving | .returned => true
  | _ => false

/-- The thread has taken the callback out of the object. -/
def ThreadPc.taken : ThreadPc → Bool
  | .notifying | .running | .scanning => true
  | _ => false

/-- A thread that was created, as far as it has come; `awaited` says that its constructor has not
returned. -/
structure Thread.Fits (t : Thread) (tid calls : Nat) (awaited : Bool) : Prop where
  born : t.pc ≠ .unborn
  id : t.m_id = if t.pc.identified then some tid else none
  cb : t.pc.taken = true → t.m_cb = false
  calls : calls = if t.pc.notified then 1 else 0
  semphore : t.semphore = if t.pc.notified && awaited then 1 else 0
  waited : awaited = false → t.pc.notified = true

/-- The constructor waits for the thread until it calls `notify`. -/
theorem Thread.Fits.awaits {thread : Thread} {tid calls : Nat} {awaited : Bool}
    (fits : thread.Fits tid calls awaited) (early : thread.pc.notified = false) :
    awaited = true := by
  cases awaited with
  | true => rfl
  | false => exact absurd ((fits.waited rfl).symm.trans early) Bool.true_eq_false.mp

/-- An access of `Thread::run`, the last of which is `notify`. -/
theorem Thread.Fits.advance {thread next : Thread} {tid calls : Nat} {awaited : Bool}
    (fits : thread.Fits tid calls awaited) (early : thread.pc.notified = false)
    (born : next.pc ≠ .unborn) (id : next.m_id = if next.pc.identified then some tid else none)
    (cb : next.pc.taken = true → next.m_cb = false)
    (semphore : next.semphore = thread.semphore + if next.pc.notified then 1 else 0) :
    next.Fits tid (calls + if next.pc.notified then 1 else 0) awaited := by
  obtain rfl : awaited = true := fits.awaits early
  have no_calls := fits.calls
  have no_posts := fits.semphore
  rw [early] at no_calls no_posts
  refine ⟨born, id, cb, ?_, ?_, (nomatch ·)⟩
  · rw [no_calls]
    cases next.pc.notified <;> rfl
  · rw [semphore, no_posts]
    cases next.pc.notified <;> rfl

/-- The thread moves behind its `notify`. -/
theorem Thread.Fits.again {thread : Thread} {tid calls : Nat} {awaited : Bool} {pc : ThreadPc}
    (fits : thread.Fits tid calls awaited) (before : thread.pc.notified = true)
    (after : pc.notified = true) : Thread.Fits { thread with pc := pc } tid calls awaited := by
  have flags : ∀ pc : ThreadPc, pc.notified = true →
      pc ≠ .unborn ∧ pc.identified = true ∧ pc.taken = true := by
    intro pc notified
    cases pc <;> first | exact ⟨(nomatch ·), rfl, rfl⟩ | cases notified
  obtain ⟨-, id, cb, calls, semphore, -⟩ := fits
  obtain ⟨-, identified, taken⟩ := flags _ before
  obtain ⟨born, identified', -⟩ := flags pc after
  rw [before] at calls semphore
  rw [identified] at id
  refine ⟨born, ?_, fun _ => cb taken, ?_, ?_, fun _ => after⟩
  · rw [identified']
    exact id
  · rw [after]
    exact calls
  · rw [after]
    exact semphore

namespace Starting

/-- The ids of the caller's thread and of the first `k` threads. -/
def stored (root : Option Nat) (tid : Nat → Nat) (k : Nat) : List (Option Nat) :=
  root.toList.map some ++ (List.range k).map fun i => some (tid i)

theorem stored_succ (root : Option Nat) (tid : Nat → Nat) (k : Nat) :
    stored root tid (k + 1) = stored root tid k ++ [some (tid k)] := by
  rw [stored, List.range_succ, List.map_append, ← List.append_assoc]
  rfl

structure Inv (root : Option Nat) (m_threadCount : Nat) (tid : Nat → Nat) (s : Starting)
    (stage : Stage) : Prop where
  stopping : s.m_stopping = !stage.started
  sized : s.m_threads = if stage.started then m_threadCount else 0
  ids : s.m_threadIds = stored root tid stage.recorded
  born : ∀ i < stage.born, (s.thread i).Fits (tid i) (s.calls i) (stage.awaited = some i)
  unborn : ∀ i, stage.born ≤ i → s.thread i = {} ∧ s.calls i = 0
  loop : ∀ call, Stage.at? call (s.start call) =
    if stage.call? = some call then some stage else none
  gone : ∀ call, (s.start call).gone = true → ∃ k, stage = .after k
  within : stage.born ≤ m_threadCount
  turning : ∀ call i, stage = .create call i → i < m_threadCount
  ended : ∀ k, stage = .after k → k = m_threadCount ∨ ∃ call, s.start call = .threw
  start : ∀ call, (s.start call).locked = true ↔ s.m_mutex = some (.start call)
  scan : ∀ i, (s.thread i).pc = .scanning ↔ s.m_mutex = some (.worker i)

variable {root : Option Nat} {m_threadCount : Nat} {tid : Nat → Nat} {s t : Starting}
  {stage : Stage} {call i : Nat}

theorem boot_inv : (boot root).Inv root m_threadCount tid .before where
  stopping := rfl
  sized := rfl
  ids := (List.append_nil _).symm
  born := by
    rintro i ⟨⟩
  unborn := fun _ _ => ⟨rfl, rfl⟩
  loop := fun _ => rfl
  gone := fun _ => (nomatch ·)
  within := Nat.zero_le _
  turning := by
    rintro _ _ ⟨⟩
  ended := by
    rintro _ ⟨⟩
  start := fun _ => ⟨(nomatch ·), (nomatch ·)⟩
  scan := fun _ => ⟨(nomatch ·), (nomatch ·)⟩

@[simp] theorem goto_start (s : Starting) (call other : Nat) (pc : StartPc) :
    (s.goto call pc).start other = if other = call then pc else s.start other :=
  Function.update_apply ..

@[simp] theorem setThread_thread (s : Starting) (i j : Nat) (thread : Thread) :
    (s.setThread i thread).thread j = if j = i then thread else s.thread j :=
  Function.update_apply ..

/-- The stage of a call that is in its loop. -/
theorem Inv.stage_of (inv : s.Inv root m_threadCount tid stage) (call : Nat) {place : Stage}
    (at_place : Stage.at? call (s.start call) = some place) : stage = place := by
  rw [inv.loop] at at_place
  split at at_place
  · exact Option.some.inj at_place
  · cases at_place

/-- No thread holds the mutex while a call does. -/
theorem Inv.not_scanning (inv : s.Inv root m_threadCount tid stage)
    (locked : (s.start call).locked = true) (j : Nat) : (s.thread j).pc ≠ .scanning := by
  intro scans
  have owner := (inv.start call).mp locked
  rw [(inv.scan j).mp scans] at owner
  cases owner

/-- Only one call holds it. -/
theorem Inv.only (inv : s.Inv root m_threadCount tid stage) (locked : (s.start call).locked = true)
    {other : Nat} (apart : other ≠ call) : (s.start other).locked = false := by
  rw [← Bool.not_eq_true]
  intro locked'
  have owner := (inv.start other).mp locked'
  rw [(inv.start call).mp locked] at owner
  exact apart (Owner.start.inj (Option.some.inj owner)).symm

theorem at?_of_unlocked {pc : StartPc} (unlocked : pc.locked = false) :
    Stage.at? call pc = none := by
  cases pc <;> first | rfl | cases unlocked

/-- The call that has the mutex goes on, or leaves and unlocks. -/
theorem Inv.move (inv : s.Inv root m_threadCount tid stage) (held : (s.start call).locked = true)
    {pc : StartPc} {stage' : Stage} (start : t.start = Function.update s.start call pc)
    (mutex : t.m_mutex = if pc.locked then some (.start call) else none)
    (scan : ∀ j, (t.thread j).pc = .scanning → (s.thread j).pc = .scanning)
    (loop : Stage.at? call pc = if stage'.call? = some call then some stage' else none)
    (others : ∀ other, stage'.call? = some other → other = call)
    (gone : ∀ other, (t.start other).gone = true → ∃ k, stage' = .after k)
    (stopping : t.m_stopping = !stage'.started)
    (sized : t.m_threads = if stage'.started then m_threadCount else 0)
    (ids : t.m_threadIds = stored root tid stage'.recorded)
    (born : ∀ i < stage'.born, (t.thread i).Fits (tid i) (t.calls i) (stage'.awaited = some i))
    (unborn : ∀ i, stage'.born ≤ i → t.thread i = {} ∧ t.calls i = 0)
    (within : stage'.born ≤ m_threadCount)
    (turning : ∀ call i, stage' = .create call i → i < m_threadCount)
    (ended : ∀ k, stage' = .after k → k = m_threadCount ∨ ∃ call, t.start call = .threw) :
    t.Inv root m_threadCount tid stage' := by
  refine ⟨stopping, sized, ids, born, unborn, ?_, gone, within, turning, ended, ?_, ?_⟩
  · intro other
    by_cases same : other = call
    · rw [same, start, Function.update_self]
      exact loop
    · rw [start, Function.update_of_ne same, at?_of_unlocked (inv.only held same)]
      split
      · rename_i there
        exact absurd (others other there) same
      · rfl
  · intro other
    by_cases same : other = call
    · rw [same, start, Function.update_self, mutex]
      cases pc.locked <;> simp
    · rw [start, Function.update_of_ne same, inv.only held same, mutex]
      cases pc.locked with
      | false => simp
      | true => simp [Ne.symm same]
  · intro j
    constructor
    · intro scans
      exact absurd (scan j scans) (inv.not_scanning held j)
    · intro owner
      rw [mutex] at owner
      split at owner <;> cases owner

/-- A thread goes on in `Thread::run`, outside the mutex. -/
theorem Inv.thread (inv : s.Inv root m_threadCount tid stage) {thread : Thread} {calls : Nat}
    (before : (s.thread i).pc ≠ .scanning) (after : thread.pc ≠ .scanning)
    (here : i < stage.born)
    (fits : thread.Fits (tid i) calls (stage.awaited = some i)) :
    Inv root m_threadCount tid { s.setThread i thread with
      calls := Function.update s.calls i calls } stage := by
  refine ⟨inv.stopping, inv.sized, inv.ids, ?_, ?_, inv.loop, inv.gone, inv.within, inv.turning,
    inv.ended, inv.start, ?_⟩
  · intro j inside
    by_cases same : j = i
    · subst same
      simpa only [setThread, Function.update_self] using fits
    · simp only [setThread, Function.update_of_ne same]
      exact inv.born j inside
  · intro j outside
    have other : j ≠ i := by omega
    simp only [setThread, Function.update_of_ne other]
    exact inv.unborn j outside
  · intro j
    by_cases same : j = i
    · subst same
      simp only [setThread, Function.update_self]
      constructor
      · intro scans
        exact absurd scans after
      · intro owner
        exact absurd ((inv.scan j).mpr owner) before
    · simp only [setThread, Function.update_of_ne same]
      exact inv.scan j

/-- A thread that moves has been created. -/
theorem Inv.here (inv : s.Inv root m_threadCount tid stage) (born : (s.thread i).pc ≠ .unborn) :
    i < stage.born := by
  by_contra outside
  apply born
  rw [(inv.unborn i (Nat.le_of_not_lt outside)).1]

theorem Inv.runThread (inv : s.Inv root m_threadCount tid stage)
    (taken : s.runThread tid i = some t) :
    t.Inv root m_threadCount tid stage := by
  have same_calls : Function.update s.calls i (s.calls i + 0) = s.calls :=
    Function.update_eq_self ..
  have next (thread : Thread) (born : (s.thread i).pc ≠ .unborn)
      (early : (s.thread i).pc.notified = false) (born' : thread.pc ≠ .unborn)
      (after : thread.pc ≠ .scanning)
      (id : thread.m_id = if thread.pc.identified then some (tid i) else none)
      (cb : thread.pc.taken = true → thread.m_cb = false)
      (semphore : thread.semphore =
        (s.thread i).semphore + if thread.pc.notified then 1 else 0) :
      Inv root m_threadCount tid { s.setThread i thread with
        calls := Function.update s.calls i
          (s.calls i + if thread.pc.notified then 1 else 0) } stage := by
    have here := inv.here born
    refine inv.thread ?_ after here ((inv.born i here).advance early born' id cb semphore)
    intro scans
    rw [scans] at early
    cases early
  unfold Starting.runThread at taken
  cases at_pc : (s.thread i).pc <;> simp only [at_pc] at taken <;> cases taken
  all_goals
    have fits := inv.born i (inv.here (by rw [at_pc]; exact (nomatch ·)))
    have id := fits.id
    have cb := fits.cb
    rw [at_pc] at next id cb
  case naming =>
      have moved : Inv root m_threadCount tid
          { s.setThread i { s.thread i with pc := .identifying } with
          calls := Function.update s.calls i (s.calls i + 0) } stage := next _ (nomatch ·) rfl
        (nomatch ·) (nomatch ·) id (nomatch ·) rfl
      rwa [same_calls] at moved
  case identifying =>
      have moved : Inv root m_threadCount tid { s.setThread i
          { s.thread i with m_id := some (tid i), pc := .taking } with
          calls := Function.update s.calls i (s.calls i + 0) } stage := next _
        (nomatch ·) rfl (nomatch ·) (nomatch ·) rfl (nomatch ·) rfl
      rwa [same_calls] at moved
  case taking =>
      have moved : Inv root m_threadCount tid { s.setThread i
          { s.thread i with m_cb := false, pc := .notifying } with
          calls := Function.update s.calls i (s.calls i + 0) } stage := next _
        (nomatch ·) rfl (nomatch ·) (nomatch ·) id (fun _ => rfl) rfl
      rwa [same_calls] at moved
  case notifying =>
      exact next { s.thread i with semphore := (s.thread i).semphore + 1, pc := .running }
        (nomatch ·) rfl (nomatch ·) (nomatch ·) id (fun _ => cb rfl) rfl

/-- A thread enters or leaves the section under the mutex. -/
theorem Inv.scan_move (inv : s.Inv root m_threadCount tid stage) {pc : ThreadPc}
    {owner : Option Owner}
    (before : (s.thread i).pc.notified = true) (after : pc.notified = true)
    (free : ∀ call, (s.start call).locked = false)
    (own : pc = .scanning ↔ owner = some (.worker i))
    (no_call : ∀ call, owner ≠ some (.start call))
    (others : ∀ j, j ≠ i → (s.thread j).pc ≠ .scanning ∧ owner ≠ some (.worker j)) :
    Inv root m_threadCount tid
      { s.setThread i { s.thread i with pc := pc } with m_mutex := owner } stage := by
  have here : i < stage.born := by
    apply inv.here
    intro unborn
    rw [unborn] at before
    cases before
  refine ⟨inv.stopping, inv.sized, inv.ids, ?_, ?_, inv.loop, inv.gone, inv.within, inv.turning,
    inv.ended, ?_, ?_⟩
  · intro j inside
    by_cases same : j = i
    · subst same
      simp only [setThread, Function.update_self]
      exact (inv.born j here).again before after
    · simp only [setThread, Function.update_of_ne same]
      exact inv.born j inside
  · intro j outside
    have other : j ≠ i := by omega
    simp only [setThread, Function.update_of_ne other]
    exact inv.unborn j outside
  · intro call
    constructor
    · intro locked
      exact absurd ((free call).symm.trans locked) Bool.false_ne_true
    · intro mine
      exact absurd mine (no_call call)
  · intro j
    by_cases same : j = i
    · subst same
      simp only [setThread, Function.update_self]
      exact own
    · simp only [setThread, Function.update_of_ne same]
      obtain ⟨not_there, not_owner⟩ := others j same
      exact ⟨fun scans => absurd scans not_there, fun mine => absurd mine not_owner⟩

/-- Only the owner of the mutex changes, from no one or someone else to another. -/
theorem Inv.mutex (inv : s.Inv root m_threadCount tid stage) {owner : Option Owner}
    (before : ∀ call, s.m_mutex ≠ some (.start call))
    (before' : ∀ i, s.m_mutex ≠ some (.worker i))
    (after : ∀ call, owner ≠ some (.start call)) (after' : ∀ i, owner ≠ some (.worker i)) :
    Inv root m_threadCount tid { s with m_mutex := owner } stage := by
  refine ⟨inv.stopping, inv.sized, inv.ids, inv.born, inv.unborn, inv.loop, inv.gone,
    inv.within, inv.turning, inv.ended, ?_, ?_⟩
  · intro call
    constructor
    · intro locked
      exact absurd ((inv.start call).mp locked) (before call)
    · intro mine
      exact absurd mine (after call)
  · intro j
    constructor
    · intro scans
      exact absurd ((inv.scan j).mp scans) (before' j)
    · intro mine
      exact absurd mine (after' j)

/-- A call that is not in its loop is not the one of the stage. -/
theorem Inv.outside (inv : s.Inv root m_threadCount tid stage)
    (out : Stage.at? call (s.start call) = none) : stage.call? ≠ some call := by
  intro there
  have placed := inv.loop call
  rw [out, if_pos there] at placed
  cases placed

/-- The call that is in its loop has the mutex. -/
theorem Inv.caller (inv : s.Inv root m_threadCount tid stage)
    (held : (s.start call).locked = true) :
    ∀ other, stage.call? = some other → other = call := by
  intro other there
  by_contra apart
  have placed := inv.loop other
  rw [if_pos there, at?_of_unlocked (inv.only held apart)] at placed
  cases placed

/-- While the loop has not ended, no call has seen the scheduler started. -/
theorem Inv.none_gone (inv : s.Inv root m_threadCount tid stage) {stage' : Stage} {pc : StartPc}
    (start : t.start = Function.update s.start call pc) (own : pc.gone = false)
    (going : ∀ k, stage ≠ .after k) :
    ∀ other, (t.start other).gone = true → ∃ k, stage' = .after k := by
  intro other gone
  rw [start] at gone
  by_cases same : other = call
  · rw [same, Function.update_self, own] at gone
    cases gone
  · rw [Function.update_of_ne same] at gone
    obtain ⟨k, after⟩ := inv.gone other gone
    exact absurd after (going k)

/-- Behind the start, a call that is not in the loop while it has the mutex comes after it. -/
theorem Inv.over (inv : s.Inv root m_threadCount tid stage) (held : (s.start call).locked = true)
    (out : Stage.at? call (s.start call) = none) (started : stage.started = true) :
    ∃ k, stage = .after k := by
  have other := inv.caller held
  have outside := inv.outside out
  cases stage with
  | before => cases started
  | after k => exact ⟨k, rfl⟩
  | create c i | wait c i | record c i =>
      exact absurd (congrArg some (other c rfl)) outside

theorem Inv.lock (inv : s.Inv root m_threadCount tid stage) (outside : s.start call = .outside)
    (free : s.m_mutex = none) :
    Inv root m_threadCount tid
      { s.goto call .entered with m_mutex := some (.start call) } stage := by
  have unlocked : ∀ other, (s.start other).locked = false := by
    intro other
    rw [← Bool.not_eq_true, inv.start other, free]
    exact (nomatch ·)
  refine ⟨inv.stopping, inv.sized, inv.ids, inv.born, inv.unborn, ?_, ?_, inv.within,
    inv.turning, ?_, ?_, ?_⟩
  · intro other
    simp only [goto_start]
    split
    · rename_i same
      rw [same, if_neg (inv.outside (by rw [outside]; rfl))]
      rfl
    · exact inv.loop other
  · intro other gone
    simp only [goto_start] at gone
    split at gone
    · cases gone
    · exact inv.gone other gone
  · intro k after
    rcases inv.ended k after with whole | ⟨other, threw⟩
    · exact .inl whole
    · refine .inr ⟨other, ?_⟩
      have apart : other ≠ call := by
        rintro rfl
        rw [outside] at threw
        cases threw
      simp only [goto_start, if_neg apart]
      exact threw
  · intro other
    simp only [goto_start]
    split
    · rename_i same
      rw [same]
      exact iff_of_true rfl rfl
    · rename_i apart
      rw [unlocked other]
      refine iff_of_false Bool.false_ne_true ?_
      intro same
      exact apart (Owner.start.inj (Option.some.inj same)).symm
  · intro j
    have idle : (s.thread j).pc ≠ .scanning := by
      rw [ne_eq, inv.scan j, free]
      exact (nomatch ·)
    exact iff_of_false idle (nomatch ·)

/-- A call outside its loop moves on with the stage as it is. -/
theorem Inv.along (inv : s.Inv root m_threadCount tid stage) (held : (s.start call).locked = true)
    (out : Stage.at? call (s.start call) = none) (pc : StartPc) (out' : Stage.at? call pc = none)
    (ended : ∃ k, stage = .after k) :
    Inv root m_threadCount tid { s.goto call pc with
      m_mutex := if pc.locked then some (.start call) else none } stage := by
  refine inv.move held rfl rfl (fun _ => id) ?_ (inv.caller held) (fun _ _ => ended) inv.stopping
    inv.sized inv.ids inv.born inv.unborn inv.within inv.turning ?_
  · rw [out', if_neg (inv.outside out)]
  · intro k after
    rcases inv.ended k after with whole | ⟨other, threw⟩
    · exact .inl whole
    · refine .inr ⟨other, ?_⟩
      have apart : other ≠ call := by
        rintro rfl
        rw [threw] at held
        cases held
      simp only [goto_start, if_neg apart]
      exact threw

theorem Inv.first (inv : s.Inv root m_threadCount tid .before) (entered : s.start call = .entered) :
    ∃ stage', Inv root m_threadCount tid { s.goto call (turn m_threadCount 0) with
      m_stopping := false
      m_threads := m_threadCount } stage' := by
  have held : (s.start call).locked = true := by
    rw [entered]
    rfl
  have owner := (inv.start call).mp held
  unfold turn
  split
  · rename_i some_thread
    refine ⟨.create call 0, inv.move held rfl owner (fun _ => id) (if_pos rfl).symm ?_
      (inv.none_gone rfl rfl fun _ => (nomatch ·)) rfl rfl inv.ids inv.born inv.unborn
      (Nat.zero_le _) ?_ (fun _ => (nomatch ·))⟩
    · intro other same
      exact (Option.some.inj same).symm
    · intro _ i same
      cases same
      exact some_thread
  · rename_i no_thread
    refine ⟨.after 0, inv.move held rfl owner (fun _ => id) rfl (fun _ => (nomatch ·))
      (fun _ _ => ⟨0, rfl⟩) rfl rfl inv.ids inv.born inv.unborn (Nat.zero_le _)
      (fun _ _ => (nomatch ·)) ?_⟩
    intro k same
    cases same
    exact .inl (Nat.eq_zero_of_not_pos no_thread).symm

theorem Inv.create (inv : s.Inv root m_threadCount tid (.create call i))
    (here : s.start call = .create i) :
    Inv root m_threadCount tid
      ((s.setThread i { s.thread i with pc := .naming }).goto call (.wait i)) (.wait call i) := by
  have held : (s.start call).locked = true := by
    rw [here]
    rfl
  obtain ⟨fresh, uncalled⟩ := inv.unborn i (Nat.le_refl i)
  refine inv.move held rfl ((inv.start call).mp held) ?_ (if_pos rfl).symm ?_
    (inv.none_gone rfl rfl fun _ => (nomatch ·)) inv.stopping inv.sized inv.ids ?_ ?_
    (inv.turning call i rfl) (fun _ _ => (nomatch ·)) (fun _ => (nomatch ·))
  · intro j scans
    simp only [goto, setThread_thread] at scans
    split at scans
    · cases scans
    · exact scans
  · intro other same
    exact (Option.some.inj same).symm
  · intro j inside
    simp only [goto, setThread_thread]
    split
    · rename_i same
      subst same
      have awaited : decide (Stage.awaited (.wait call j) = some j) = true := decide_eq_true rfl
      rw [awaited, fresh]
      exact ⟨(nomatch ·), rfl, (nomatch ·), uncalled, rfl, (nomatch ·)⟩
    · rename_i other
      have before : j < i := Nat.lt_of_le_of_ne (Nat.le_of_lt_succ inside) other
      have unawaited : decide (Stage.awaited (.wait call i) = some j) = false :=
        decide_eq_false fun same => other (Option.some.inj same).symm
      rw [unawaited]
      exact inv.born j before
  · intro j outside
    have later : i < j := outside
    simp only [goto, setThread_thread, if_neg (Nat.ne_of_gt later)]
    exact inv.unborn j (Nat.le_of_lt later)

/-- `pthread_create` fails. -/
theorem Inv.fail (inv : s.Inv root m_threadCount tid (.create call i))
    (here : s.start call = .create i) :
    Inv root m_threadCount tid { s.goto call .threw with m_mutex := none } (.after i) := by
  have held : (s.start call).locked = true := by
    rw [here]
    rfl
  refine inv.move held rfl rfl (fun _ => id) rfl (fun _ => (nomatch ·)) (fun _ _ => ⟨i, rfl⟩)
    inv.stopping inv.sized inv.ids
    inv.born inv.unborn inv.within (fun _ _ => (nomatch ·)) ?_
  intro k same
  exact .inr ⟨call, by simp only [goto_start, if_true]⟩

theorem Inv.wait (inv : s.Inv root m_threadCount tid (.wait call i)) (here : s.start call = .wait i)
    (posted : 0 < (s.thread i).semphore) :
    Inv root m_threadCount tid ((s.setThread i { s.thread i with
      semphore := (s.thread i).semphore - 1 }).goto call (.record i)) (.record call i) := by
  have held : (s.start call).locked = true := by
    rw [here]
    rfl
  have fits := inv.born i (Nat.lt_succ_self i)
  have notified : (s.thread i).pc.notified = true := by
    by_contra early
    rw [fits.semphore, Bool.eq_false_iff.mpr early] at posted
    cases posted
  refine inv.move held rfl ((inv.start call).mp held) ?_ (if_pos rfl).symm ?_
    (inv.none_gone rfl rfl fun _ => (nomatch ·)) inv.stopping inv.sized inv.ids ?_ ?_ inv.within
    (fun _ _ => (nomatch ·)) (fun _ => (nomatch ·))
  · intro j scans
    simp only [goto, setThread_thread] at scans
    split at scans
    · rename_i same
      rw [same]
      exact scans
    · exact scans
  · intro other same
    exact (Option.some.inj same).symm
  · intro j inside
    simp only [goto, setThread_thread]
    split
    · rename_i same
      subst same
      obtain ⟨born, id, cb, calls, semphore, -⟩ := fits
      refine ⟨born, id, cb, calls, ?_, fun _ => notified⟩
      have one : (s.thread j).semphore = 1 := by
        rw [semphore, notified]
        exact if_pos (decide_eq_true rfl)
      rw [one, notified]
      rfl
    · rename_i other
      have unawaited : decide (Stage.awaited (.wait call i) = some j) = false :=
        decide_eq_false fun same => other (Option.some.inj same).symm
      have fits := inv.born j inside
      rw [unawaited] at fits
      exact fits
  · intro j outside
    have later : i < j := outside
    simp only [goto, setThread_thread, if_neg (Nat.ne_of_gt later)]
    exact inv.unborn j outside

theorem Inv.record (inv : s.Inv root m_threadCount tid (.record call i))
    (here : s.start call = .record i) :
    ∃ stage', Inv root m_threadCount tid { s.goto call (turn m_threadCount (i + 1)) with
      m_threadIds := s.m_threadIds ++ [(s.thread i).m_id] } stage' := by
  have held : (s.start call).locked = true := by
    rw [here]
    rfl
  have owner := (inv.start call).mp held
  have fits := inv.born i (Nat.lt_succ_self i)
  have identified : ∀ pc : ThreadPc, pc.notified = true → pc.identified = true := by
    intro pc notified
    cases pc <;> first | rfl | cases notified
  have id : (s.thread i).m_id = some (tid i) := by
    rw [fits.id, identified _ (fits.waited rfl)]
    rfl
  have ids : s.m_threadIds ++ [(s.thread i).m_id] = stored root tid (i + 1) := by
    rw [stored_succ, inv.ids, id]
    rfl
  unfold turn
  split
  · rename_i more
    refine ⟨.create call (i + 1), inv.move held rfl owner (fun _ scans => scans)
      (if_pos rfl).symm ?_ (inv.none_gone rfl rfl fun _ => (nomatch ·)) inv.stopping inv.sized
      ids inv.born inv.unborn inv.within ?_ (fun _ => (nomatch ·))⟩
    · intro other same
      exact (Option.some.inj same).symm
    · intro _ j same
      cases same
      exact more
  · rename_i last
    refine ⟨.after (i + 1), inv.move held rfl owner (fun _ scans => scans) rfl
      (fun _ => (nomatch ·)) (fun _ _ => ⟨i + 1, rfl⟩) inv.stopping inv.sized ids inv.born
      inv.unborn inv.within (fun _ _ => (nomatch ·)) ?_⟩
    intro k same
    cases same
    exact .inl (Nat.le_antisymm inv.within (Nat.le_of_not_lt last))

theorem Inv.step (inv : s.Inv root m_threadCount tid stage) {act : StartAct} {out : Unit}
    (taken : step m_threadCount tid s act = some (out, t)) :
    ∃ stage', t.Inv root m_threadCount tid stage' := by
  obtain ⟨t', done, same⟩ := Option.map_eq_some_iff.mp taken
  cases same
  cases act <;> simp only [exec] at done
  case lock call =>
      split at done
      · rename_i free
        cases done
        exact ⟨stage, inv.lock free.1 free.2⟩
      · cases done
  case check call =>
      split at done
      · rename_i entered
        have held : (s.start call).locked = true := by
          rw [entered]
          rfl
        split at done
        · cases done
          rename_i going
          have out : Stage.at? call (s.start call) = none := by
            rw [entered]
            rfl
          have started : stage.started = true := by
            rw [inv.stopping, Bool.not_not] at going
            exact going
          have moved : Inv root m_threadCount tid { s.goto call .leaving with
              m_mutex := some (.start call) } stage :=
            inv.along held out .leaving rfl (inv.over held out started)
          refine ⟨stage, ?_⟩
          rw [← (inv.start call).mp held] at moved
          exact moved
        · rename_i stopping
          split at done
          · cases done
            have fresh : stage = .before := by
              have stops := inv.stopping
              rw [Bool.not_eq_true, Bool.not_eq_false'] at stopping
              rw [stopping] at stops
              cases stage <;> first | rfl | cases stops
            subst fresh
            exact inv.first entered
          · cases done
      · cases done
  case create call created =>
      split at done
      · rename_i i here
        obtain rfl := inv.stage_of call (by rw [here]; rfl)
        split at done
        · cases done
          exact ⟨_, inv.create here⟩
        · cases done
          exact ⟨_, inv.fail here⟩
      · cases done
  case wait call =>
      split at done
      · rename_i i here
        obtain rfl := inv.stage_of call (by rw [here]; rfl)
        split at done
        · rename_i posted
          cases done
          exact ⟨_, inv.wait here posted⟩
        · cases done
      · cases done
  case record call =>
      split at done
      · rename_i i here
        obtain rfl := inv.stage_of call (by rw [here]; rfl)
        cases done
        exact inv.record here
      · cases done
  case unlock call =>
      split at done
      · rename_i leaving
        cases done
        have held : (s.start call).locked = true := by
          rw [leaving]
          rfl
        exact ⟨stage, inv.along held (by rw [leaving]; rfl) .returned rfl
          (inv.gone call (by rw [leaving]; rfl))⟩
      · cases done
  case thread i => exact ⟨stage, inv.runThread done⟩
  case scan i =>
      split at done
      · rename_i free
        cases done
        refine ⟨stage, inv.scan_move (by rw [free.1]; rfl) rfl ?_ (iff_of_true rfl rfl)
          (fun call => (nomatch ·)) ?_⟩
        · intro call
          rw [← Bool.not_eq_true, inv.start call, free.2]
          exact (nomatch ·)
        · intro j apart
          refine ⟨?_, fun same => apart (Owner.worker.inj (Option.some.inj same)).symm⟩
          rw [ne_eq, inv.scan j, free.2]
          exact (nomatch ·)
      · cases done
  case scanned i =>
      split at done
      · rename_i scans
        cases done
        have owner := (inv.scan i).mp scans
        refine ⟨stage, inv.scan_move (by rw [scans]; rfl) rfl ?_ (iff_of_false (nomatch ·)
          (nomatch ·)) (fun call => (nomatch ·)) ?_⟩
        · intro call
          rw [← Bool.not_eq_true, inv.start call, owner]
          exact (nomatch ·)
        · intro j apart
          refine ⟨?_, (nomatch ·)⟩
          rw [ne_eq, inv.scan j, owner]
          exact fun same => apart (Owner.worker.inj (Option.some.inj same)).symm
      · cases done
  case other caller =>
      split at done
      · rename_i free
        cases done
        refine ⟨stage, inv.mutex ?_ ?_ (fun _ => (nomatch ·)) (fun _ => (nomatch ·))⟩
        · rw [free]
          exact fun _ => (nomatch ·)
        · rw [free]
          exact fun _ => (nomatch ·)
      · cases done
  case otherDone caller =>
      split at done
      · rename_i owned
        cases done
        refine ⟨stage, inv.mutex ?_ ?_ (fun _ => (nomatch ·)) (fun _ => (nomatch ·))⟩
        · rw [owned]
          exact fun _ => (nomatch ·)
        · rw [owned]
          exact fun _ => (nomatch ·)
      · cases done

/-! ### The call that has the mutex can always finish -/

/-- How many accesses the thread has left up to its `notify`. -/
def left : ThreadPc → Nat
  | .naming => 4
  | .identifying => 3
  | .taking => 2
  | .notifying => 1
  | .unborn | .running | .scanning => 0

theorem runThread_left {k : Nat} (more : left (s.thread i).pc = k + 1) :
    ∃ t, s.runThread tid i = some t ∧ t.start = s.start ∧ left (t.thread i).pc = k := by
  cases at_pc : (s.thread i).pc <;> rw [at_pc] at more <;> cases more <;>
    simp only [Starting.runThread, at_pc, Option.some.injEq, exists_eq_left', setThread_thread,
      if_true, left] <;>
    exact ⟨rfl, trivial⟩

theorem reachable_of_exec (act : StartAct) {u : Starting}
    (taken : s.exec m_threadCount tid act = some t)
    (later : Transition.Reachable (Starting.step m_threadCount tid) t u) :
    Transition.Reachable (Starting.step m_threadCount tid) s u :=
  later.head (congrArg (Option.map ((), ·)) taken)

/-- The new thread comes to its `notify` without any other one. -/
theorem Inv.notifies (inv : s.Inv root m_threadCount tid (.wait call i)) :
    ∃ t, Transition.Reachable (Starting.step m_threadCount tid) s t ∧
      t.Inv root m_threadCount tid (.wait call i) ∧ t.start = s.start ∧
      0 < (t.thread i).semphore := by
  generalize remaining : left (s.thread i).pc = k
  induction k generalizing s with
  | zero =>
      have fits := inv.born i (Nat.lt_succ_self i)
      refine ⟨s, .refl _ _, inv, rfl, ?_⟩
      have notified : (s.thread i).pc.notified = true := by
        cases at_pc : (s.thread i).pc <;> rw [at_pc] at remaining <;>
          first
          | rfl
          | exact absurd at_pc fits.born
          | cases remaining
      have awaited : decide (Stage.awaited (.wait call i) = some i) = true := decide_eq_true rfl
      rw [fits.semphore, notified, awaited]
      exact Nat.one_pos
  | succ k ih =>
      obtain ⟨t, taken, same, fewer⟩ := runThread_left remaining
      obtain ⟨u, reached, later, start, posted⟩ := ih (inv.runThread taken) fewer
      have act : s.exec m_threadCount tid (.thread i) = some t := taken
      exact ⟨u, reachable_of_exec _ act reached, later, start.trans same, posted⟩

/-- How far a call that has the mutex is from its end. -/
def rank (m_threadCount : Nat) : StartPc → Nat
  | .entered => 3 * m_threadCount + 2
  | .create i => 3 * (m_threadCount - i) + 1
  | .wait i => 3 * (m_threadCount - i)
  | .record i => 3 * (m_threadCount - i) - 1
  | .outside | .leaving | .returned | .threw => 0

theorem turn_spec (m_threadCount i : Nat) :
    (turn m_threadCount i).locked = true ∧
      rank m_threadCount (turn m_threadCount i) ≤ 3 * (m_threadCount - i) + 1 := by
  unfold turn
  split
  · exact ⟨rfl, Nat.le_refl _⟩
  · exact ⟨rfl, Nat.zero_le _⟩

/-- It comes nearer, without any other one but the thread that it waits for. -/
theorem Inv.nearer (inv : s.Inv root m_threadCount tid stage) (held : (s.start call).locked = true)
    (going : s.start call ≠ .leaving) :
    ∃ t stage', Transition.Reachable (Starting.step m_threadCount tid) s t ∧
      t.Inv root m_threadCount tid stage' ∧ (t.start call).locked = true ∧
      rank m_threadCount (t.start call) < rank m_threadCount (s.start call) := by
  have one {act : StartAct} {t : Starting} (taken : s.exec m_threadCount tid act = some t)
      (locked : (t.start call).locked = true)
      (less : rank m_threadCount (t.start call) < rank m_threadCount (s.start call)) :
      ∃ t stage', Transition.Reachable (Starting.step m_threadCount tid) s t ∧
        t.Inv root m_threadCount tid stage' ∧ (t.start call).locked = true ∧
        rank m_threadCount (t.start call) < rank m_threadCount (s.start call) := by
    have done : Starting.step m_threadCount tid s act = some ((), t) :=
      congrArg (Option.map ((), ·)) taken
    obtain ⟨stage', after⟩ := inv.step done
    exact ⟨t, stage', reachable_of_exec act taken (.refl _ _), after, locked, less⟩
  cases at_pc : s.start call with
  | outside | returned | threw =>
      rw [at_pc] at held
      cases held
  | leaving => exact absurd at_pc going
  | entered =>
      by_cases stopping : s.m_stopping = true
      · have fresh : s.m_threads = 0 := by
          have stops := inv.stopping
          rw [stopping, eq_comm, Bool.not_eq_true'] at stops
          rw [inv.sized, stops]
          rfl
        obtain ⟨locked, near⟩ := turn_spec m_threadCount 0
        have taken : s.exec m_threadCount tid (.check call) =
            some { s.goto call (turn m_threadCount 0) with
              m_stopping := false
              m_threads := m_threadCount } := by
          simp only [exec, at_pc, stopping, fresh, if_true, Bool.not_true, Bool.false_eq_true,
            if_false]
        rw [at_pc] at one
        refine one taken ?_ ?_
        · simp only [goto_start, if_true, locked]
        · simp only [goto_start, if_true]
          exact Nat.lt_of_le_of_lt near (Nat.lt_succ_self _)
      · have taken : s.exec m_threadCount tid (.check call) = some (s.goto call .leaving) := by
          simp only [exec, at_pc, Bool.eq_false_iff.mpr stopping, if_true, Bool.not_false]
        rw [at_pc] at one
        refine one taken ?_ ?_
        · simp only [goto_start, if_true]
          rfl
        · simp only [goto_start, if_true, rank]
          omega
  | create i =>
      have stage_eq := inv.stage_of call (by rw [at_pc]; rfl)
      have less := inv.turning call i stage_eq
      have taken : s.exec m_threadCount tid (.create call true) =
          some ((s.setThread i { s.thread i with pc := .naming }).goto call (.wait i)) := by
        simp only [exec, at_pc, if_true]
      rw [at_pc] at one
      refine one taken ?_ ?_
      · simp only [goto_start, if_true]
        rfl
      · simp only [goto_start, if_true, rank]
        omega
  | wait i =>
      obtain rfl := inv.stage_of call (by rw [at_pc]; rfl)
      have less : i < m_threadCount := inv.within
      obtain ⟨u, reached, later, same, posted⟩ := inv.notifies
      have there : u.start call = .wait i := by
        rw [same]
        exact at_pc
      refine ⟨_, _, reached.trans (reachable_of_exec (.wait call) ?_ (.refl _ _)),
        later.wait there posted, ?_, ?_⟩
      · simp only [exec, there, posted, if_true]
      · simp only [goto_start, if_true]
        rfl
      · simp only [goto_start, if_true, rank]
        omega
  | record i =>
      obtain rfl := inv.stage_of call (by rw [at_pc]; rfl)
      have less : i < m_threadCount := inv.within
      obtain ⟨locked, near⟩ := turn_spec m_threadCount (i + 1)
      have taken : s.exec m_threadCount tid (.record call) =
          some { s.goto call (turn m_threadCount (i + 1)) with
            m_threadIds := s.m_threadIds ++ [(s.thread i).m_id] } := by
        simp only [exec, at_pc]
      rw [at_pc] at one
      refine one taken ?_ ?_
      · simp only [goto_start, if_true, locked]
      · have nearer : 3 * (m_threadCount - (i + 1)) + 1 < rank m_threadCount (.record i) := by
          simp only [rank]
          omega
        simp only [goto_start, if_true]
        exact Nat.lt_of_le_of_lt near nearer

theorem Inv.finishes (inv : s.Inv root m_threadCount tid stage)
    (held : (s.start call).locked = true) :
    ∃ t, Transition.Reachable (Starting.step m_threadCount tid) s t ∧
      t.start call = .returned := by
  generalize distance : rank m_threadCount (s.start call) = k
  induction k using Nat.strongRecOn generalizing s stage with
  | ind k ih =>
      by_cases last : s.start call = .leaving
      · refine ⟨{ s.goto call .returned with m_mutex := none },
          reachable_of_exec (.unlock call) ?_ (.refl _ _), ?_⟩
        · simp only [exec, last, if_true]
        · simp only [goto_start, if_true]
      · obtain ⟨t, stage', reached, later, locked, less⟩ := inv.nearer held last
        rw [distance] at less
        obtain ⟨u, rest, ended⟩ := ih _ less later locked rfl
        exact ⟨u, reached.trans rest, ended⟩

/-! ### Whole runs -/

/-- A thread is in the queue, or a call has returned, only after the last turn of the loop. -/
theorem Inv.over_of (inv : s.Inv root m_threadCount tid stage) (call : Nat)
    (seen : s.start call = .returned ∨ (s.thread i).pc = .scanning) : ∃ k, stage = .after k := by
  rcases seen with returned | scans
  · exact inv.gone call (by rw [returned]; rfl)
  · have owner := (inv.scan i).mp scans
    have idle : stage.call? = none := by
      cases inside : stage.call? with
      | none => rfl
      | some call =>
          have here := inv.loop call
          rw [inside, if_pos rfl] at here
          have held : (s.start call).locked = true := by
            cases at_pc : s.start call <;> rw [at_pc] at here <;> first | rfl | cases here
          have other := ((inv.start call).mp held).symm.trans owner
          cases other
    cases stage with
    | before =>
        have fresh := (inv.unborn i (Nat.zero_le i)).1
        rw [fresh] at scans
        cases scans
    | create | wait | record => cases idle
    | after k => exact ⟨k, rfl⟩

/-- However the calls of `start`, the new threads and others come in between each other: the ids
that are stored are those of the first threads, in their order; a thread comes to the queue only
when the start has stored all ids that it will, its own with them, and it has called its callback
once and keeps nothing in its object; a call that has returned has found the start at its end; and
a call that has the mutex can always go on to its end. -/
theorem run_handshake {acts : List StartAct} {outs : List Unit}
    (taken : Transition.run (step m_threadCount tid) (boot root) acts = some (outs, s)) :
    (∃ k ≤ m_threadCount, s.m_threadIds = stored root tid k) ∧
    (∀ i, (s.thread i).pc = .scanning →
      some (tid i) ∈ s.m_threadIds ∧ s.calls i = 1 ∧ (s.thread i).m_cb = false) ∧
    (∀ call i, s.start call = .returned ∨ (s.thread i).pc = .scanning →
      s.m_threadIds = stored root tid m_threadCount ∨ ∃ call, s.start call = .threw) ∧
    (∀ i, s.calls i ≤ 1) ∧
    (∀ call, (s.start call).locked = true →
      ∃ t, Transition.Reachable (step m_threadCount tid) s t ∧ t.start call = .returned) := by
  have keep (s : Starting) (act : StartAct) (out : Unit) (t : Starting)
      (known : ∃ stage, s.Inv root m_threadCount tid stage)
      (done : step m_threadCount tid s act = some (out, t)) :
      ∃ stage, t.Inv root m_threadCount tid stage := by
    obtain ⟨stage, inv⟩ := known
    exact inv.step done
  obtain ⟨stage, inv⟩ := Transition.Reachable.invariant keep ⟨.before, boot_inv⟩
    ⟨acts, outs, taken⟩
  have few : stage.recorded ≤ m_threadCount := by
    have within := inv.within
    cases stage <;> simp only [Stage.recorded, Stage.born] at within ⊢ <;> omega
  refine ⟨⟨stage.recorded, few, inv.ids⟩, ?_, ?_, ?_, fun call => inv.finishes⟩
  · intro i scans
    obtain ⟨k, rfl⟩ := inv.over_of 0 (.inr scans)
    have old : i < k := by
      by_contra new
      rw [(inv.unborn i (Nat.le_of_not_lt new)).1] at scans
      cases scans
    have fits := inv.born i old
    refine ⟨?_, ?_, fits.cb (by rw [scans]; rfl)⟩
    · rw [inv.ids]
      exact List.mem_append_right _ (List.mem_map.mpr ⟨i, List.mem_range.mpr old, rfl⟩)
    · rw [fits.calls, scans]
      rfl
  · intro call i seen
    obtain ⟨k, rfl⟩ := inv.over_of call seen
    refine (inv.ended k rfl).imp_left fun all => ?_
    rw [inv.ids, ← all]
    rfl
  · intro i
    by_cases old : i < stage.born
    · rw [(inv.born i old).calls]
      split <;> decide
    · rw [(inv.unborn i (Nat.le_of_not_lt old)).2]
      exact Nat.zero_le 1

/-- Two threads and a second call of `start`; the first thread waits for the mutex until the call
that made it returns. -/
def twice : List StartAct :=
  [.lock 0, .check 0, .create 0 true, .thread 0, .thread 0, .thread 0, .thread 0, .wait 0,
    .record 0, .create 0 true, .thread 1, .thread 1, .thread 1, .thread 1, .wait 0, .record 0,
    .unlock 0, .scan 0, .scanned 0, .lock 1, .check 1, .unlock 1, .scan 0]

theorem run_handshake_twice :
    ∃ outs s, Transition.run (step 2 (10 + ·)) (boot (some 7)) twice = some (outs, s) ∧
      s.m_threadIds = [some 7, some 10, some 11] ∧
      (some 10 ∈ s.m_threadIds ∧ s.calls 0 = 1 ∧ (s.thread 0).m_cb = false) := by
  have shown : (Transition.run (step 2 (10 + ·)) (boot (some 7)) twice).map
      (fun p => (p.2.m_threadIds, (p.2.thread 0).pc)) =
      some ([some 7, some 10, some 11], .scanning) := by
    rfl
  obtain ⟨⟨outs, s⟩, taken, seen⟩ := Option.map_eq_some_iff.mp shown
  simp only [Prod.mk.injEq] at seen
  exact ⟨outs, s, taken, seen.1, (run_handshake taken).2.1 0 seen.2⟩

end Starting

end CorReactor
