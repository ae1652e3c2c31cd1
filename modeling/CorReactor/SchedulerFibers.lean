import CorReactor.SchedulerQueue

set_option autoImplicit false

/-! Where no worker takes a fiber that another worker still has, the fibers are mutually
exclusive. -/

namespace CorReactor

variable {γ : Type}

/-- The worker's `cb_fiber`, except where `requeue` is about to drop it. -/
def Worker.pool? (worker : Worker γ) : Option FiberId :=
  match worker.pc with
  | .requeue _ .pooled => none
  | _ => worker.cb_fiber

/-- The worker is busy with the fiber, or keeps it for its callbacks. -/
def Worker.Holds (worker : Worker γ) (f : FiberId) : Prop :=
  worker.pc.held? = some f ∨ worker.pool? = some f

theorem Worker.cb_fiber_of_pool? {worker : Worker γ} {f : FiberId}
    (pool : worker.pool? = some f) : worker.cb_fiber = some f := by
  unfold pool? at pool
  split at pool
  · cases pool
  · exact pool

theorem Worker.pool?_of_cb_fiber {worker : Worker γ} {f : FiberId}
    (pushed : ∀ g, worker.pc ≠ .requeue g .pooled) (pooled : worker.cb_fiber = some f) :
    worker.pool? = some f := by
  unfold pool?
  split
  · rename_i g at_pc
    exact absurd at_pc (pushed g)
  · exact pooled

namespace Scheduler

/-- The fiber has terminated and no worker will reuse it. -/
def Spent (s : Scheduler γ) (f : FiberId) : Prop :=
  (s.fiber f).alive = false ∧ ∀ v, (s.worker v).pool? ≠ some f

/-- No other worker has the fiber, or nobody will run it again. -/
def Free (s : Scheduler γ) (w : WorkerId) (f : FiberId) : Prop :=
  ∀ v, v ≠ w → (s.worker v).Holds f → s.Spent f

/-- Where a worker scans the queue, the first task that it may run is no fiber, or one
that is free. -/
def Alone (s : Scheduler γ) : Act γ → Prop
  | .run w => (s.worker w).pc = .scan →
      ∀ ft f, s.m_fibers.find? (s.mayRun w) = some ft → ft.fiber = some f → s.Free w f
  | _ => True

/-- No fiber is executed twice, resumed before its context is saved, or set to HOLD while
it is executed elsewhere or after its end. -/
structure Exclusive (s : Scheduler γ) : Prop where
  once : ∀ w v f, (s.worker w).pc.running? = some f → (s.worker v).pc.running? = some f → w = v
  saved : ∀ w f kind, (s.worker w).pc = .resume f kind → (s.fiber f).m_ctx ≠ .live
  hold : ∀ w f kind, (s.worker w).pc = .hold f kind →
    (s.fiber f).alive = true ∧ ∀ v, v ≠ w → (s.worker v).pc.running? ≠ some f

structure Sound (s : Scheduler γ) : Prop where
  created : s.Created
  sole : ∀ w v f, w ≠ v → (s.worker w).Holds f → (s.worker v).Holds f → s.Spent f
  pooled : ∀ w f, (s.worker w).pc.pooled? = some f → (s.worker w).cb_fiber = some f
  needs : ∀ w f, (s.worker w).pc.needs? = some f → (s.fiber f).alive = true
  once : ∀ w v f, (s.worker w).pc.running? = some f → (s.worker v).pc.running? = some f → w = v
  runner : ∀ f, (s.fiber f).m_ctx = .live → ∃ w, (s.worker w).pc.running? = some f

theorem init_sound : ({} : Scheduler γ).Sound := by
  have idle (w : WorkerId) (f : FiberId) : ¬ (({} : Scheduler γ).worker w).Holds f := by
    rintro (held | pool)
    · cases held
    · cases pool
  refine ⟨init_created, ?_, ?_, ?_, ?_, ?_⟩
  · intro w v f _ held
    exact absurd held (idle w f)
  · intro w f pooled
    cases pooled
  · intro w f needs
    cases needs
  · intro w v f running
    cases running
  · intro f live
    cases live

theorem Sound.free {s : Scheduler γ} (sound : s.Sound) {w : WorkerId} {f : FiberId}
    (holds : (s.worker w).Holds f) : s.Free w f :=
  fun v other held => sound.sole v w f other held holds

/-- A fiber that is alive or reusable has one holder. -/
theorem Sound.alone {s : Scheduler γ} (sound : s.Sound) {w : WorkerId} {f : FiberId}
    (holds : (s.worker w).Holds f)
    (usable : (s.fiber f).alive = true ∨ (s.worker w).pool? = some f) :
    ∀ v, v ≠ w → ¬ (s.worker v).Holds f := by
  intro v other held
  have spent := sound.free holds v other held
  rcases usable with alive | pool
  · rw [spent.1] at alive
    cases alive
  · exact spent.2 w pool

theorem Sound.exclusive {s : Scheduler γ} (sound : s.Sound) : s.Exclusive := by
  refine ⟨sound.once, ?_, ?_⟩
  · intro w f kind at_pc live
    obtain ⟨v, running⟩ := sound.runner f live
    have needs : (s.worker w).pc.needs? = some f := by rw [at_pc]; rfl
    have holds : (s.worker w).Holds f := .inl (Pc.held?_of_needs? needs)
    by_cases same : v = w
    · rw [same, at_pc] at running
      cases running
    · exact sound.alone holds (.inl (sound.needs w f needs)) v same
        (.inl (Pc.held?_of_running? running))
  · intro w f kind at_pc
    have needs : (s.worker w).pc.needs? = some f := by rw [at_pc]; rfl
    have holds : (s.worker w).Holds f := .inl (Pc.held?_of_needs? needs)
    have alive := sound.needs w f needs
    refine ⟨alive, ?_⟩
    intro v other running
    exact sound.alone holds (.inl alive) v other (.inl (Pc.held?_of_running? running))

/-- Worker `w` works on fiber `f`; everyone and everything else stays. -/
structure Work (s next : Scheduler γ) (w : WorkerId) (f : FiberId) : Prop where
  workers : ∀ v, v ≠ w → next.worker v = s.worker v
  fibers : ∀ g, g ≠ f → next.fiber g = s.fiber g
  named : ∀ g, (next.worker w).pc.held? = some g → s.Free w g
  pool : ∀ g, (next.worker w).pool? = some g →
    (s.worker w).pool? = some g ∨ ∀ v, v ≠ w → ¬ (s.worker v).Holds g
  pooled : ∀ g, (next.worker w).pc.pooled? = some g → (next.worker w).cb_fiber = some g
  needs : ∀ g, (next.worker w).pc.needs? = some g → (next.fiber g).alive = true
  owned : (next.fiber f).alive = (s.fiber f).alive ∨ ∀ v, v ≠ w → ¬ (s.worker v).Holds f
  running : ∀ g, (next.worker w).pc.running? = some g →
    (s.worker w).pc.running? = some g ∨ ∀ v, v ≠ w → ¬ (s.worker v).Holds g
  runs : ∀ g, (s.worker w).pc.running? = some g →
    (next.worker w).pc.running? = some g ∨ (next.fiber g).m_ctx ≠ .live
  live : (next.fiber f).m_ctx = .live →
    (next.worker w).pc.running? = some f ∨ (s.fiber f).m_ctx = .live

namespace Work

variable {s next : Scheduler γ} {w : WorkerId} {f : FiberId}

/-- A fiber that another worker has is as alive as before. -/
theorem alive_eq (work : Work s next w f) {v : WorkerId} {g : FiberId} (other : v ≠ w)
    (held : (s.worker v).Holds g) : (next.fiber g).alive = (s.fiber g).alive := by
  by_cases same : g = f
  · subst same
    rcases work.owned with kept | alone
    · exact kept
    · exact absurd held (alone v other)
  · rw [work.fibers g same]

theorem spent (work : Work s next w f) {v : WorkerId} {g : FiberId} (other : v ≠ w)
    (held : (s.worker v).Holds g) (spent : s.Spent g) : next.Spent g := by
  refine ⟨?_, ?_⟩
  · rw [work.alive_eq other held]
    exact spent.1
  · intro u pool
    by_cases same : u = w
    · subst same
      rcases work.pool g pool with old | alone
      · exact spent.2 u old
      · exact alone v other held
    · rw [work.workers u same] at pool
      exact spent.2 u pool

/-- What the worker has after the step was free before. -/
theorem free (work : Work s next w f) (sound : s.Sound) {g : FiberId}
    (holds : (next.worker w).Holds g) : s.Free w g := by
  rcases holds with held | pool
  · exact work.named g held
  · rcases work.pool g pool with old | alone
    · exact sound.free (.inr old)
    · exact fun v other held => absurd held (alone v other)

theorem sole (work : Work s next w f) (sound : s.Sound) {a b : WorkerId} {g : FiberId}
    (differ : a ≠ b) (first : (next.worker a).Holds g) (second : (next.worker b).Holds g) :
    next.Spent g := by
  by_cases at_a : a = w
  · subst at_a
    have other : b ≠ a := Ne.symm differ
    rw [work.workers b other] at second
    exact work.spent other second (work.free sound first b other second)
  · rw [work.workers a at_a] at first
    apply work.spent at_a first
    by_cases at_b : b = w
    · subst at_b
      exact work.free sound second a at_a first
    · rw [work.workers b at_b] at second
      exact sound.sole a b g differ first second

theorem once (work : Work s next w f) (sound : s.Sound) {v : WorkerId} {g : FiberId}
    (mine : (next.worker w).pc.running? = some g) (other : v ≠ w) :
    (next.worker v).pc.running? ≠ some g := by
  intro theirs
  rw [work.workers v other] at theirs
  rcases work.running g mine with before | alone
  · exact other (sound.once v w g theirs before)
  · exact alone v other (.inl (Pc.held?_of_running? theirs))

theorem runner (work : Work s next w f) (sound : s.Sound) {g : FiberId}
    (live : (next.fiber g).m_ctx = .live) : ∃ v, (next.worker v).pc.running? = some g := by
  have kept (before : (s.fiber g).m_ctx = .live) :
      ∃ v, (next.worker v).pc.running? = some g := by
    obtain ⟨v, running⟩ := sound.runner g before
    by_cases same : v = w
    · subst same
      rcases work.runs g running with still | saved
      · exact ⟨v, still⟩
      · exact absurd live saved
    · refine ⟨v, ?_⟩
      rw [work.workers v same]
      exact running
  by_cases same : g = f
  · subst same
    rcases work.live live with mine | before
    · exact ⟨w, mine⟩
    · exact kept before
  · apply kept
    rw [← work.fibers g same]
    exact live

theorem sound (work : Work s next w f) (sound : s.Sound) (created : next.Created) :
    next.Sound := by
  refine ⟨created, fun a b g => work.sole sound, ?_, ?_, ?_, fun g => work.runner sound⟩
  · intro v g pooled
    by_cases same : v = w
    · subst same
      exact work.pooled g pooled
    · rw [work.workers v same] at pooled ⊢
      exact sound.pooled v g pooled
  · intro v g needs
    by_cases same : v = w
    · subst same
      exact work.needs g needs
    · rw [work.workers v same] at needs
      rw [work.alive_eq same (.inl (Pc.held?_of_needs? needs))]
      exact sound.needs v g needs
  · intro a b g first second
    by_cases at_a : a = w
    · subst at_a
      by_contra differ
      exact work.once sound first (Ne.symm differ) second
    · by_cases at_b : b = w
      · subst at_b
        exact absurd first (work.once sound second at_a)
      · rw [work.workers a at_a] at first
        rw [work.workers b at_b] at second
        exact sound.once a b g first second

end Work

theorem Created.unheld {s : Scheduler γ} (created : s.Created) (v : WorkerId) :
    ¬ (s.worker v).Holds s.count := by
  rintro (held | pool)
  · exact Nat.lt_irrefl _ (created.named v _ (Pc.fiber?_of_held? held))
  · exact Nat.lt_irrefl _ (created.pooled v _ (Worker.cb_fiber_of_pool? pool))

/-- No worker and no fiber changes, except one that is not known yet. -/
theorem Work.idle {s next : Scheduler γ} (sound : s.Sound) (workers : next.worker = s.worker)
    (fibers : ∀ g, g ≠ s.count → next.fiber g = s.fiber g)
    (fresh : (next.fiber s.count).m_ctx ≠ .live ∨ next.fiber s.count = s.fiber s.count) :
    Work s next 0 s.count := by
  have unknown := sound.created.unheld
  refine ⟨?_, fibers, ?_, ?_, ?_, ?_, ?_, ?_, ?_, ?_⟩
  · intro v _
    rw [workers]
  · intro g held
    rw [workers] at held
    exact sound.free (.inl held)
  · intro g pool
    rw [workers] at pool
    exact .inl pool
  · intro g pooled
    rw [workers] at pooled ⊢
    exact sound.pooled 0 g pooled
  · intro g needs
    rw [workers] at needs
    rw [fibers g ?_]
    · exact sound.needs 0 g needs
    · rintro rfl
      exact unknown 0 (.inl (Pc.held?_of_needs? needs))
  · exact .inr fun v _ => unknown v
  · intro g running
    rw [workers] at running
    exact .inl running
  · intro g running
    rw [workers]
    exact .inl running
  · intro live
    rcases fresh with clear | same
    · exact absurd live clear
    · rw [same] at live
      exact .inr live

/-- A worker moves on and leaves the fibers as they are. -/
theorem Work.move {s next : Scheduler γ} {w : WorkerId} {worker : Worker γ}
    (moved : next.worker = Function.update s.worker w worker) (fibers : next.fiber = s.fiber)
    (named : ∀ g, worker.pc.held? = some g → s.Free w g)
    (pool : ∀ g, worker.pool? = some g → (s.worker w).pool? = some g)
    (pooled : ∀ g, worker.pc.pooled? = some g → worker.cb_fiber = some g)
    (needs : ∀ g, worker.pc.needs? = some g → (s.fiber g).alive = true)
    (still : (s.worker w).pc.running? = none) (still' : worker.pc.running? = none) :
    Work s next w 0 := by
  have at_w : next.worker w = worker := by rw [moved, Function.update_self]
  rw [← at_w] at named pool pooled needs still'
  refine ⟨?_, ?_, named, fun g member => .inl (pool g member), pooled, ?_, ?_, ?_, ?_, ?_⟩
  · intro v other
    rw [moved, Function.update_of_ne other]
  · intro g _
    rw [fibers]
  · intro g member
    rw [fibers]
    exact needs g member
  · rw [fibers]
    exact .inl rfl
  · intro g running
    rw [still'] at running
    cases running
  · intro g running
    rw [still] at running
    cases running
  · intro live
    rw [fibers] at live
    exact .inr live

/-- A worker changes a fiber it has and goes on with no other. -/
theorem Work.fiber {s : Scheduler γ} {w : WorkerId} {f : FiberId} {pc : Pc γ}
    {cb_fiber : Option FiberId} {fiber : Fiber γ} (sound : s.Sound)
    (holds : (s.worker w).Holds f) (pushed : ∀ g kind, (s.worker w).pc ≠ .requeue g kind)
    (named : ∀ g, pc.fiber? = some g → g = f)
    (pool : ∀ g, cb_fiber = some g → (s.worker w).cb_fiber = some g)
    (pooled : pc.pooled? = some f → cb_fiber = some f)
    (needs : pc.needs? = some f → fiber.alive = true)
    (owned : fiber.alive = (s.fiber f).alive ∨ ∀ v, v ≠ w → ¬ (s.worker v).Holds f)
    (running : pc.running? = some f →
      (s.worker w).pc.running? = some f ∨ ∀ v, v ≠ w → ¬ (s.worker v).Holds f)
    (runs : ∀ g, (s.worker w).pc.running? = some g →
      g = f ∧ (pc.running? = some f ∨ fiber.m_ctx ≠ .live))
    (live : fiber.m_ctx = .live → pc.running? = some f ∨ (s.fiber f).m_ctx = .live) :
    Work s ((s.setFiber f fiber).setWorker w { s.worker w with pc := pc, cb_fiber := cb_fiber })
      w f := by
  have at_w : ((s.setFiber f fiber).setWorker w
      { s.worker w with pc := pc, cb_fiber := cb_fiber }).worker w =
      { s.worker w with pc := pc, cb_fiber := cb_fiber } := Function.update_self ..
  have at_f : ((s.setFiber f fiber).setWorker w
      { s.worker w with pc := pc, cb_fiber := cb_fiber }).fiber f = fiber :=
    Function.update_self ..
  refine ⟨?_, ?_, ?_, ?_, ?_, ?_, ?_, ?_, ?_, ?_⟩
  · exact fun v other => Function.update_of_ne other ..
  · exact fun g other => Function.update_of_ne other ..
  · intro g held
    rw [at_w] at held
    rw [named g (Pc.fiber?_of_held? held)]
    exact sound.free holds
  · intro g kept
    rw [at_w] at kept
    have before := pool g (Worker.cb_fiber_of_pool? kept)
    exact .inl (Worker.pool?_of_cb_fiber (fun g => pushed g .pooled) before)
  · intro g member
    rw [at_w] at member ⊢
    have same := named g (Pc.fiber?_of_pooled? member)
    subst same
    exact pooled member
  · intro g member
    rw [at_w] at member
    have same := named g (Pc.fiber?_of_held? (Pc.held?_of_needs? member))
    subst same
    rw [at_f]
    exact needs member
  · rw [at_f]
    exact owned
  · intro g member
    rw [at_w] at member
    have same := named g (Pc.fiber?_of_held? (Pc.held?_of_running? member))
    subst same
    exact running member
  · intro g member
    obtain ⟨rfl, kept⟩ := runs g member
    rw [at_w, at_f]
    exact kept
  · rw [at_w, at_f]
    exact live

theorem reset_spec {fiber fiber' : Fiber γ} {cb : Option γ} (reset : fiber.reset cb = some fiber') :
    fiber'.m_ctx = .entry ∧ fiber'.alive = true := by
  unfold Fiber.reset at reset
  split at reset
  · cases reset
    exact ⟨rfl, rfl⟩
  · cases reset

theorem swapIn_spec {fiber fiber' : Fiber γ} (resumed : fiber.swapIn = some fiber') :
    fiber'.alive = true := by
  unfold Fiber.swapIn at resumed
  split at resumed
  · cases resumed
  · split at resumed
    · cases resumed
    · cases resumed
      rfl

section

variable {s : Scheduler γ} {w : WorkerId} {f : FiberId} {kind : Kind}

theorem Sound.holds_at {pc : Pc γ} (at_pc : (s.worker w).pc = pc) (held : pc.held? = some f) :
    (s.worker w).Holds f := by
  left
  rw [at_pc]
  exact held

/-- The one worker that takes a fiber to be alive has it for itself. -/
theorem Sound.alone_at (sound : s.Sound) {pc : Pc γ} (at_pc : (s.worker w).pc = pc)
    (needs : pc.needs? = some f) : ∀ v, v ≠ w → ¬ (s.worker v).Holds f := by
  have alive : (s.fiber f).alive = true := by
    apply sound.needs w f
    rw [at_pc]
    exact needs
  exact sound.alone (Sound.holds_at at_pc (Pc.held?_of_needs? needs)) (.inl alive)

theorem Sound.pooled_at (sound : s.Sound) {pc : Pc γ} (at_pc : (s.worker w).pc = pc)
    (pooled : pc.pooled? = some f) : (s.worker w).cb_fiber = some f := by
  apply sound.pooled w f
  rw [at_pc]
  exact pooled

/-- Away from `requeue`, a worker that keeps or drops its `cb_fiber` gains none. -/
theorem pool?_of_kept {worker : Worker γ} {pc : Pc γ} {g : FiberId}
    (pool : worker.pool? = some g) (at_pc : (s.worker w).pc = pc)
    (pushed : ∀ g, pc ≠ .requeue g .pooled)
    (kept : ∀ g, worker.cb_fiber = some g → (s.worker w).cb_fiber = some g) :
    (s.worker w).pool? = some g := by
  apply Worker.pool?_of_cb_fiber
  · rw [at_pc]
    exact pushed
  · exact kept g (Worker.cb_fiber_of_pool? pool)

theorem Work.scan (alone : s.Alone (.run w)) {pc : Pc γ} {active : UInt64}
    (at_pc : (s.worker w).pc = .scan)
    (next : pc = .tickle (s.scan w s.m_fibers).2.1 ∨ pc = .dispatch (s.scan w s.m_fibers).2.1) :
    Work s
      { s.setWorker w { s.worker w with pc := pc, scannedAt := s.written } with
        m_fibers := (s.scan w s.m_fibers).2.2
        m_activateThreadCount := active } w 0 := by
  refine .move rfl rfl ?_ ?_ ?_ ?_ ?_ ?_
  · intro f held
    cases found : (s.scan w s.m_fibers).2.1 with
    | none =>
        rw [found] at next
        rcases next with rfl | rfl <;> cases held
    | some ft =>
        rw [found] at next
        have of_fiber : ft.fiber = some f := by
          rcases next with rfl | rfl <;> exact held
        rw [scan_task] at found
        exact alone at_pc ft f found of_fiber
  · intro f pool
    exact pool?_of_kept pool at_pc (fun g same => by cases same) (fun g => id)
  · intro f pooled
    rcases next with rfl | rfl <;> cases pooled
  · intro f needs
    rcases next with rfl | rfl <;> cases needs
  · rw [at_pc]
    rfl
  · rcases next with rfl | rfl <;> rfl

theorem Work.write (sound : s.Sound) {ft : Option (ScheduleTask γ)}
    (at_pc : (s.worker w).pc = .tickleWrite ft) :
    Work s { s.goto w (.dispatch ft) with written := s.written + 1 } w 0 := by
  refine .move rfl rfl ?_ ?_ ?_ ?_ ?_ rfl
  · intro f held
    apply sound.free
    apply Sound.holds_at at_pc
    cases ft with
    | none => cases held
    | some ft => exact held
  · intro f pool
    exact pool?_of_kept pool at_pc (fun g same => by cases same) (fun g => id)
  · intro f pooled
    cases pooled
  · intro f needs
    cases needs
  · rw [at_pc]
    rfl

theorem Work.swapIn (sound : s.Sound) {fiber : Fiber γ}
    (at_pc : (s.worker w).pc = .resume f kind) (resumed : (s.fiber f).swapIn = some fiber) :
    Work s ((s.setFiber f fiber).goto w (.exec f kind)) w f := by
  have only := sound.alone_at at_pc rfl
  refine .fiber sound (Sound.holds_at at_pc rfl) ?_ ?_ (fun _ => id) ?_ ?_ (.inr only) ?_ ?_ ?_
  · intro g k same
    rw [at_pc] at same
    cases same
  · intro g named
    cases named
    rfl
  · intro pooled
    apply sound.pooled_at at_pc
    cases kind <;> exact pooled
  · exact fun _ => swapIn_spec resumed
  · exact fun _ => .inr only
  · intro g running
    rw [at_pc] at running
    cases running
  · exact fun _ => .inl rfl

theorem Work.suspend (sound : s.Sound) {fiber : Fiber γ}
    (at_pc : (s.worker w).pc = .exec f kind) :
    Work s ((s.setFiber f fiber).goto w (.swapOut f kind)) w f := by
  have only := sound.alone_at at_pc rfl
  refine .fiber sound (Sound.holds_at at_pc rfl) ?_ ?_ (fun _ => id) ?_ ?_ (.inr only) ?_ ?_ ?_
  · intro g k same
    rw [at_pc] at same
    cases same
  · intro g named
    cases named
    rfl
  · intro pooled
    apply sound.pooled_at at_pc
    cases kind <;> exact pooled
  · intro needs
    cases needs
  · exact fun _ => .inr only
  · intro g running
    rw [at_pc] at running
    cases running
    exact ⟨rfl, .inl rfl⟩
  · exact fun _ => .inl rfl

theorem Work.saved (sound : s.Sound) (at_pc : (s.worker w).pc = .swapOut f kind) :
    Work s ((s.setFiber f (s.fiber f).swapOut).goto w (.leave f kind)) w f := by
  refine .fiber sound (Sound.holds_at at_pc rfl) ?_ ?_ (fun _ => id) ?_ ?_ (.inl rfl) ?_ ?_ ?_
  · intro g k same
    rw [at_pc] at same
    cases same
  · intro g named
    cases named
    rfl
  · intro pooled
    apply sound.pooled_at at_pc
    cases kind <;> exact pooled
  · intro needs
    cases needs
  · intro running
    cases running
  · intro g running
    rw [at_pc] at running
    cases running
    exact ⟨rfl, .inr Fiber.Context.noConfusion⟩
  · intro live
    cases live

/-- The worker is through with the fiber it has for itself. -/
theorem Work.scanNext (sound : s.Sound) {fiber : Fiber γ} {cb_fiber : Option FiberId}
    (holds : (s.worker w).Holds f) (pushed : ∀ g kind, (s.worker w).pc ≠ .requeue g kind)
    (pool : ∀ g, cb_fiber = some g → (s.worker w).cb_fiber = some g)
    (only : ∀ v, v ≠ w → ¬ (s.worker v).Holds f) (still : (s.worker w).pc.running? = none)
    (live : fiber.m_ctx = .live → (s.fiber f).m_ctx = .live) :
    Work s ((s.setFiber f fiber).setWorker w { s.worker w with pc := .scan, cb_fiber := cb_fiber })
      w f := by
  refine .fiber sound holds pushed ?_ pool ?_ ?_ (.inr only) ?_ ?_ ?_
  · intro g named
    cases named
  · intro pooled
    cases pooled
  · intro needs
    cases needs
  · intro running
    cases running
  · intro g running
    rw [still] at running
    cases running
  · exact fun saved => .inr (live saved)

theorem Work.hold (sound : s.Sound) (at_pc : (s.worker w).pc = .hold f kind) :
    Work s (((s.setFiber f ((s.fiber f).setState .HOLD)).dropPooled w kind).goto w .scan) w f := by
  rw [dropPooled_goto]
  refine .scanNext sound (Sound.holds_at at_pc rfl) ?_ (fun g => keptPool_some)
    (sound.alone_at at_pc rfl) ?_ id
  · intro g k same
    rw [at_pc] at same
    cases same
  · rw [at_pc]
    rfl

theorem Work.recycle (sound : s.Sound) {fiber : Fiber γ} (at_pc : (s.worker w).pc = .recycle f)
    (reset : (s.fiber f).reset none = some fiber) :
    Work s ((s.setFiber f fiber).goto w .scan) w f := by
  have pushed : ∀ g kind, (s.worker w).pc ≠ .requeue g kind := by
    intro g kind same
    rw [at_pc] at same
    cases same
  have pool : (s.worker w).pool? = some f :=
    Worker.pool?_of_cb_fiber (fun g => pushed g .pooled) (sound.pooled_at at_pc rfl)
  have only := sound.alone (.inr pool) (.inr pool)
  refine .scanNext sound (.inr pool) pushed (fun _ => id) only ?_ ?_
  · rw [at_pc]
    rfl
  · intro live
    rw [(reset_spec reset).1] at live
    cases live

theorem Work.reuse (sound : s.Sound) {ft : ScheduleTask γ} {cb : γ} {fiber : Fiber γ}
    (at_pc : (s.worker w).pc = .dispatch (some ft)) (pooled : (s.worker w).cb_fiber = some f)
    (reset : (s.fiber f).reset (some cb) = some fiber) :
    Work s ((s.setFiber f fiber).goto w (.resume f .pooled)) w f := by
  have pushed : ∀ g kind, (s.worker w).pc ≠ .requeue g kind := by
    intro g kind same
    rw [at_pc] at same
    cases same
  have pool := Worker.pool?_of_cb_fiber (fun g => pushed g .pooled) pooled
  have only := sound.alone (.inr pool) (.inr pool)
  refine .fiber sound (.inr pool) pushed ?_ (fun _ => id) ?_ ?_ (.inr only) ?_ ?_ ?_
  · intro g named
    cases named
    rfl
  · exact fun _ => pooled
  · exact fun _ => (reset_spec reset).2
  · intro running
    cases running
  · intro g running
    rw [at_pc] at running
    cases running
  · intro live
    rw [(reset_spec reset).1] at live
    cases live

theorem Work.fresh (sound : s.Sound) {ft : ScheduleTask γ} {cb : γ}
    (at_pc : (s.worker w).pc = .dispatch (some ft)) :
    Work s
      ((s.newFiber cb).setWorker w
        { s.worker w with pc := .resume s.count .pooled, cb_fiber := some s.count }) w s.count := by
  have unknown := sound.created.unheld
  refine ⟨?_, ?_, ?_, ?_, ?_, ?_, .inr fun v _ => unknown v, ?_, ?_, ?_⟩
  · exact fun v other => Function.update_of_ne other ..
  · exact fun g other => Function.update_of_ne other ..
  all_goals simp only [setWorker_worker, if_true]
  · intro g held
    cases held
    exact fun v _ held => absurd held (unknown v)
  · intro g pool
    cases Worker.cb_fiber_of_pool? pool
    exact .inr fun v _ => unknown v
  · exact fun g => id
  · intro g needs
    cases needs
    simp only [setWorker, Scheduler.newFiber, setFiber_fiber, if_true]
    rfl
  · intro g running
    cases running
  · intro g running
    rw [at_pc] at running
    cases running
  · intro live
    simp only [setWorker, Scheduler.newFiber, setFiber_fiber, if_true] at live
    cases live

theorem Work.requeue (at_pc : (s.worker w).pc = .requeue f kind) :
    Work s (((s.schedule (ScheduleTask.of (some (.fiber f)) none)).dropPooled w kind).goto w .scan)
      w 0 := by
  rw [dropPooled_goto, schedule_eq]
  refine .move rfl rfl ?_ ?_ ?_ ?_ ?_ rfl
  · intro g held
    cases held
  · intro g pool
    cases kind with
    | task => exact pool?_of_kept pool at_pc (fun g same => by cases same) (fun g => id)
    | pooled =>
        -- the fiber is in the queue and no longer the worker's
        have kept := Worker.cb_fiber_of_pool? pool
        cases kept
  · intro g pooled
    cases pooled
  · intro g needs
    cases needs
  · rw [at_pc]
    rfl

end

theorem Rule.work {s next : Scheduler γ} {act : Act γ} (rule : Rule s act next)
    (sound : s.Sound) (alone : s.Alone act) : ∃ w f, Work s next w f := by
  have idle {next : Scheduler γ} (workers : next.worker = s.worker)
      (fibers : next.fiber = s.fiber) : ∃ w f, Work s next w f := by
    refine ⟨0, s.count, .idle sound workers ?_ (.inr ?_)⟩
    · intro g _
      rw [fibers]
    · rw [fibers]
  cases rule with
  | newFiber cb =>
      refine ⟨0, s.count, .idle sound rfl ?_ (.inl ?_)⟩
      · exact fun g other => Function.update_of_ne other ..
      · simp only [Scheduler.newFiber, setFiber_fiber, if_true]
        exact Fiber.Context.noConfusion
  | schedule known =>
      rw [schedule_eq]
      exact idle rfl rfl
  | @scheduleRange fcs known =>
      obtain ⟨calls, -, -, shape⟩ := s.scheduleRange_eq (fcs.map (ScheduleTask.of · none))
      rw [shape]
      exact idle rfl rfl
  | rangeQuiet => exact idle rfl rfl
  | rangeDue => exact idle rfl rfl
  | rangeWrite => exact idle rfl rfl
  | tickle => exact idle rfl rfl
  | tickleWrite => exact idle rfl rfl
  | stop => exact idle rfl rfl
  | scan at_pc next => exact ⟨_, _, .scan alone at_pc next⟩
  | @move _ w pc' term active idle moves =>
      refine ⟨w, 0, .move rfl rfl ?_ ?_ ?_ moves.needs moves.still moves.still'⟩
      · intro f held
        exact sound.free (.inl (moves.named f (Pc.fiber?_of_held? held)))
      · intro f pool
        exact pool?_of_kept pool rfl (fun g => moves.pushed g .pooled) (fun g => id)
      · intro f pooled
        exact sound.pooled w f (moves.pooled f pooled)
  | write at_pc => exact ⟨_, _, .write sound at_pc⟩
  | swapIn at_pc resumed => exact ⟨_, _, .swapIn sound at_pc resumed⟩
  | suspend at_pc => exact ⟨_, _, .suspend sound at_pc⟩
  | saved at_pc => exact ⟨_, _, .saved sound at_pc⟩
  | hold at_pc => exact ⟨_, _, .hold sound at_pc⟩
  | recycle at_pc reset => exact ⟨_, _, .recycle sound at_pc reset⟩
  | reuse at_pc pooled reset => exact ⟨_, _, .reuse sound at_pc pooled reset⟩
  | fresh at_pc => exact ⟨_, _, .fresh sound at_pc⟩
  | requeue at_pc => exact ⟨_, _, .requeue at_pc⟩

/-- A guarded step keeps the invariant. -/
theorem step_sound {s next : Scheduler γ} {act : Act γ} {obs : Obs γ} (sound : s.Sound)
    (alone : s.Alone act) (taken : s.step act = some (obs, next)) : next.Sound := by
  have rule := step_rule taken
  obtain ⟨w, f, work⟩ := rule.work sound alone
  exact work.sound sound (rule.created sound.created)

/-- Fiber mutual exclusion, in every run in which workers take free fibers only. -/
theorem run_exclusive {acts : List (Act γ)} {obs : List (Obs γ)} {s : Scheduler γ}
    (along : Transition.Along step Alone {} acts)
    (taken : Transition.run step {} acts = some (obs, s)) : s.Exclusive := by
  have sound : s.Sound :=
    Transition.run_invariant (fun _ _ _ _ sound alone => step_sound sound alone)
      init_sound along taken
  exact sound.exclusive

/-- The fiber is queued again, and taken, after its first worker has let go of it. -/
theorem run_exclusive_handover :
    ∃ obs s, Transition.run step ({} : Scheduler Unit)
        [.newFiber (), .schedule (some (.fiber 0)) none, .run 0, .run 0, .run 0, .yieldToHold 0,
          .run 0, .run 0, .run 0, .run 0, .schedule (some (.fiber 0)) none, .run 1, .run 1, .run 1]
        = some (obs, s) ∧
      (s.worker 1).pc.running? = some 0 ∧ s.Exclusive := by
  have along : Transition.Along step Alone ({} : Scheduler Unit)
      [.newFiber (), .schedule (some (.fiber 0)) none, .run 0, .run 0, .run 0, .yieldToHold 0,
        .run 0, .run 0, .run 0, .run 0, .schedule (some (.fiber 0)) none,
        .run 1, .run 1, .run 1] := by
    refine .cons trivial rfl (.cons trivial rfl (.cons ?_ rfl ?_))
    · intro _ ft f found of_fiber v other held
      cases found
      cases of_fiber
      rcases held with held | pool
      · cases held
      · cases pool
    refine .cons (fun at_pc => ?_) rfl (.cons (fun at_pc => ?_) rfl (.cons trivial rfl ?_))
    · cases at_pc
    · cases at_pc
    refine .cons (fun at_pc => ?_) rfl (.cons (fun at_pc => ?_) rfl ?_)
    · cases at_pc
    · cases at_pc
    refine .cons (fun at_pc => ?_) rfl (.cons (fun at_pc => ?_) rfl ?_)
    · cases at_pc
    · cases at_pc
    refine .cons trivial rfl (.cons ?_ rfl ?_)
    · intro _ ft f found of_fiber v other held
      cases found
      cases of_fiber
      rcases v with _ | v
      · rcases held with held | pool
        · cases held
        · cases pool
      · rcases held with held | pool
        · cases held
        · cases pool
    refine .cons (fun at_pc => ?_) rfl (.cons (fun at_pc => ?_) rfl trivial)
    · cases at_pc
    · cases at_pc
  exact ⟨_, _, rfl, rfl, run_exclusive along rfl⟩

/-- The fiber is queued after `YieldToHold` has written HOLD and before `swapOut` has
saved its context: both workers execute it. -/
theorem yieldToHold_not_exclusive :
    ∃ obs s, Transition.run step ({} : Scheduler Unit)
        [.newFiber (), .schedule (some (.fiber 0)) none, .run 0, .run 0, .run 0, .yieldToHold 0,
          .schedule (some (.fiber 0)) none, .run 1, .run 1, .run 1]
        = some (obs, s) ∧
      (s.worker 0).pc.running? = some 0 ∧ (s.worker 1).pc.running? = some 0 ∧ ¬ s.Exclusive := by
  refine ⟨_, _, rfl, rfl, rfl, ?_⟩
  intro exclusive
  have same : 0 = 1 := exclusive.once 0 1 0 rfl rfl
  cases same

end Scheduler

end CorReactor
