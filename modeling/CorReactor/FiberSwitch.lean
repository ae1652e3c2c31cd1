import CorReactor.Fiber
import CorReactor.Transition
import Mathlib.Logic.Function.Basic

set_option autoImplicit false

/-! The fibers of one thread: which of them a switch saves, and which one `t_fiber` names. -/

namespace CorReactor

/-- A fiber's own stack, or the one that the thread was started with. -/
abbrev Stack := Option FiberId

/-- What `makecontext` was given. -/
inductive EntryFunc
  | MainFunc
  | CallerMainFunc
  deriving DecidableEq

/-- A `ucontext_t`: the start of an entry function, a stack where it was left, or nothing that can
be gone on with: it has been, or its function is at its end. -/
inductive UContext
  | entry (func : EntryFunc)
  | saved (stack : Stack)
  | spent
  deriving DecidableEq

/-- A `Fiber` object; `m_stack` says whether it has a stack and `m_cb` whether it has a callback. -/
structure StackFiber where
  m_state : Fiber.State
  m_stack : Bool
  m_cb : Bool
  m_ctx : UContext
  deriving DecidableEq

/-- A thread with its `thread_local` pointers. `stack` is the one that executes, and `func` is at
the bottom of each fiber's stack. -/
structure FiberThread where
  t_fiber : Option FiberId := none
  t_threadFiber : Option FiberId := none
  t_scheduler_fiber : Option FiberId := none
  fiber : FiberId → Option StackFiber := fun _ => none
  stack : Stack := none
  func : FiberId → EntryFunc := fun _ => .MainFunc

/-- A call on the stack that executes; `fresh` is the object that `GetThis` makes, if it makes
one. -/
inductive FiberOp
  | GetThis (fresh : FiberId)
  | new (f : FiberId) (use_caller : Bool)
  | reset (f : FiberId) (cb : Bool)
  | call (f : FiberId)
  | back (f : FiberId)
  | swapIn (f : FiberId)
  | swapOut (f : FiberId)
  | YieldToReady (fresh : FiberId)
  | YieldToHold (fresh : FiberId)
  /-- The callback returns to its entry function. -/
  | finish
  /-- The constructor of a `Scheduler` whose caller takes part. -/
  | useCaller (fresh root : FiberId)
  /-- The beginning of `Scheduler::run` in a thread of its own. -/
  | run (fresh : FiberId)
  deriving DecidableEq

namespace FiberThread

/-- The stack of a fiber; the main fiber of a thread has none of its own. -/
def stackOf (s : FiberThread) (f : FiberId) : Stack :=
  match s.fiber f with
  | some fiber => if fiber.m_stack then some f else none
  | none => none

def SetThis (s : FiberThread) (f : Option FiberId) : FiberThread := { s with t_fiber := f }

def put (s : FiberThread) (f : FiberId) (fiber : StackFiber) : FiberThread :=
  { s with fiber := Function.update s.fiber f (some fiber) }

/-- A member of an object changes; `none` where there is no object. -/
def modify (s : FiberThread) (f : FiberId) (change : StackFiber → StackFiber) :
    Option FiberThread :=
  (s.fiber f).map fun fiber => s.put f (change fiber)

/-- The constructor without arguments. -/
def construct (s : FiberThread) (f : FiberId) : Option FiberThread :=
  if s.fiber f = none then
    some ((s.SetThis (some f)).put f ⟨.EXEC, false, false, .spent⟩)
  else none

def GetThis (s : FiberThread) (fresh : FiberId) : Option (FiberId × FiberThread) :=
  match s.t_fiber with
  | some f => some (f, s)
  | none => (s.construct fresh).map fun s => (fresh, { s with t_threadFiber := some fresh })

def new (s : FiberThread) (f : FiberId) (use_caller : Bool) : Option FiberThread :=
  if s.fiber f = none then
    some (s.put f ⟨.INIT, true, true, .entry (if use_caller then .CallerMainFunc else .MainFunc)⟩)
  else none

def reset (s : FiberThread) (f : FiberId) (cb : Bool) : Option FiberThread :=
  match s.fiber f with
  | none => none
  | some fiber =>
      if fiber.m_stack = true ∧
          (fiber.m_state = .TERM ∨ fiber.m_state = .INIT ∨ fiber.m_state = .EXCEPT) then
        some (s.put f ⟨.INIT, true, cb, .entry .MainFunc⟩)
      else none

/-- `swapcontext(&from->m_ctx, &to->m_ctx)`. -/
def swapcontext (s : FiberThread) (source target : FiberId) : Option FiberThread :=
  (s.modify source fun fiber => { fiber with m_ctx := .saved s.stack }).bind fun s =>
    match s.fiber target with
    | none => none
    | some fiber =>
        match fiber.m_ctx with
        | .entry func =>
            if fiber.m_cb then
              some { s.put target { fiber with m_ctx := .spent } with
                stack := some target
                func := Function.update s.func target func }
            else none
        | .saved stack => some { s.put target { fiber with m_ctx := .spent } with stack := stack }
        | .spent => none

def setState (s : FiberThread) (f : FiberId) (state : Fiber.State) : Option FiberThread :=
  s.modify f fun fiber => { fiber with m_state := state }

def call (s : FiberThread) (f : FiberId) : Option FiberThread :=
  ((s.SetThis (some f)).setState f .EXEC).bind fun s =>
    s.t_threadFiber.bind fun main => s.swapcontext main f

def back (s : FiberThread) (f : FiberId) : Option FiberThread :=
  s.t_threadFiber.bind fun main => (s.SetThis (some main)).swapcontext f main

def swapIn (s : FiberThread) (f : FiberId) : Option FiberThread :=
  if (s.fiber f).map StackFiber.m_state = some .EXEC then none
  else
    ((s.SetThis (some f)).setState f .EXEC).bind fun s =>
      s.t_scheduler_fiber.bind fun main => s.swapcontext main f

def swapOut (s : FiberThread) (f : FiberId) : Option FiberThread :=
  s.t_scheduler_fiber.bind fun main => (s.SetThis (some main)).swapcontext f main

/-- `YieldToReady` or `YieldToHold`. -/
def yieldTo (s : FiberThread) (fresh : FiberId) (state : Fiber.State) : Option FiberThread :=
  (s.GetThis fresh).bind fun r => (r.2.setState r.1 state).bind fun s => s.swapOut r.1

/-- The end of an entry function, whose `cur` is the fiber of the stack: it was `t_fiber` at the
beginning, where every switch to an entry has left it. -/
def finish (s : FiberThread) : Option FiberThread :=
  s.stack.bind fun cur =>
    (s.modify cur fun fiber => { fiber with m_cb := false, m_state := .TERM }).bind fun s =>
      (match s.func cur with
        | .MainFunc => s.swapOut cur
        | .CallerMainFunc => s.back cur).bind fun t =>
        -- the assertion behind the switch
        if t.stack = some cur then none
        else t.modify cur fun fiber => { fiber with m_ctx := .spent }

/-- A call; `none` where an assertion fails, a null pointer is followed, an empty callback is
called or a context is resumed that is spent. -/
def exec (s : FiberThread) : FiberOp → Option FiberThread
  | .GetThis fresh => (s.GetThis fresh).map Prod.snd
  | .new f use_caller => s.new f use_caller
  | .reset f cb => s.reset f cb
  | .call f => s.call f
  | .back f => s.back f
  | .swapIn f => s.swapIn f
  | .swapOut f => s.swapOut f
  | .YieldToReady fresh => s.yieldTo fresh .READY
  | .YieldToHold fresh => s.yieldTo fresh .HOLD
  | .finish => s.finish
  | .useCaller fresh root =>
      (s.GetThis fresh).bind fun r =>
        (r.2.new root true).map fun s => { s with t_scheduler_fiber := some root }
  | .run fresh => (s.GetThis fresh).map fun r => { r.2 with t_scheduler_fiber := some r.1 }

def step : Transition.Step FiberThread FiberOp Unit :=
  fun s op => (s.exec op).map ((), ·)

/-- `t_fiber` is the fiber that executes, and every context that is saved is that of its own
fiber. -/
structure Coherent (s : FiberThread) : Prop where
  current : ∀ f, s.t_fiber = some f → s.stack = s.stackOf f
  saved : ∀ f fiber stack, s.fiber f = some fiber → fiber.m_ctx = .saved stack →
    stack = s.stackOf f

/-- The switch is called by the fiber that it saves: `swapIn` by the scheduler's fiber, `call` by
the main fiber, `swapOut` and `back` by the fiber itself. -/
def BySaved (s : FiberThread) : FiberOp → Prop
  | .swapIn _ => ∀ main ∈ s.t_scheduler_fiber, s.stack = s.stackOf main
  | .call _ => ∀ main ∈ s.t_threadFiber, s.stack = s.stackOf main
  | .swapOut f | .back f => s.stack = s.stackOf f
  | _ => True

instance (s : FiberThread) : (op : FiberOp) → Decidable (s.BySaved op)
  | .swapIn _ => inferInstanceAs (Decidable (∀ main ∈ s.t_scheduler_fiber, _))
  | .call _ => inferInstanceAs (Decidable (∀ main ∈ s.t_threadFiber, _))
  | .swapOut f | .back f => inferInstanceAs (Decidable (s.stack = s.stackOf f))
  | .GetThis _ | .new _ _ | .reset _ _ | .YieldToReady _ | .YieldToHold _ | .finish
  | .useCaller _ _ | .run _ => .isTrue trivial

/-! ### The objects -/

variable {s t : FiberThread} {f g source target : FiberId} {fiber : StackFiber}

@[simp] theorem put_fiber (s : FiberThread) (f g : FiberId) (fiber : StackFiber) :
    (s.put f fiber).fiber g = if g = f then some fiber else s.fiber g :=
  Function.update_apply ..

theorem stackOf_of_found (found : s.fiber f = some fiber) :
    s.stackOf f = if fiber.m_stack then some f else none := by
  rw [stackOf, found]

/-- A fiber keeps its stack. -/
theorem stackOf_put {old : StackFiber} (found : s.fiber f = some old)
    (same : fiber.m_stack = old.m_stack) (g : FiberId) :
    (s.put f fiber).stackOf g = s.stackOf g := by
  by_cases here : g = f
  · rw [here, stackOf_of_found found, ← same]
    exact stackOf_of_found (by rw [put_fiber, if_pos rfl])
  · simp only [stackOf, put_fiber, if_neg here]

theorem modify_eq_some {change : StackFiber → StackFiber} (changed : s.modify f change = some t) :
    ∃ fiber, s.fiber f = some fiber ∧ t = s.put f (change fiber) := by
  obtain ⟨fiber, found, rfl⟩ := Option.map_eq_some_iff.mp changed
  exact ⟨fiber, found, rfl⟩

/-- A switch: where it goes on, and whose contexts it has changed. -/
structure Switched (s t : FiberThread) (source target : FiberId) : Prop where
  t_fiber : t.t_fiber = s.t_fiber
  t_threadFiber : t.t_threadFiber = s.t_threadFiber
  t_scheduler_fiber : t.t_scheduler_fiber = s.t_scheduler_fiber
  stackOf : ∀ g, t.stackOf g = s.stackOf g
  present : t.fiber target ≠ none
  kept : ∀ g fiber, t.fiber g = some fiber → fiber.m_ctx = .spent ∨
    (g = source ∧ fiber.m_ctx = .saved s.stack) ∨
    ∃ old, s.fiber g = some old ∧ old.m_ctx = fiber.m_ctx ∧ old.m_stack = fiber.m_stack
  resumed : (source = target ∧ t.stack = s.stack) ∨
    source ≠ target ∧ ∃ old, s.fiber target = some old ∧
      (old.m_ctx = .saved t.stack ∨ ((∃ func, old.m_ctx = .entry func) ∧ t.stack = some target))
  stored : source ≠ target → ∃ fiber, t.fiber source = some fiber ∧ fiber.m_ctx = .saved s.stack

/-- The switch puts two objects and goes on with a stack. -/
theorem put_switched {left fiber : StackFiber} {stack : Stack} {func : FiberId → EntryFunc}
    (found : s.fiber source = some left)
    (there : (s.put source { left with m_ctx := .saved s.stack }).fiber target = some fiber)
    (resumed : (source = target ∧ stack = s.stack) ∨
      source ≠ target ∧ ∃ old, s.fiber target = some old ∧
        (old.m_ctx = .saved stack ∨ ((∃ func, old.m_ctx = .entry func) ∧ stack = some target))) :
    Switched s
      { (s.put source { left with m_ctx := .saved s.stack }).put target
          { fiber with m_ctx := .spent } with stack := stack, func := func } source target := by
  have first : ∀ g, (s.put source { left with m_ctx := .saved s.stack }).stackOf g = s.stackOf g :=
    stackOf_put found rfl
  have second : ∀ g, ((s.put source { left with m_ctx := .saved s.stack }).put target
      { fiber with m_ctx := .spent }).stackOf g =
      (s.put source { left with m_ctx := .saved s.stack }).stackOf g := stackOf_put there rfl
  refine ⟨rfl, rfl, rfl, fun g => (second g).trans (first g), ?_, ?_, resumed, ?_⟩
  · simp only [put_fiber, if_true]
    exact Option.some_ne_none _
  · intro g other seen
    simp only [put_fiber] at seen
    split at seen
    · cases seen
      exact .inl rfl
    · split at seen
      · rename_i here
        cases seen
        exact .inr (.inl ⟨here, rfl⟩)
      · exact .inr (.inr ⟨other, seen, rfl, rfl⟩)
  · intro apart
    refine ⟨{ left with m_ctx := .saved s.stack }, ?_, rfl⟩
    simp only [put_fiber, if_neg apart, if_true]

theorem swapcontext_switched (switched : s.swapcontext source target = some t) :
    Switched s t source target := by
  obtain ⟨m, changed, rest⟩ := Option.bind_eq_some_iff.mp switched
  obtain ⟨left, found, rfl⟩ := modify_eq_some changed
  split at rest
  · cases rest
  · rename_i fiber there
    -- the target as it was before the source was saved, where they are two
    have before (apart : source ≠ target) : s.fiber target = some fiber := by
      rw [put_fiber, if_neg (Ne.symm apart)] at there
      exact there
    have itself (same : source = target) : fiber.m_ctx = .saved s.stack := by
      rw [put_fiber, if_pos same.symm] at there
      cases there
      rfl
    split at rest
    · rename_i func at_entry
      split at rest
      · cases rest
        have apart : source ≠ target := by
          intro same
          rw [itself same] at at_entry
          cases at_entry
        exact put_switched found there
          (.inr ⟨apart, fiber, before apart, .inr ⟨⟨func, at_entry⟩, rfl⟩⟩)
      · cases rest
    · rename_i stack at_saved
      cases rest
      refine put_switched found there ?_
      by_cases same : source = target
      · rw [itself same] at at_saved
        cases at_saved
        exact .inl ⟨same, rfl⟩
      · exact .inr ⟨same, fiber, before same, .inl at_saved⟩
    · cases rest

/-! ### One call -/

/-- The contexts that are saved are those of their own fibers. -/
structure Stored (s : FiberThread) : Prop where
  saved : ∀ f fiber stack, s.fiber f = some fiber → fiber.m_ctx = .saved stack →
    stack = s.stackOf f
  entry : ∀ f fiber func, s.fiber f = some fiber → fiber.m_ctx = .entry func →
    fiber.m_stack = true

/-- What holds where every switch is called by the fiber that it saves. -/
structure Inv (s : FiberThread) : Prop where
  stored : s.Stored
  current : ∀ f, s.t_fiber = some f → s.stack = s.stackOf f ∧ s.fiber f ≠ none
  base : s.t_fiber = none → s.stack = none

theorem Inv.coherent (inv : s.Inv) : s.Coherent :=
  ⟨fun f named => (inv.current f named).1, inv.stored.saved⟩

theorem boot_inv : ({} : FiberThread).Inv where
  stored := ⟨fun _ _ _ => (nomatch ·), fun _ _ _ => (nomatch ·)⟩
  current := fun _ => (nomatch ·)
  base := fun _ => rfl

theorem Switched.inv (switched : Switched s t source target) (stored : s.Stored)
    (named : s.t_fiber = some target) (here : s.stack = s.stackOf source) : t.Inv := by
  refine ⟨⟨?_, ?_⟩, ?_, ?_⟩
  · intro g fiber stack seen at_saved
    rw [switched.stackOf]
    rcases switched.kept g fiber seen with spent | ⟨rfl, kept⟩ | ⟨old, before, kept, -⟩
    · rw [spent] at at_saved
      cases at_saved
    · rw [kept] at at_saved
      cases at_saved
      exact here
    · exact stored.saved g old stack before (kept.trans at_saved)
  · intro g fiber func seen at_entry
    rcases switched.kept g fiber seen with spent | ⟨-, kept⟩ | ⟨old, before, kept, stack⟩
    · rw [spent] at at_entry
      cases at_entry
    · rw [kept] at at_entry
      cases at_entry
    · rw [← stack]
      exact stored.entry g old func before (kept.trans at_entry)
  · intro f now
    rw [switched.t_fiber, named] at now
    cases now
    refine ⟨?_, switched.present⟩
    rw [switched.stackOf]
    rcases switched.resumed with
      ⟨rfl, same⟩ | ⟨-, old, before, at_saved | ⟨⟨func, at_entry⟩, own⟩⟩
    · exact same.trans here
    · exact stored.saved target old t.stack before at_saved
    · rw [own, stackOf_of_found before, stored.entry target old func before at_entry, if_pos rfl]
  · intro now
    rw [switched.t_fiber, named] at now
    cases now

/-- A switch that is called by another fiber shows at once. -/
theorem Switched.not_coherent (switched : Switched s t source target)
    (named : s.t_fiber = some target) (apart : s.stack ≠ s.stackOf source) : ¬ t.Coherent := by
  intro coherent
  by_cases same : source = target
  · rcases switched.resumed with ⟨-, stays⟩ | ⟨differ, -⟩
    · have now := coherent.current target (switched.t_fiber.trans named)
      rw [switched.stackOf, stays, ← same] at now
      exact apart now
    · exact differ same
  · obtain ⟨fiber, seen, at_saved⟩ := switched.stored same
    have own := coherent.saved source fiber s.stack seen at_saved
    rw [switched.stackOf] at own
    exact apart own

/-- A change of an object that keeps its stack, and its context or spends that. -/
structure Changed (s t : FiberThread) : Prop where
  t_fiber : t.t_fiber = s.t_fiber
  t_threadFiber : t.t_threadFiber = s.t_threadFiber
  t_scheduler_fiber : t.t_scheduler_fiber = s.t_scheduler_fiber
  stack : t.stack = s.stack
  func : t.func = s.func
  stackOf : ∀ g, t.stackOf g = s.stackOf g
  present : ∀ g, s.fiber g ≠ none → t.fiber g ≠ none
  kept : ∀ g fiber, t.fiber g = some fiber → fiber.m_ctx = .spent ∨
    ∃ old, s.fiber g = some old ∧ old.m_ctx = fiber.m_ctx ∧ old.m_stack = fiber.m_stack

theorem modify_changed {change : StackFiber → StackFiber} (changed : s.modify f change = some t)
    (stack : ∀ fiber, (change fiber).m_stack = fiber.m_stack)
    (ctx : ∀ fiber, (change fiber).m_ctx = fiber.m_ctx ∨ (change fiber).m_ctx = .spent) :
    Changed s t := by
  obtain ⟨old, found, rfl⟩ := modify_eq_some changed
  refine ⟨rfl, rfl, rfl, rfl, rfl, stackOf_put found (stack old), ?_, ?_⟩
  · intro g present
    rw [put_fiber]
    split
    · exact Option.some_ne_none _
    · exact present
  · intro g fiber seen
    rw [put_fiber] at seen
    split at seen
    · rename_i here
      cases seen
      subst here
      exact (ctx old).symm.imp_right fun same => ⟨old, found, same.symm, (stack old).symm⟩
    · exact .inr ⟨fiber, seen, rfl, rfl⟩

theorem setState_changed {state : Fiber.State} (changed : s.setState f state = some t) :
    Changed s t := modify_changed changed (fun _ => rfl) fun _ => .inl rfl

theorem Changed.stored (changed : Changed s t) (stored : s.Stored) : t.Stored := by
  refine ⟨?_, ?_⟩
  · intro g fiber stack seen at_saved
    rw [changed.stackOf]
    rcases changed.kept g fiber seen with spent | ⟨old, before, kept, -⟩
    · rw [spent] at at_saved
      cases at_saved
    · exact stored.saved g old stack before (kept.trans at_saved)
  · intro g fiber func seen at_entry
    rcases changed.kept g fiber seen with spent | ⟨old, before, kept, own⟩
    · rw [spent] at at_entry
      cases at_entry
    · rw [← own]
      exact stored.entry g old func before (kept.trans at_entry)

theorem Changed.inv (changed : Changed s t) (inv : s.Inv) : t.Inv := by
  refine ⟨changed.stored inv.stored, ?_, ?_⟩
  · intro g named
    rw [changed.t_fiber] at named
    rw [changed.stack, changed.stackOf]
    exact ⟨(inv.current g named).1, changed.present g (inv.current g named).2⟩
  · intro named
    rw [changed.t_fiber] at named
    rw [changed.stack]
    exact inv.base named

theorem stored_of_setThis (stored : s.Stored) (f : Option FiberId) : (s.SetThis f).Stored :=
  ⟨stored.saved, stored.entry⟩

/-- What a call that switches does: from which fiber, by whose stack. -/
theorem swapIn_switched (called : s.swapIn f = some t) :
    ∃ main m, s.t_scheduler_fiber = some main ∧ Changed (s.SetThis (some f)) m ∧
      Switched m t main f := by
  unfold swapIn at called
  split at called
  · cases called
  · obtain ⟨m, changed, rest⟩ := Option.bind_eq_some_iff.mp called
    obtain ⟨main, scheduler, switched⟩ := Option.bind_eq_some_iff.mp rest
    have same := setState_changed changed
    rw [same.t_scheduler_fiber] at scheduler
    exact ⟨main, m, scheduler, same, swapcontext_switched switched⟩

theorem call_switched (called : s.call f = some t) :
    ∃ main m, s.t_threadFiber = some main ∧ Changed (s.SetThis (some f)) m ∧
      Switched m t main f := by
  obtain ⟨m, changed, rest⟩ := Option.bind_eq_some_iff.mp called
  obtain ⟨main, thread, switched⟩ := Option.bind_eq_some_iff.mp rest
  have same := setState_changed changed
  rw [same.t_threadFiber] at thread
  exact ⟨main, m, thread, same, swapcontext_switched switched⟩

theorem swapOut_switched (called : s.swapOut f = some t) :
    ∃ main, Switched (s.SetThis (some main)) t f main := by
  obtain ⟨main, -, switched⟩ := Option.bind_eq_some_iff.mp called
  exact ⟨main, swapcontext_switched switched⟩

theorem back_switched (called : s.back f = some t) :
    ∃ main, Switched (s.SetThis (some main)) t f main := by
  obtain ⟨main, -, switched⟩ := Option.bind_eq_some_iff.mp called
  exact ⟨main, swapcontext_switched switched⟩

/-- A switch with `SetThis` and `setState` before it. -/
theorem resume_inv {m : FiberThread} (inv : s.Inv) (changed : Changed (s.SetThis (some target)) m)
    (switched : Switched m t source target) (here : s.stack = s.stackOf source) : t.Inv := by
  refine switched.inv (changed.stored (stored_of_setThis inv.stored _)) changed.t_fiber ?_
  rw [changed.stack, changed.stackOf]
  exact here

theorem resume_not_coherent {m : FiberThread} (changed : Changed (s.SetThis (some target)) m)
    (switched : Switched m t source target) (apart : s.stack ≠ s.stackOf source) :
    ¬ t.Coherent := by
  refine switched.not_coherent changed.t_fiber ?_
  rw [changed.stack, changed.stackOf]
  exact apart

theorem leave_inv (stored : s.Stored)
    (switched : Switched (s.SetThis (some target)) t source target)
    (here : s.stack = s.stackOf source) : t.Inv :=
  switched.inv (stored_of_setThis stored _) rfl here

/-- An object that is new. -/
theorem put_new_inv (inv : s.Inv) (fresh : s.fiber f = none)
    (ctx : ∀ stack, fiber.m_ctx ≠ .saved stack)
    (entry : ∀ func, fiber.m_ctx = .entry func → fiber.m_stack = true) : (s.put f fiber).Inv := by
  have other {g : FiberId} (there : s.fiber g ≠ none) : g ≠ f := by
    rintro rfl
    exact there fresh
  have stackOf {g : FiberId} (apart : g ≠ f) : (s.put f fiber).stackOf g = s.stackOf g := by
    simp only [FiberThread.stackOf, put_fiber, if_neg apart]
  refine ⟨⟨?_, ?_⟩, ?_, inv.base⟩
  · intro g old stack seen at_saved
    rw [put_fiber] at seen
    split at seen
    · cases seen
      exact absurd at_saved (ctx stack)
    · rename_i apart
      rw [stackOf apart]
      exact inv.stored.saved g old stack seen at_saved
  · intro g old func seen at_entry
    rw [put_fiber] at seen
    split at seen
    · cases seen
      exact entry func at_entry
    · exact inv.stored.entry g old func seen at_entry
  · intro g named
    obtain ⟨now, there⟩ := inv.current g named
    rw [stackOf (other there), put_fiber, if_neg (other there)]
    exact ⟨now, there⟩

theorem GetThis_inv (inv : s.Inv) {r : FiberId × FiberThread} (got : s.GetThis f = some r) :
    r.2.Inv ∧ r.2.t_fiber = some r.1 := by
  unfold GetThis at got
  split at got
  · rename_i current named
    cases got
    exact ⟨inv, named⟩
  · rename_i unnamed
    obtain ⟨m, made, rfl⟩ := Option.map_eq_some_iff.mp got
    unfold construct at made
    split at made
    · rename_i fresh
      cases made
      have made : (s.put f ⟨.EXEC, false, false, .spent⟩).Inv :=
        put_new_inv inv fresh (fun _ => (nomatch ·)) (fun _ => (nomatch ·))
      refine ⟨⟨⟨made.stored.saved, made.stored.entry⟩, ?_, (nomatch ·)⟩, rfl⟩
      intro g named
      cases named
      refine ⟨(inv.base unnamed).trans ?_, ?_⟩
      · simp only [stackOf, SetThis, put_fiber, if_true, Bool.false_eq_true, if_false]
      · simp only [SetThis, put_fiber, if_true]
        exact Option.some_ne_none _
    · cases made

theorem new_inv (inv : s.Inv) {use_caller : Bool} (made : s.new f use_caller = some t) :
    t.Inv := by
  unfold new at made
  split at made
  · rename_i fresh
    cases made
    exact put_new_inv inv fresh (fun _ => (nomatch ·)) fun _ _ => rfl
  · cases made

theorem reset_inv (inv : s.Inv) {cb : Bool} (done : s.reset f cb = some t) : t.Inv := by
  unfold reset at done
  split at done
  · cases done
  · rename_i old found
    split at done
    · rename_i allowed
      cases done
      have same : ∀ g, (s.put f ⟨.INIT, true, cb, .entry .MainFunc⟩).stackOf g = s.stackOf g :=
        stackOf_put found allowed.1.symm
      refine ⟨⟨?_, ?_⟩, ?_, inv.base⟩
      · intro g fiber stack seen at_saved
        rw [same]
        rw [put_fiber] at seen
        split at seen
        · cases seen
          cases at_saved
        · exact inv.stored.saved g fiber stack seen at_saved
      · intro g fiber func seen at_entry
        rw [put_fiber] at seen
        split at seen
        · cases seen
          rfl
        · exact inv.stored.entry g fiber func seen at_entry
      · intro g named
        rw [same, put_fiber]
        refine ⟨(inv.current g named).1, ?_⟩
        split
        · exact Option.some_ne_none _
        · exact (inv.current g named).2
    · cases done

theorem yieldTo_inv (inv : s.Inv) {state : Fiber.State} (done : s.yieldTo f state = some t) :
    t.Inv := by
  obtain ⟨r, got, rest⟩ := Option.bind_eq_some_iff.mp done
  obtain ⟨m, changed, out⟩ := Option.bind_eq_some_iff.mp rest
  obtain ⟨kept, named⟩ := GetThis_inv inv got
  have held := (setState_changed changed).inv kept
  obtain ⟨main, switched⟩ := swapOut_switched out
  have now : m.t_fiber = some r.1 := (setState_changed changed).t_fiber.trans named
  exact leave_inv held.stored switched (held.current r.1 now).1

theorem Inv.owner (inv : s.Inv) (executes : s.stack = some f) : s.stack = s.stackOf f := by
  cases named : s.t_fiber with
  | none =>
      rw [inv.base named] at executes
      cases executes
  | some g =>
      have own := (inv.current g named).1
      rw [executes] at own
      have same : f = g := by
        unfold stackOf at own
        split at own
        · split at own
          · exact Option.some.inj own
          · cases own
        · cases own
      rw [executes, own, same]

theorem finish_inv (inv : s.Inv) (done : s.finish = some t) : t.Inv := by
  obtain ⟨cur, executes, rest⟩ := Option.bind_eq_some_iff.mp done
  obtain ⟨m, changed, rest⟩ := Option.bind_eq_some_iff.mp rest
  obtain ⟨u, out, rest⟩ := Option.bind_eq_some_iff.mp rest
  have ended : Changed s m := modify_changed changed (fun _ => rfl) fun _ => .inl rfl
  have here : m.stack = m.stackOf cur := by
    rw [ended.stack, ended.stackOf]
    exact inv.owner executes
  have held := (ended.inv inv).stored
  have left : u.Inv := by
    split at out
    · obtain ⟨main, switched⟩ := swapOut_switched out
      exact leave_inv held switched here
    · obtain ⟨main, switched⟩ := back_switched out
      exact leave_inv held switched here
  split at rest
  · cases rest
  · exact (modify_changed rest (fun _ => rfl) fun _ => .inr rfl).inv left

/-- A call that a fiber makes for itself. -/
theorem Inv.step (inv : s.Inv) {op : FiberOp} {out : Unit} (own : s.BySaved op)
    (done : step s op = some (out, t)) : t.Inv := by
  obtain ⟨u, called, same⟩ := Option.map_eq_some_iff.mp done
  cases same
  cases op with
  | GetThis fresh =>
      obtain ⟨r, got, rfl⟩ := Option.map_eq_some_iff.mp called
      exact (GetThis_inv inv got).1
  | new f use_caller => exact new_inv inv called
  | reset f cb => exact reset_inv inv called
  | call f =>
      obtain ⟨main, m, thread, changed, switched⟩ := call_switched called
      exact resume_inv inv changed switched (own main thread)
  | back f =>
      obtain ⟨main, switched⟩ := back_switched called
      exact leave_inv inv.stored switched own
  | swapIn f =>
      obtain ⟨main, m, scheduler, changed, switched⟩ := swapIn_switched called
      exact resume_inv inv changed switched (own main scheduler)
  | swapOut f =>
      obtain ⟨main, switched⟩ := swapOut_switched called
      exact leave_inv inv.stored switched own
  | YieldToReady fresh | YieldToHold fresh => exact yieldTo_inv inv called
  | finish => exact finish_inv inv called
  | useCaller fresh root =>
      obtain ⟨r, got, rest⟩ := Option.bind_eq_some_iff.mp called
      obtain ⟨m, made, rfl⟩ := Option.map_eq_some_iff.mp rest
      have held := new_inv (GetThis_inv inv got).1 made
      exact ⟨⟨held.stored.saved, held.stored.entry⟩, held.current, held.base⟩
  | run fresh =>
      obtain ⟨r, got, rfl⟩ := Option.map_eq_some_iff.mp called
      have held := (GetThis_inv inv got).1
      exact ⟨⟨held.stored.saved, held.stored.entry⟩, held.current, held.base⟩

theorem not_coherent_of_other {op : FiberOp} {out : Unit} (other : ¬ s.BySaved op)
    (done : step s op = some (out, t)) : ¬ t.Coherent := by
  obtain ⟨u, called, same⟩ := Option.map_eq_some_iff.mp done
  cases same
  cases op with
  | call f =>
      obtain ⟨main, m, thread, changed, switched⟩ := call_switched called
      refine resume_not_coherent changed switched fun here => other ?_
      intro main' again
      rw [thread] at again
      cases again
      exact here
  | swapIn f =>
      obtain ⟨main, m, scheduler, changed, switched⟩ := swapIn_switched called
      refine resume_not_coherent changed switched fun here => other ?_
      intro main' again
      rw [scheduler] at again
      cases again
      exact here
  | back f =>
      obtain ⟨main, switched⟩ := back_switched called
      exact switched.not_coherent rfl other
  | swapOut f =>
      obtain ⟨main, switched⟩ := swapOut_switched called
      exact switched.not_coherent rfl other
  | _ => exact absurd trivial other

/-! ### Whole runs -/

/-- In a run of calls on a thread, whichever stack they are made on, `t_fiber` is all along the
fiber that executes and every saved context that of its own fiber exactly when each switch is
called by the fiber that it saves. -/
theorem run_current_iff {ops : List FiberOp} {outs : List Unit}
    (taken : Transition.run step {} ops = some (outs, s)) :
    Transition.Always step Coherent {} ops ↔ Transition.Along step BySaved {} ops :=
  Transition.always_iff_along (fun _ inv => inv.coherent) (fun _ _ _ _ inv own => inv.step own)
    (fun _ _ _ _ _ other done => not_coherent_of_other other done) boot_inv taken

/-- A caller whose root fiber runs a task, which yields once, in `stop`. -/
def stopped : List FiberOp :=
  [.useCaller 0 1, .new 2 false, .call 1, .swapIn 2, .YieldToHold 9, .swapIn 2, .finish, .finish,
    .GetThis 9]

theorem run_current_stopped :
    ∃ outs s, Transition.run step {} stopped = some (outs, s) ∧ s.stack = none ∧
      s.t_fiber = some 0 ∧ Transition.Always step Coherent {} stopped :=
  ⟨_, _, rfl, rfl, rfl, (run_current_iff rfl).mpr (by decide)⟩

end FiberThread

end CorReactor
