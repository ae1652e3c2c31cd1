import CorReactor.HookIo

set_option autoImplicit false

/-! A call of `do_io` against the reuse of its number. -/

namespace CorReactor

/-- The call may still come to call the function: it is at the label or not yet timed out. -/
def IoCall.mayRetry (call : IoCall) : Bool := call.pc = .retry || !call.cancelled

/-- A call that waited for a descriptor under the number, and may still use the number. -/
def HookCall.waitsOn (fd : Int) : HookCall → Bool
  | .io call => call.fd = fd && call.waiting.isSome && call.mayRetry
  | _ => false

/-- The number that a successful `socket_f` or `accept_f` hands out. -/
def HookOp.handsOut {β : Type} : HookOp β → Option Nat
  | .attempt _ (.accepted fd) => some fd
  | .socket _ _ _ answer => answer
  | _ => none

/-- What holds of a call while the numbers of waiting calls are not handed out. -/
def HookCall.Sound (k : Kernel) : HookCall → Prop
  | .io call =>
      (call.pc = .direct → call.waiting = none) ∧ (call.waiting = none → call.closed = false) ∧
        ∀ d, call.waiting = some d → call.mayRetry = true →
          k.descriptor call.fd = none ∨ (k.descriptor call.fd = some d ∧ call.closed = false)
  | _ => True

namespace HookRun

variable {β : Type} {s t : HookRun β} {op : HookOp β}

/-- After a wait the function is only called on the descriptor waited for, and a call whose
descriptor was closed in between returns -1. -/
structure NoReuse (s : HookRun β) : Prop where
  attempts : ∀ a ∈ s.attempts, ∀ d, a.waiting = some d → a.used = none ∨ a.used = some d
  returns : ∀ r ∈ s.returns, r.closed = true → r.ret = -1

/-- The number of a call that waits is not handed out. -/
def KeepsNumbers (s : HookRun β) (op : HookOp β) : Prop :=
  ∀ fd ∈ op.handsOut, ∀ call ∈ s.calls, call.waitsOn fd = false

instance (s : HookRun β) (op : HookOp β) : Decidable (s.KeepsNumbers op) :=
  inferInstanceAs (Decidable (∀ fd ∈ op.handsOut, ∀ call ∈ s.calls, call.waitsOn fd = false))

structure Inv (s : HookRun β) : Prop where
  noReuse : s.NoReuse
  sound : ∀ call ∈ s.calls, call.Sound s.fds.kernel

theorem boot_inv (fibers : Nat) : (boot β fibers).Inv := by
  refine ⟨⟨?_, ?_⟩, ?_⟩
  · intro a member
    cases member
  · intro r member
    cases member
  · intro call member
    rw [(List.mem_replicate.mp member).2]
    trivial

/-- Sound calls stay so under a kernel with the same descriptors for them. -/
theorem sound_congr {k k' : Kernel} {call : HookCall} (sound : call.Sound k)
    (same : ∀ c : IoCall, call = .io c → call.waitsOn c.fd = true →
      k'.descriptor c.fd = k.descriptor c.fd) : call.Sound k' := by
  cases call with
  | io c =>
      refine ⟨sound.1, sound.2.1, ?_⟩
      intro d waits may
      have waiting : (HookCall.io c).waitsOn c.fd = true := by
        simp only [HookCall.waitsOn, waits, may, decide_true, Option.isSome_some, Bool.and_self]
      rw [same c rfl waiting]
      exact sound.2.2 d waits may
  | running | adopting | closing => trivial

/-- What the invariant is about: the open descriptors, the calls and the two logs. -/
theorem Inv.frame (inv : s.Inv)
    (descriptors : ∀ n, t.fds.kernel.descriptor n = s.fds.kernel.descriptor n)
    (calls : t.calls = s.calls) (attempts : t.attempts = s.attempts)
    (returns : t.returns = s.returns) : t.Inv := by
  refine ⟨⟨?_, ?_⟩, ?_⟩
  · rw [attempts]
    exact inv.noReuse.attempts
  · rw [returns]
    exact inv.noReuse.returns
  · rw [calls]
    intro call member
    exact sound_congr (inv.sound call member) fun c _ _ => descriptors c.fd

theorem Inv.put (inv : s.Inv) {fiber : FiberId} {call : HookCall}
    (sound : call.Sound s.fds.kernel) : (s.put fiber call).Inv := by
  refine ⟨⟨inv.noReuse.attempts, inv.noReuse.returns⟩, ?_⟩
  intro other member
  rcases List.mem_or_eq_of_mem_set member with before | same
  · exact inv.sound other before
  · rw [same]
    exact sound

theorem Inv.leave (inv : s.Inv) {fiber : FiberId} {call : IoCall} {ret : Int}
    (lost : call.closed = true → ret = -1) : (s.leave fiber call ret).Inv := by
  unfold HookRun.leave
  have logged : ({ s with returns := s.returns ++ [IoReturn.mk call.closed ret] } :
      HookRun β).Inv := by
    refine ⟨⟨inv.noReuse.attempts, ?_⟩, inv.sound⟩
    intro r member
    rcases List.mem_append.mp member with before | last
    · exact inv.noReuse.returns r before
    · rw [List.mem_singleton.mp last]
      exact lost
  apply logged.put
  split <;> trivial

/-- A change of the call's place that does not bring it closer to the function. -/
theorem sound_move {k : Kernel} {call call' : IoCall} (sound : (HookCall.io call).Sound k)
    (fd : call'.fd = call.fd) (waiting : call'.waiting = call.waiting)
    (closed : call'.closed = call.closed) (direct : call'.pc = .direct → call.pc = .direct)
    (may : call'.mayRetry = true → call.mayRetry = true) : (HookCall.io call').Sound k := by
  refine ⟨fun at_direct => waiting.trans (sound.1 (direct at_direct)), ?_, ?_⟩
  · intro none_waiting
    rw [closed]
    exact sound.2.1 (waiting.symm.trans none_waiting)
  · intro d waits retries
    rw [fd, closed]
    exact sound.2.2 d (waiting.symm.trans waits) (may retries)

theorem Inv.call (inv : s.Inv) {fiber : FiberId} {call : IoCall}
    (at_fiber : s.calls[fiber]? = some (.io call)) : (HookCall.io call).Sound s.fds.kernel :=
  inv.sound _ (List.mem_of_getElem? at_fiber)

/-- What the function is called on, for a call that is at the label or calls it directly. -/
theorem sound_used {k : Kernel} {call : IoCall} {d d' : Descriptor}
    (sound : (HookCall.io call).Sound k) (at_fn : call.pc = .direct ∨ call.pc = .retry)
    (waits : call.waiting = some d) (used : k.descriptor call.fd = some d') :
    d' = d ∧ call.closed = false := by
  have may : call.mayRetry = true := by
    rcases at_fn with direct | retry
    · rw [sound.1 direct] at waits
      cases waits
    · simp only [IoCall.mayRetry, retry, decide_true, Bool.true_or]
  rcases sound.2.2 d waits may with gone | ⟨still, closed⟩
  · rw [gone] at used
    cases used
  · rw [still] at used
    cases used
    exact ⟨rfl, closed⟩

theorem sound_open {k : Kernel} {call : IoCall} {d : Descriptor}
    (sound : (HookCall.io call).Sound k) (at_fn : call.pc = .direct ∨ call.pc = .retry)
    (used : k.descriptor call.fd = some d) : call.closed = false := by
  cases waits : call.waiting with
  | none => exact sound.2.1 waits
  | some w => exact (sound_used sound at_fn waits used).2

theorem Inv.logged (inv : s.Inv) {call : IoCall} (sound : (HookCall.io call).Sound s.fds.kernel)
    (at_fn : call.pc = .direct ∨ call.pc = .retry) :
    ({ s with attempts := s.attempts ++
      [Attempt.mk call.waiting (s.fds.kernel.descriptor call.fd)] } : HookRun β).Inv := by
  refine ⟨⟨?_, inv.noReuse.returns⟩, inv.sound⟩
  intro a member d waits
  rcases List.mem_append.mp member with before | last
  · exact inv.noReuse.attempts a before d waits
  · rw [List.mem_singleton.mp last] at waits ⊢
    cases used : s.fds.kernel.descriptor call.fd with
    | none => exact Or.inl rfl
    | some d' =>
        obtain ⟨same, -⟩ := sound_used sound at_fn waits used
        exact Or.inr (congrArg some same)

/-- A number that no call waits on is handed out. -/
theorem Inv.created (inv : s.Inv) {fd : Nat} {file : File} {k : Kernel}
    (created : s.fds.kernel.create fd file = some k)
    (unwaited : ∀ call ∈ s.calls, call.waitsOn fd = false) :
    ({ s with fds.kernel := k } : HookRun β).Inv := by
  obtain ⟨-, descriptors⟩ := Kernel.create_descriptor created
  refine ⟨⟨inv.noReuse.attempts, inv.noReuse.returns⟩, ?_⟩
  intro call member
  apply sound_congr (inv.sound call member)
  intro c _ waits
  have other : c.fd ≠ fd := by
    intro here
    have quiet := unwaited call member
    rw [← here, waits] at quiet
    cases quiet
  exact (descriptors c.fd).trans (if_neg other)

theorem Inv.attempt (inv : s.Inv) {fiber : FiberId} {call : IoCall} {answer : Answer}
    (at_fiber : s.calls[fiber]? = some (.io call))
    (at_fn : call.pc = .direct ∨ call.pc = .retry)
    (unwaited : ∀ fd, answer = .accepted fd → ∀ c ∈ s.calls, c.waitsOn fd = false)
    (taken : s.attempt fiber call answer = some t) : t.Inv := by
  have sound := inv.call at_fiber
  have logged := inv.logged sound at_fn
  unfold HookRun.attempt at taken
  cases used : s.fds.kernel.descriptor call.fd with
  | none =>
      rw [used] at logged
      simp only [used, Option.some.injEq] at taken
      rw [← taken]
      exact logged.leave fun _ => rfl
  | some d =>
      have unclosed := sound_open sound at_fn used
      rw [used] at logged
      simp only [used] at taken
      cases answer with
      | done n =>
          dsimp only at taken
          split at taken
          · cases taken
          · cases taken
            apply logged.leave
            intro closed
            rw [unclosed] at closed
            cases closed
      | accepted fd =>
          dsimp only at taken
          split at taken
          · obtain ⟨k, created, same⟩ := Option.map_eq_some_iff.mp taken
            rw [← same]
            apply (logged.created created (unwaited fd rfl)).leave
            intro closed
            rw [unclosed] at closed
            cases closed
          · cases taken
      | error errno =>
          dsimp only at taken
          by_cases direct : call.pc = .direct
          · rw [if_pos direct] at taken
            cases taken
            exact logged.leave fun _ => rfl
          · rw [if_neg direct] at taken
            cases errno with
            | EINTR =>
                cases taken
                exact logged.put sound
            | EAGAIN =>
                cases taken
                apply logged.put
                refine ⟨?_, ?_, ?_⟩
                · intro no
                  cases no
                · intro no
                  cases no
                · intro d' waits _
                  cases waits
                  exact Or.inr ⟨used, unclosed⟩
            | EBADF | EINPROGRESS | ETIMEDOUT | other =>
                cases taken
                exact logged.leave fun _ => rfl

theorem Inv.register (inv : s.Inv) {fiber : FiberId} {call : IoCall} {granted : Bool}
    (at_fiber : s.calls[fiber]? = some (.io call)) (armed : call.pc = .armed)
    (taken : s.register fiber call granted = some t) : t.Inv := by
  unfold HookRun.register at taken
  dsimp only at taken
  split at taken
  · cases taken
  case h_2 rt iom _ =>
    have changed : ({ s with iom := iom } : HookRun β).Inv :=
      inv.frame (fun _ => rfl) rfl rfl rfl
    split at taken
    · cases taken
      exact changed.leave fun _ => rfl
    · cases taken
      apply changed.put
      refine sound_move (inv.call at_fiber) (by rfl) (by rfl) (by rfl) ?_ ?_
      · intro no
        cases no
      · simp only [IoCall.mayRetry, armed]
        exact id

theorem sound_noteClosed {k k' : Kernel} {fd : Int} {d : Descriptor} {call : HookCall}
    (sound : call.Sound k) (gone : k'.descriptor fd = none)
    (others : ∀ n, n ≠ fd → k'.descriptor n = k.descriptor n) :
    (call.noteClosed fd d).Sound k' := by
  cases call with
  | io c =>
      refine ⟨sound.1, ?_, ?_⟩
      · intro none_waiting
        change c.waiting = none at none_waiting
        simp only [none_waiting, sound.2.1 none_waiting, reduceCtorEq, and_false, decide_false,
          Bool.or_self]
      · intro d' waits may
        change c.waiting = some d' at waits
        by_cases here : c.fd = fd
        · exact Or.inl (show k'.descriptor c.fd = none by rw [here, gone])
        · have before := sound.2.2 d' waits may
          rw [← others c.fd here] at before
          simpa only [here, false_and, decide_false, Bool.or_false] using before
  | running | adopting | closing => trivial

theorem Inv.close_f (inv : s.Inv) (fd : Int) : (s.close_f fd).Inv := by
  unfold HookRun.close_f
  cases held : s.fds.kernel.descriptor fd with
  | none => exact inv
  | some d =>
      have low := Kernel.descriptor_low held
      refine ⟨⟨inv.noReuse.attempts, inv.noReuse.returns⟩, ?_⟩
      intro call member
      obtain ⟨before, old, same⟩ := List.mem_map.mp member
      rw [← same]
      have table : ∀ n, (s.fds.close_f fd).2.kernel.descriptor n =
          if n = fd then none else s.fds.kernel.descriptor n := by
        intro n
        simp only [Fds.close_f, Kernel.close_f, held, Kernel.descriptor_without,
          Int.toNat_of_nonneg low]
      apply sound_noteClosed (inv.sound before old)
      · rw [table fd, if_pos rfl]
      · intro n other
        rw [table n, if_neg other]

theorem Inv.closing (inv : s.Inv) {fiber : FiberId} {fd : Int} {pc : ClosePc}
    {iom granted : Bool} (taken : s.closing fiber fd pc iom granted = some t) : t.Inv := by
  unfold HookRun.closing at taken
  cases pc with
  | look =>
      dsimp only at taken
      split at taken
      · cases taken
      · cases taken
        apply inv.put
        trivial
  | cancel =>
      dsimp only at taken
      split at taken
      · split at taken
        · cases taken
        case h_2 deliveries m _ =>
          cases taken
          have changed : ({ s with iom := m, ready := s.ready ++ deliveries } : HookRun β).Inv :=
            inv.frame (fun _ => rfl) rfl rfl rfl
          apply changed.put
          trivial
      · cases taken
        apply inv.put
        trivial
  | forget =>
      dsimp only at taken
      split at taken
      · cases taken
      case h_2 mgr _ =>
        cases taken
        have changed : ({ s with fds.mgr := mgr } : HookRun β).Inv :=
          inv.frame (fun _ => rfl) rfl rfl rfl
        apply changed.put
        trivial
  | close =>
      cases taken
      apply (inv.close_f fd).put
      trivial

theorem socket_f_cases {k k' : Kernel} {type : BitVec 32} {answer : Option Nat} {fd : Int}
    (done : socket_f k type answer = some (fd, k')) :
    k' = k ∨ ∃ n file, answer = some n ∧ k.create n file = some k' := by
  unfold socket_f at done
  cases answer with
  | none =>
      cases done
      exact Or.inl rfl
  | some n =>
      obtain ⟨next, created, same⟩ := Option.map_eq_some_iff.mp done
      cases same
      exact Or.inr ⟨n, _, rfl, created⟩

theorem enter_sound {fds : Fds} {hook_enable : Bool} {fd : Int} {fn : IoFun} {call : IoCall}
    (entered : IoCall.enter fds hook_enable fd fn = .ok (some call)) (k : Kernel) :
    (HookCall.io call).Sound k := by
  have fresh : call.waiting = none ∧ call.closed = false := by
    unfold IoCall.enter at entered
    cases hook_enable with
    | false =>
        cases entered
        exact ⟨rfl, rfl⟩
    | true =>
        simp only [Bool.not_true, Bool.false_eq_true, ↓reduceIte] at entered
        split at entered
        · cases entered
        · cases entered
          exact ⟨rfl, rfl⟩
        · split at entered
          · cases entered
            exact ⟨rfl, rfl⟩
          · split at entered
            · cases entered
            · split at entered <;> cases entered <;> exact ⟨rfl, rfl⟩
  refine ⟨fun _ => fresh.1, fun _ => fresh.2, ?_⟩
  intro d waits
  rw [fresh.1] at waits
  cases waits

/-- One step of a fiber, of a callback or of the event loop. -/
theorem Inv.step (inv : s.Inv) (keeps : s.KeepsNumbers op) (taken : s.exec op = some t) :
    t.Inv := by
  cases op with
  | start fiber hook_enable fd fn =>
      simp only [exec] at taken
      split at taken
      · split at taken
        · cases taken
        · cases taken
          refine ⟨⟨inv.noReuse.attempts, ?_⟩, inv.sound⟩
          intro r member
          rcases List.mem_append.mp member with before | last
          · exact inv.noReuse.returns r before
          · rw [List.mem_singleton.mp last]
            exact fun _ => rfl
        case h_3 call entered =>
          cases taken
          exact inv.put (enter_sound entered _)
      · cases taken
  | attempt fiber answer =>
      simp only [exec] at taken
      split at taken
      case h_1 call at_fiber =>
        split at taken
        case isTrue at_fn =>
          apply inv.attempt at_fiber at_fn ?_ taken
          rintro fd rfl
          exact keeps fd rfl
        case isFalse => cases taken
      case h_2 => cases taken
  | arm fiber =>
      simp only [exec] at taken
      split at taken
      case h_1 call at_fiber =>
        split at taken
        case isTrue blocked =>
          cases taken
          apply inv.put
          refine sound_move (inv.call at_fiber) (by rfl) (by rfl) (by rfl) ?_ ?_
          · intro no
            cases no
          · simp only [IoCall.mayRetry, blocked]
            exact id
        case isFalse => cases taken
      case h_2 => cases taken
  | register fiber granted =>
      simp only [exec] at taken
      split at taken
      case h_1 call at_fiber =>
        split at taken
        case isTrue armed => exact inv.register at_fiber armed taken
        case isFalse => cases taken
      case h_2 => cases taken
  | resume fiber =>
      simp only [exec] at taken
      split at taken
      case h_1 call at_fiber =>
        split at taken
        case isTrue held =>
          split at taken
          · cases taken
          case h_2 i _ =>
            cases taken
            have changed : ({ s with ready := s.ready.eraseIdx i } : HookRun β).Inv :=
              inv.frame (fun _ => rfl) rfl rfl rfl
            apply changed.put
            refine sound_move (inv.call at_fiber) (by rfl) (by rfl) (by rfl) ?_ ?_
            · intro no
              cases no
            · simp only [IoCall.mayRetry, held]
              exact id
        case isFalse => cases taken
      case h_2 => cases taken
  | check fiber =>
      simp only [exec] at taken
      split at taken
      case h_1 call at_fiber =>
        split at taken
        case isTrue resumed =>
          split at taken
          · cases taken
            exact inv.leave fun _ => rfl
          case isFalse in_time =>
            cases taken
            apply inv.put
            refine sound_move (inv.call at_fiber) (by rfl) (by rfl) (by rfl) ?_ ?_
            · intro no
              cases no
            · intro _
              simp only [IoCall.mayRetry, Bool.eq_false_of_not_eq_true in_time, Bool.not_false,
                Bool.or_true]
        case isFalse => cases taken
      case h_2 => cases taken
  | fire fiber =>
      simp only [exec] at taken
      split at taken
      case h_1 call at_fiber =>
        split at taken
        case isTrue due =>
          cases taken
          have changed : ({ s with cancels := s.cancels ++ [(call.fd, call.fn.event)] } :
              HookRun β).Inv := inv.frame (fun _ => rfl) rfl rfl rfl
          apply changed.put
          refine sound_move (inv.call at_fiber) (by rfl) (by rfl) (by rfl) id ?_
          intro _
          simp only [IoCall.mayRetry, due.2, Bool.not_false, Bool.or_true]
        case isFalse => cases taken
      case h_2 => cases taken
  | cancelEvent callback granted =>
      simp only [exec] at taken
      split at taken
      · cases taken
      · split at taken
        · cases taken
        · cases taken
          exact inv.frame (fun _ => rfl) rfl rfl rfl
  | socket fiber hook_enable type answer =>
      simp only [exec] at taken
      split at taken
      · split at taken
        · cases taken
        case h_2 fd kernel opened =>
          cases taken
          have changed : ({ s with fds.kernel := kernel } : HookRun β).Inv := by
            rcases socket_f_cases opened with rfl | ⟨n, file, rfl, created⟩
            · exact inv.frame (fun _ => rfl) rfl rfl rfl
            · exact inv.created created (keeps n rfl)
          apply changed.put
          split <;> trivial
      · cases taken
  | adopt fiber =>
      simp only [exec] at taken
      split at taken
      · split at taken
        · cases taken
        case h_2 fds got =>
          cases taken
          have changed : ({ s with fds := fds } : HookRun β).Inv :=
            inv.frame (fun n => Fds.get_descriptor got n) rfl rfl rfl
          apply changed.put
          trivial
      · cases taken
  | close fiber hook_enable fd =>
      simp only [exec] at taken
      split at taken
      · split at taken
        · cases taken
          apply inv.put
          trivial
        · cases taken
          exact inv.close_f fd
      · cases taken
  | closing fiber iom granted =>
      simp only [exec] at taken
      split at taken
      · exact inv.closing taken
      · cases taken
  | events op =>
      simp only [exec] at taken
      split at taken
      · cases taken
      · cases taken
        exact inv.frame (fun _ => rfl) rfl rfl rfl

def step : Transition.Step (HookRun β) (HookOp β) Unit := fun s op =>
  (s.exec op).map fun t => ((), t)

/-- A reader waits on 5, another fiber closes 5 and opens `number`, the reader runs again. -/
def closedWhileWaiting (number : Nat) : List (HookOp Nat) :=
  [.socket 1 true 0 (some 5), .adopt 1, .start 0 true 5 .read, .attempt 0 (.error .EAGAIN),
    .arm 0, .register 0 true, .close 1 true 5, .closing 1 true true, .closing 1 true true,
    .closing 1 true true, .closing 1 true true, .socket 1 true 0 (some number), .adopt 1,
    .resume 0, .check 0, .attempt 0 (.done 3)]

end HookRun

end CorReactor
