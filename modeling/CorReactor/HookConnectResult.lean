import CorReactor.HookConnect

set_option autoImplicit false

/-! What `connect_with_timeout` returns. -/

namespace CorReactor.ConnectRun

variable {β : Type} {s t : ConnectRun β} {op : ConnectOp β}

/-- What a return says, in any run. -/
structure Reported (s : ConnectRun β) : Prop where
  timeout : s.result = some (-1, some .ETIMEDOUT) → s.fired = true ∨ .ETIMEDOUT ∈ s.reported
  values : ∀ r, s.result = some r → r.1 = 0 ∨ r.1 = -1
  cancelled : s.cancelled = true → s.fired = true
  error : ∀ errno, s.so_error = some errno → errno ∈ s.reported

/-- A return of 0 is a connection, and what the call knows of the connection on its way. -/
structure Kept (s : ConnectRun β) : Prop where
  success : ∀ errno, s.result = some (0, errno) → s.conn = .completed
  called : s.pc = .called → s.conn = .idle ∧ s.cancelled = false ∧ s.timed = false
  unanswered : s.pc ≠ .returned → s.result = none
  woken : (s.pc = .resumed ∨ ∃ d ∈ s.ready, d.wakes s.fiber = true) →
    s.cancelled = true ∨ s.conn.settled = true
  asking : s.pc = .asking → s.conn.settled = true
  failed : s.conn = .failed → s.pc ≠ .returned → s.so_error.isSome
  callbacks : s.cancels ≠ 0 → s.cancelled = true

theorem boot_reported (fd : Int) (fiber : FiberId) (timeout_ms : UInt64) (iom : IOManager β) :
    (boot fd fiber timeout_ms iom).Reported where
  timeout := by
    intro no
    cases no
  values := by
    intro r no
    cases no
  cancelled := by
    intro no
    cases no
  error := by
    intro errno no
    cases no

theorem boot_kept (fd : Int) (fiber : FiberId) (timeout_ms : UInt64) (iom : IOManager β) :
    (boot fd fiber timeout_ms iom).Kept where
  success := by
    intro errno no
    cases no
  called := fun _ => ⟨rfl, rfl, rfl⟩
  unanswered := fun _ => rfl
  woken := by
    rintro (no | ⟨d, member, -⟩)
    · cases no
    · cases member
  asking := by
    intro no
    cases no
  failed := by
    intro no
    cases no
  callbacks := fun some_left => absurd rfl some_left

theorem Reported.mono (holds : s.Reported) (result : t.result = s.result)
    (fired : s.fired = true → t.fired = true) (reported : ∀ e ∈ s.reported, e ∈ t.reported)
    (cancelled : t.cancelled = true → s.cancelled = true ∨ t.fired = true)
    (error : ∀ e, t.so_error = some e → s.so_error = some e ∨ e ∈ t.reported) : t.Reported where
  timeout := by
    rw [result]
    intro timed_out
    rcases holds.timeout timed_out with timer | kernel
    · exact Or.inl (fired timer)
    · exact Or.inr (reported _ kernel)
  values := by
    rw [result]
    exact holds.values
  cancelled := by
    intro set
    rcases cancelled set with before | timer
    · exact fired (holds.cancelled before)
    · exact timer
  error := by
    intro e at_error
    rcases error e at_error with before | kernel
    · exact reported e (holds.error e before)
    · exact kernel

theorem Reported.leave (holds : s.Reported) {ret : Int} {errno : Option Errno}
    (value : ret = 0 ∨ ret = -1)
    (timeout : errno = some .ETIMEDOUT → s.fired = true ∨ .ETIMEDOUT ∈ s.reported) :
    (s.leave ret errno).Reported where
  timeout := by
    intro timed_out
    cases timed_out
    exact timeout rfl
  values := by
    rintro r ⟨⟩
    exact value
  cancelled := holds.cancelled
  error := holds.error

theorem Reported.connected (holds : s.Reported) (answer : Option Errno) :
    (s.connected answer).Reported ∧
      (answer = some .ETIMEDOUT → .ETIMEDOUT ∈ (s.connected answer).reported) := by
  unfold ConnectRun.connected
  split
  · refine ⟨holds.mono rfl id (fun _ => id) Or.inl (fun _ => Or.inl), ?_⟩
    intro no
    cases no
  · refine ⟨holds.mono rfl id (fun _ => id) Or.inl (fun _ => Or.inl), ?_⟩
    intro no
    cases no
  · refine ⟨holds.mono rfl id (fun _ => List.mem_append_left _) Or.inl (fun _ => Or.inl), ?_⟩
    rintro ⟨⟩
    exact List.mem_append_right _ List.mem_cons_self

theorem Reported.step (holds : s.Reported) (taken : s.exec op = some t) : t.Reported := by
  cases op with
  | start fds hook_enable answer =>
      obtain ⟨next, kernel⟩ := holds.connected answer
      simp only [exec] at taken
      split at taken
      · split at taken
        · cases taken
        · cases taken
          apply holds.leave (Or.inr rfl)
          intro no
          cases no
        · cases taken
          apply next.leave
          · split
            · exact Or.inl rfl
            · exact Or.inr rfl
          · exact fun given => Or.inr (kernel given)
        · cases taken
          exact next.mono rfl id (fun _ => id) Or.inl (fun _ => Or.inl)
      · cases taken
  | arm =>
      simp only [exec] at taken
      split at taken <;> cases taken
      exact holds.mono rfl id (fun _ => id) Or.inl (fun _ => Or.inl)
  | register granted =>
      simp only [exec] at taken
      split at taken
      · split at taken <;> cases taken
        exact holds.mono rfl id (fun _ => id) Or.inl (fun _ => Or.inl)
      · cases taken
  | resume =>
      simp only [exec] at taken
      split at taken
      · split at taken <;> cases taken
        exact holds.mono rfl id (fun _ => id) Or.inl (fun _ => Or.inl)
      · cases taken
  | check =>
      simp only [exec] at taken
      split at taken
      · split at taken
        case isTrue cancelled =>
          cases taken
          exact holds.leave (Or.inr rfl) fun _ => Or.inl (holds.cancelled cancelled)
        case isFalse =>
          cases taken
          exact holds.mono rfl id (fun _ => id) Or.inl (fun _ => Or.inl)
      · cases taken
  | getsockopt is_open =>
      simp only [exec] at taken
      split at taken
      · split at taken
        · split at taken
          · cases taken
            apply holds.leave (Or.inl rfl)
            intro no
            cases no
          case h_2 errno at_error =>
            cases taken
            have read : ({ s with so_error := none } : ConnectRun β).Reported := by
              refine holds.mono rfl id (fun _ => id) Or.inl ?_
              intro e no
              cases no
            apply read.leave (Or.inr rfl)
            rintro ⟨⟩
            exact Or.inr (holds.error _ at_error)
        · cases taken
          apply holds.leave (Or.inr rfl)
          intro no
          cases no
      · cases taken
  | fire =>
      simp only [exec] at taken
      split at taken <;> cases taken
      exact holds.mono rfl (fun _ => rfl) (fun _ => id) (fun _ => Or.inr rfl) (fun _ => Or.inl)
  | cancelEvent granted =>
      simp only [exec] at taken
      split at taken
      · cases taken
      · split at taken <;> cases taken
        exact holds.mono rfl id (fun _ => id) Or.inl (fun _ => Or.inl)
  | complete =>
      simp only [exec] at taken
      split at taken <;> cases taken
      exact holds.mono rfl id (fun _ => id) Or.inl (fun _ => Or.inl)
  | fail errno | reset errno =>
      simp only [exec] at taken
      split at taken <;> cases taken
      refine holds.mono rfl id (fun _ => List.mem_append_left _) Or.inl ?_
      rintro e ⟨⟩
      exact Or.inr (List.mem_append_right _ List.mem_cons_self)
  | events op =>
      simp only [exec] at taken
      split at taken
      · cases taken
      · split at taken <;> cases taken
        exact holds.mono rfl id (fun _ => id) Or.inl (fun _ => Or.inl)

theorem kept_returned (returned : s.pc = .returned)
    (success : ∀ errno, s.result = some (0, errno) → s.conn = .completed)
    (woken : (∃ d ∈ s.ready, d.wakes s.fiber = true) → s.cancelled = true ∨ s.conn.settled = true)
    (callbacks : s.cancels ≠ 0 → s.cancelled = true) : s.Kept where
  success := success
  called := by
    intro no
    rw [returned] at no
    cases no
  unanswered := fun no => absurd returned no
  woken := by
    rintro (no | wake)
    · rw [returned] at no
      cases no
    · exact woken wake
  asking := by
    intro no
    rw [returned] at no
    cases no
  failed := fun _ no => absurd returned no
  callbacks := callbacks

/-- The call returns: 0 only over a connection. -/
theorem Kept.leave (kept : s.Kept) {ret : Int} {errno : Option Errno}
    (success : ret = 0 → s.conn = .completed) : (s.leave ret errno).Kept := by
  apply kept_returned rfl
  · intro e zero
    cases zero
    exact success rfl
  · intro wake
    exact kept.woken (Or.inr wake)
  · exact kept.callbacks

/-- The connection and the fiber's place in the call stay, more fibers may become ready. -/
theorem Kept.deliver (kept : s.Kept) {iom : IOManager β} {deliveries : List (Delivery β)}
    {cancels : Nat} (fewer : cancels ≤ s.cancels)
    (quiet : s.cancelled = true ∨ s.conn.settled = true ∨
      ∀ d ∈ deliveries, d.wakes s.fiber = false) :
    ({ s with iom := iom, ready := s.ready ++ deliveries, cancels := cancels } :
      ConnectRun β).Kept := by
  refine ⟨kept.success, kept.called, kept.unanswered, ?_, kept.asking, kept.failed, ?_⟩
  · rintro (resumed | ⟨d, member, wakes⟩)
    · exact kept.woken (Or.inl resumed)
    · rcases List.mem_append.mp member with before | new
      · exact kept.woken (Or.inr ⟨d, before, wakes⟩)
      · rcases quiet with cancelled | settled | quiet
        · exact Or.inl cancelled
        · exact Or.inr settled
        · rw [quiet d new] at wakes
          cases wakes
  · intro some_left
    apply kept.callbacks
    dsimp only at some_left
    omega

theorem connectHead_waits {fds : Fds} {hook_enable : Bool} {fd : Int} {answer : Option Errno}
    (head : connectHead fds hook_enable fd answer = .ok .waits) : answer = some .EINPROGRESS := by
  unfold connectHead at head
  cases hook_enable with
  | false => cases head
  | true =>
      simp only [Bool.not_true, Bool.false_eq_true, ↓reduceIte] at head
      split at head
      · cases head
      · cases head
      · split at head
        · cases head
        · split at head
          · cases head
          · split at head
            · cases head
            · split at head
              · cases head
              · split at head
                · assumption
                · cases head

theorem Kept.start (kept : s.Kept) {fds : Fds} {hook_enable : Bool} {answer : Option Errno}
    (taken : s.exec (.start fds hook_enable answer) = some t) : t.Kept := by
  simp only [exec] at taken
  split at taken
  case isFalse => cases taken
  case isTrue at_call =>
    obtain ⟨idle, in_time, untimed⟩ := kept.called at_call
    have asleep : ¬ ∃ d ∈ s.ready, d.wakes s.fiber = true := by
      intro wake
      rcases kept.woken (Or.inr wake) with cancelled | settled
      · rw [in_time] at cancelled
        cases cancelled
      · rw [idle] at settled
        cases settled
    split at taken
    · cases taken
    · cases taken
      apply kept.leave
      intro no
      cases no
    · cases taken
      have no_callbacks : ¬ s.cancels ≠ 0 := by
        intro some_left
        rw [kept.callbacks some_left] at in_time
        cases in_time
      cases answer with
      | none =>
          apply kept_returned rfl
          · intro _ _
            rfl
          · exact fun wake => absurd wake asleep
          · exact fun some_left => absurd some_left no_callbacks
      | some errno =>
          apply kept_returned rfl
          · intro e zero
            cases zero
          · cases errno <;> exact fun wake => absurd wake asleep
          · cases errno <;> exact fun some_left => absurd some_left no_callbacks
    case h_4 head =>
      cases taken
      cases connectHead_waits head
      have no_result := kept.unanswered (by rw [at_call]; decide)
      refine ⟨?_, ?_, fun _ => no_result, ?_, ?_, ?_, kept.callbacks⟩
      · intro e zero
        exact absurd (no_result.symm.trans zero) (by simp)
      · intro no
        cases no
      · rintro (no | wake)
        · cases no
        · exact absurd wake asleep
      · intro no
        cases no
      · intro no
        cases no

/-- A step of the call, of its timer, of the kernel or of anybody else. -/
theorem Kept.step (kept : s.Kept) (undisturbed : s.Undisturbed op) (taken : s.exec op = some t) :
    t.Kept := by
  obtain ⟨success, called, unanswered, woken, asking, failed, callbacks⟩ := id kept
  cases op with
  | start fds hook_enable answer => exact kept.start taken
  | arm =>
      simp only [exec] at taken
      split at taken
      case isFalse => cases taken
      case isTrue at_arm =>
        cases taken
        refine ⟨success, ?_, fun _ => unanswered (by rw [at_arm]; decide), ?_, ?_, ?_, callbacks⟩
        · intro no
          cases no
        · rintro (no | wake)
          · cases no
          · exact woken (Or.inr wake)
        · intro no
          cases no
        · exact fun lost _ => failed lost (by rw [at_arm]; decide)
  | register granted =>
      simp only [exec] at taken
      split at taken
      case isFalse => cases taken
      case isTrue at_register =>
        cases added : s.addEvent granted with
        | error fault =>
            rw [added] at taken
            cases taken
        | ok r =>
            rw [added] at taken
            cases taken
            have zero : r.1 = 0 := by
              apply undisturbed
              rw [added]
              rfl
            rw [if_pos zero]
            refine ⟨success, ?_, fun _ => unanswered (by rw [at_register]; decide), ?_, ?_, ?_,
              callbacks⟩
            · intro no
              cases no
            · rintro (no | wake)
              · cases no
              · exact woken (Or.inr wake)
            · intro no
              cases no
            · exact fun lost _ => failed lost (by rw [at_register]; decide)
  | resume =>
      simp only [exec] at taken
      split at taken
      case isFalse => cases taken
      case isTrue at_resume =>
        split at taken
        · cases taken
        case h_2 i found =>
          cases taken
          obtain ⟨inside, wakes, -⟩ := List.findIdx?_eq_some_iff_getElem.mp found
          have woke := woken (Or.inr ⟨_, List.getElem_mem inside, wakes⟩)
          refine ⟨success, ?_, fun _ => unanswered (by rw [at_resume]; decide), fun _ => woke, ?_,
            ?_, callbacks⟩
          · intro no
            cases no
          · intro no
            cases no
          · exact fun lost _ => failed lost (by rw [at_resume]; decide)
  | check =>
      simp only [exec] at taken
      split at taken
      case isFalse => cases taken
      case isTrue at_check =>
        split at taken
        · cases taken
          apply kept.leave
          intro no
          cases no
        case isFalse in_time =>
          cases taken
          have settled := (woken (Or.inl at_check)).resolve_left in_time
          refine ⟨success, ?_, fun _ => unanswered (by rw [at_check]; decide),
            fun _ => Or.inr settled, fun _ => settled, ?_, callbacks⟩
          · intro no
            cases no
          · exact fun lost _ => failed lost (by rw [at_check]; decide)
  | getsockopt is_open =>
      simp only [exec] at taken
      split at taken
      case isFalse => cases taken
      case isTrue at_ask =>
        split at taken
        · split at taken
          case h_1 no_error =>
            cases taken
            apply kept.leave
            intro _
            have settled := asking at_ask
            cases outcome : s.conn with
            | completed => rfl
            | failed =>
                have some_error := failed outcome (by rw [at_ask]; decide)
                rw [no_error] at some_error
                cases some_error
            | idle | inProgress =>
                rw [outcome] at settled
                cases settled
          case h_2 errno _ =>
            cases taken
            apply kept_returned rfl
            · intro e no
              cases no
            · exact fun wake => woken (Or.inr wake)
            · exact callbacks
        · cases taken
          apply kept.leave
          intro no
          cases no
  | fire =>
      simp only [exec] at taken
      split at taken
      case isFalse => cases taken
      case isTrue due =>
        cases taken
        refine ⟨success, ?_, unanswered, fun _ => Or.inl rfl, asking, failed, fun _ => rfl⟩
        intro at_call
        rw [(called at_call).2.2] at due
        cases due.1
  | cancelEvent granted =>
      simp only [exec] at taken
      split at taken
      case isTrue => cases taken
      case isFalse some_left =>
        split at taken <;> cases taken
        exact kept.deliver (Nat.sub_le _ _) (Or.inl (callbacks some_left))
  | complete =>
      simp only [exec] at taken
      split at taken
      case isFalse => cases taken
      case isTrue in_progress =>
        cases taken
        refine ⟨fun _ _ => rfl, ?_, unanswered, fun _ => Or.inr rfl, fun _ => rfl, ?_, callbacks⟩
        · intro at_call
          rw [(called at_call).1] at in_progress
          cases in_progress
        · intro no
          cases no
  | fail errno =>
      simp only [exec] at taken
      split at taken
      case isFalse => cases taken
      case isTrue in_progress =>
        cases taken
        refine ⟨?_, ?_, unanswered, fun _ => Or.inr rfl, fun _ => rfl, fun _ _ => rfl, callbacks⟩
        · intro e zero
          have completed := success e zero
          rw [in_progress] at completed
          cases completed
        · intro at_call
          rw [(called at_call).1] at in_progress
          cases in_progress
  | reset errno =>
      simp only [exec] at taken
      split at taken
      case isFalse => cases taken
      case isTrue =>
        cases taken
        exact ⟨success, called, unanswered, woken, asking, fun _ _ => rfl, callbacks⟩
  | events op =>
      simp only [exec] at taken
      split at taken
      case isTrue => cases taken
      case isFalse =>
        cases done : s.iom.exec op with
        | error fault =>
            rw [done] at taken
            cases taken
        | ok r =>
            rw [done] at taken
            cases taken
            apply kept.deliver (Nat.le_refl _)
            by_cases settled : s.conn.settled = true
            · exact Or.inr (Or.inl settled)
            · refine Or.inr (Or.inr (undisturbed (Bool.eq_false_of_not_eq_true settled) r ?_))
              rw [done]
              rfl

/-- `connect_with_timeout` returns 0 or -1; -1 with `ETIMEDOUT` only where the condition timer
fired or the kernel gave this error; and 0, where `addEvent` succeeded and nobody else woke the
fiber before the kernel was done, only over a completed connection. -/
theorem run_connect {fd : Int} {fiber : FiberId} {timeout_ms : UInt64} {iom : IOManager β}
    {ops : List (ConnectOp β)} {outs : List Unit}
    (taken : Transition.run step (boot fd fiber timeout_ms iom) ops = some (outs, s)) :
    (∀ r, s.result = some r → r.1 = 0 ∨ r.1 = -1) ∧
      (s.result = some (-1, some .ETIMEDOUT) → s.fired = true ∨ .ETIMEDOUT ∈ s.reported) ∧
      (Transition.Along step Undisturbed (boot fd fiber timeout_ms iom) ops →
        ∀ errno, s.result = some (0, errno) → s.conn = .completed) := by
  have exec_of : ∀ (u v : ConnectRun β) op (o : Unit), step u op = some (o, v) →
      u.exec op = some v := by
    intro u v op o done
    obtain ⟨w, result, same⟩ := Option.map_eq_some_iff.mp done
    cases same
    exact result
  have reported : s.Reported :=
    Transition.run_invariant
      (fun u op o v (holds : u.Reported) (_ : True) done => holds.step (exec_of u v op o done))
      (boot_reported fd fiber timeout_ms iom) (Transition.Along.of_mem (fun _ _ _ => trivial) _)
      taken
  refine ⟨reported.values, reported.timeout, ?_⟩
  intro undisturbed
  have kept : s.Kept :=
    Transition.run_invariant
      (fun u op o v holds calm done => holds.step calm (exec_of u v op o done))
      (boot_kept fd fiber timeout_ms iom) undisturbed taken
  exact kept.success

/-- A process with one socket, 5, in blocking mode. -/
def oneSocket : Fds := ((Fds.boot.socket true 0 (some 5)).getD (-1, Fds.boot)).2

/-- A call that waits for the kernel, up to its `addEvent`. -/
def waiting (granted : Bool) : List (ConnectOp Nat) :=
  [.start oneSocket true (some .EINPROGRESS), .arm, .register granted]

/-- The kernel completes the connection and reports the socket as writable. -/
theorem run_connect_completed :
    ∃ outs s, Transition.run step (boot 5 1 5000 (IOManager.new : IOManager Nat))
      (waiting true ++ [.complete, .events (.deliver 5 EPOLLOUT true), .resume, .check,
        .getsockopt true]) = some (outs, s) ∧
      s.result = some (0, none) ∧ s.conn = .completed := by
  have calm : Transition.Along step Undisturbed (boot 5 1 5000 (IOManager.new : IOManager Nat))
      (waiting true ++ [.complete, .events (.deliver 5 EPOLLOUT true), .resume, .check,
        .getsockopt true]) := by decide
  exact ⟨_, _, rfl, by decide, (run_connect rfl).2.2 calm none (by decide)⟩

/-- Where `addEvent` fails, or another fiber cancels the event, the call returns 0 while the
connection is in progress; and without a timer it returns -1 with the kernel's `ETIMEDOUT`,
here to a fiber that reads from the socket and to the connecting one. -/
theorem run_connect_early :
    (∃ outs s, Transition.run step (boot 5 1 5000 (IOManager.new : IOManager Nat))
      (waiting false ++ [.getsockopt true]) = some (outs, s) ∧
      s.result = some (0, none) ∧ s.conn = .inProgress) ∧
    (∃ outs s, Transition.run step (boot 5 1 5000 (IOManager.new : IOManager Nat))
      (waiting true ++ [.events (.cancelEvent 5 .WRITE true), .resume, .check,
        .getsockopt true]) = some (outs, s) ∧
      s.result = some (0, none) ∧ s.conn = .inProgress) ∧
    ∃ outs s, Transition.run step (boot 5 1 (-1) (IOManager.new : IOManager Nat))
      (waiting true ++ [.events (.addEvent ⟨some 0, 2, .EXEC⟩ 5 .READ none true),
        .fail .ETIMEDOUT, .events (.deliver 5 (EPOLLOUT ||| EPOLLERR ||| EPOLLHUP) true), .resume,
        .check, .getsockopt true]) = some (outs, s) ∧
      s.result = some (-1, some .ETIMEDOUT) ∧ s.fired = false ∧ s.timed = false :=
  ⟨⟨_, _, rfl, by decide, by decide⟩, ⟨_, _, rfl, by decide, by decide⟩,
    ⟨_, _, rfl, by decide, by decide, by decide⟩⟩

end CorReactor.ConnectRun
