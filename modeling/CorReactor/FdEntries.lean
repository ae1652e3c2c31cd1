import CorReactor.FdManagerTable
import CorReactor.Transition

set_option autoImplicit false

/-! The entries of the `FdManager` against what is open in the process. -/

namespace CorReactor

/-- `SOCK_NONBLOCK`, a bit of the type that `socket` takes. -/
def SOCK_NONBLOCK : BitVec 32 := 0x800

/-- `socket_f`: the kernel answers with a free number, or refuses. -/
def socket_f (k : Kernel) (type : BitVec 32) : Option Nat → Option (Int × Kernel)
  | none => some (-1, k)
  | some fd =>
      (k.create fd ⟨true, O_RDWR ||| (type &&& SOCK_NONBLOCK)⟩).map fun k => ((fd : Int), k)

/-- `accept_f`: the new socket is blocking. -/
def accept_f (k : Kernel) : Option Nat → Option (Int × Kernel)
  | none => some (-1, k)
  | some fd => (k.create fd ⟨true, O_RDWR⟩).map fun k => ((fd : Int), k)

namespace Fds

/-- The hooked `socket`. -/
def socket (s : Fds) (hook_enable : Bool) (type : BitVec 32) (answer : Option Nat) :
    Option (Int × Fds) :=
  match socket_f s.kernel type answer with
  | none => none
  | some (fd, kernel) =>
      let s := { s with kernel := kernel }
      if !hook_enable then some (fd, s)
      else if fd = -1 then some (fd, s)
      else (s.get fd true).toOption.map fun r => (fd, r.2)

/-- The hooked `accept`, with what its `do_io` ends with as the answer. -/
def accept (s : Fds) (answer : Option Nat) : Option (Int × Fds) :=
  match accept_f s.kernel answer with
  | none => none
  | some (fd, kernel) =>
      let s := { s with kernel := kernel }
      if 0 ≤ fd then (s.get fd true).toOption.map fun r => (fd, r.2) else some (fd, s)

def close_f (s : Fds) (fd : Int) : Int × Fds :=
  let closed := s.kernel.close_f fd
  (closed.1, { s with kernel := closed.2 })

/-- The hooked `close`, less the events that it cancels. -/
def close (s : Fds) (hook_enable : Bool) (fd : Int) : Option (Int × Fds) :=
  if !hook_enable then some (s.close_f fd)
  else
    match s.get fd false with
    | .error _ => none
    | .ok (none, s) => some (s.close_f fd)
    | .ok (some _, s) =>
        match s.mgr.del fd with
        | .error _ => none
        | .ok mgr => some ({ s with mgr := mgr }.close_f fd)

end Fds

/-- The manager, and the sockets that the hooked `accept` has returned. -/
structure FdRun where
  fds : Fds
  accepted : List Nat

/-- The hooked calls, with the kernel's answers, and descriptors that come into being
without them. -/
inductive FdCall
  | socket (hook_enable : Bool) (type : BitVec 32) (answer : Option Nat)
  | accept (answer : Option Nat)
  | close (hook_enable : Bool) (fd : Int)
  | create (fd : Nat) (file : File)
  | dup (old : Int) (fd : Nat)

namespace FdRun

open FdManager

def boot : FdRun := ⟨Fds.boot, []⟩

def step : Transition.Step FdRun FdCall Int := fun s call =>
  match call with
  | .socket hook_enable type answer =>
      (s.fds.socket hook_enable type answer).map fun r => (r.1, { s with fds := r.2 })
  | .accept answer =>
      (s.fds.accept answer).map fun r =>
        let returned := ((r.2.kernel.descriptor r.1).map Descriptor.serial).toList
        (r.1, ⟨r.2, s.accepted ++ returned⟩)
  | .close hook_enable fd =>
      (s.fds.close hook_enable fd).map fun r => (r.1, { s with fds := r.2 })
  | .create fd file =>
      (s.fds.kernel.create fd file).map fun k => ((fd : Int), { s with fds.kernel := k })
  | .dup old fd =>
      (s.fds.kernel.dup old fd).map fun k => ((fd : Int), { s with fds.kernel := k })

/-- What `get` returns for a number was made for the descriptor that is open under it, and
an accepted socket whose context says so is in non-blocking mode. -/
structure Described (s : FdRun) : Prop where
  current : ∀ fd ctx t, s.fds.get fd false = .ok (some ctx, t) →
    ∃ c d, s.fds.ctxs[ctx]? = some c ∧ s.fds.kernel.descriptor fd = some d ∧ c.descriptor = some d
  nonblocking : ∀ fd d ctx t c, s.fds.kernel.descriptor fd = some d → d.serial ∈ s.accepted →
    s.fds.get fd false = .ok (some ctx, t) → s.fds.ctxs[ctx]? = some c → c.m_sysNonblock = true →
    s.fds.kernel.Nonblocking fd

/-- Numbers for which the table's size stays an `int`. -/
def Small (_ : FdRun) : FdCall → Prop
  | .socket _ _ answer => ∀ fd ∈ answer, (fd : Int) ≤ maxNumber
  | .accept answer => ∀ fd ∈ answer, (fd : Int) ≤ maxNumber
  | _ => True

/-- Where the hook is disabled, only numbers without a context are closed. -/
def ClosesUnmanaged (s : FdRun) : FdCall → Prop
  | .close hook_enable fd => hook_enable = false → s.fds.mgr.stored fd = none
  | _ => True

instance (s : FdRun) : (call : FdCall) → Decidable (s.Small call)
  | .socket .. => inferInstanceAs (Decidable (∀ fd ∈ _, _))
  | .accept _ => inferInstanceAs (Decidable (∀ fd ∈ _, _))
  | .close .. => isTrue trivial
  | .create .. => isTrue trivial
  | .dup .. => isTrue trivial

instance (s : FdRun) : (call : FdCall) → Decidable (s.ClosesUnmanaged call)
  | .close .. => inferInstanceAs (Decidable (_ → _))
  | .socket .. => isTrue trivial
  | .accept _ => isTrue trivial
  | .create .. => isTrue trivial
  | .dup .. => isTrue trivial

end FdRun

/-! ### What creating a context changes -/

variable {k : Kernel} {fd : Int}

/-- Setting the flag on one description keeps every description's. -/
theorem Kernel.Nonblocking.setFlags {n : Int} (set : k.Nonblocking n) {file : Nat}
    {flags : BitVec 32} (keeps : flags &&& O_NONBLOCK ≠ 0) :
    (k.setFlags file flags).Nonblocking n := by
  obtain ⟨old, got, held⟩ := set
  cases at_n : k.descriptor n with
  | none =>
      simp only [Kernel.getfl, Kernel.file, at_n, Option.map_none, reduceCtorEq] at got
  | some d =>
      rw [Kernel.nonblocking_iff (show (k.setFlags file flags).descriptor n = some d from at_n)]
      rw [Kernel.getfl_of_descriptor at_n] at got
      cases got
      change (Function.update k.files file _ d.file).flags &&& _ ≠ _
      by_cases same : d.file = file
      · rw [same, Function.update_self]
        exact keeps
      · rw [Function.update_of_ne same]
        exact held

/-- A new context is made for what is open under its number; it says of itself that the
file is in non-blocking mode only after it has put it there. -/
theorem FdCtx.new_spec (fd : Int) (k : Kernel) :
    (FdCtx.new fd k).1.descriptor = k.descriptor fd ∧
      (∀ n, (FdCtx.new fd k).2.descriptor n = k.descriptor n) ∧
      ((FdCtx.new fd k).1.m_sysNonblock = true → (FdCtx.new fd k).2.Nonblocking fd) ∧
      ∀ n, k.Nonblocking n → (FdCtx.new fd k).2.Nonblocking n := by
  unfold FdCtx.new FdCtx.init
  simp only [Bool.false_eq_true, ↓reduceIte]
  cases at_fd : k.descriptor fd with
  | none =>
      simp only [Kernel.fstat, Kernel.file, at_fd, Option.map_none, Bool.false_eq_true, ↓reduceIte]
      exact ⟨trivial, fun _ => trivial, fun no => absurd no (by simp), fun _ set => set⟩
  | some d =>
      simp only [Kernel.fstat, Kernel.file, at_fd, Option.map_some]
      cases (k.files d.file).sock with
      | false => exact ⟨rfl, fun _ => rfl, fun no => absurd no (by simp), fun _ set => set⟩
      | true =>
          simp only [↓reduceIte, Kernel.getfl_of_descriptor at_fd]
          by_cases clear : (k.files d.file).flags &&& O_NONBLOCK = 0
          · simp only [clear, ↓reduceIte, Kernel.setfl, at_fd]
            have set : ((((k.files d.file).flags ||| O_NONBLOCK) &&& SETFL_MASK) |||
                ((k.files d.file).flags &&& ~~~SETFL_MASK)) &&& O_NONBLOCK ≠ 0 := by
              rw [Kernel.setfl_nonblock, Kernel.nonblock_bit, BitVec.getLsbD_or]
              simp only [show O_NONBLOCK.getLsbD 11 = true by decide, Bool.or_true]
            refine ⟨trivial, fun _ => rfl, ?_, fun n held => held.setFlags set⟩
            intro _
            rw [Kernel.nonblocking_iff (show (k.setFlags _ _).descriptor fd = some d from at_fd)]
            change (Function.update k.files d.file _ d.file).flags &&& _ ≠ _
            rw [Function.update_self]
            exact set
          · simp only [clear, ↓reduceIte]
            exact ⟨trivial, fun _ => trivial, fun _ => (Kernel.nonblocking_iff at_fd).mpr clear,
              fun _ set => set⟩

theorem ok_of_toOption {ε α : Type} {x : Except ε α} {a : α} (got : x.toOption = some a) :
    x = .ok a := by
  cases x with
  | error fault => cases got
  | ok b =>
      cases got
      rfl

namespace Fds

open FdManager

/-- Each entry was made for what is open under its number. -/
structure Current (s : Fds) : Prop where
  sized : s.mgr.Sized
  entry : ∀ fd ctx, s.mgr.stored fd = some ctx → ∃ c d, s.ctxs[ctx]? = some c ∧
    s.kernel.descriptor fd = some d ∧ c.descriptor = some d ∧
    (c.m_sysNonblock = true → s.kernel.Nonblocking fd)

variable {s t : Fds}

theorem boot_current : boot.Current where
  sized := new_sized
  entry := by
    intro fd ctx held
    rw [show boot.mgr.stored fd = none from new_stored fd] at held
    cases held

/-- A kernel that keeps what is open under the managed numbers. -/
theorem Current.kernel (current : s.Current) {k : Kernel}
    (keeps : ∀ fd ctx, s.mgr.stored fd = some ctx → k.descriptor fd = s.kernel.descriptor fd ∧
      (s.kernel.Nonblocking fd → k.Nonblocking fd)) : ({ s with kernel := k } : Fds).Current where
  sized := current.sized
  entry := by
    intro fd ctx held
    obtain ⟨c, d, at_ctx, is_open, made, set⟩ := current.entry fd ctx held
    obtain ⟨same, stays⟩ := keeps fd ctx held
    exact ⟨c, d, at_ctx, same.trans is_open, made, fun claims => stays (set claims)⟩

theorem Current.created (current : s.Current) {fd : Nat} {file : File} {k : Kernel}
    (created : s.kernel.create fd file = some k) : ({ s with kernel := k } : Fds).Current := by
  obtain ⟨free, descriptors⟩ := Kernel.create_descriptor created
  apply current.kernel
  intro n ctx held
  obtain ⟨-, d, -, is_open, -⟩ := current.entry n ctx held
  have other : n ≠ fd := by
    intro same
    rw [same, free] at is_open
    cases is_open
  exact ⟨by rw [descriptors n, if_neg other], (Kernel.create_nonblocking created other).mpr⟩

theorem Current.copied (current : s.Current) {old : Int} {fd : Nat} {k : Kernel}
    (copied : s.kernel.dup old fd = some k) : ({ s with kernel := k } : Fds).Current := by
  obtain ⟨shared, -, free, descriptors, files⟩ := Kernel.dup_descriptor copied
  apply current.kernel
  intro n ctx held
  obtain ⟨-, d, -, is_open, -⟩ := current.entry n ctx held
  have other : n ≠ fd := by
    intro same
    rw [same, free] at is_open
    cases is_open
  have same : k.descriptor n = s.kernel.descriptor n := by rw [descriptors n, if_neg other]
  refine ⟨same, ?_⟩
  rw [Kernel.nonblocking_iff is_open, Kernel.nonblocking_iff (same.trans is_open), files]
  exact id

theorem get_sized {auto_create : Bool} {r : Option CtxId} (sized : s.mgr.Sized)
    (got : s.get fd auto_create = .ok (r, t)) :
    (t = s ∧ r = s.mgr.stored fd ∧
        (auto_create = true → fd = -1 ∨ (s.mgr.stored fd).isSome)) ∨
      (s.mgr.stored fd = none ∧ ∃ mgr, s.mgr.insert fd s.ctxs.length = .ok mgr ∧
        t = ⟨(FdCtx.new fd s.kernel).2, mgr, s.ctxs ++ [(FdCtx.new fd s.kernel).1]⟩) := by
  unfold get at got
  cases looked : s.mgr.lookup fd auto_create with
  | error fault =>
      rw [looked] at got
      cases got
  | ok found =>
      rw [looked] at got
      rcases lookup_sized sized looked with ⟨rfl, creating⟩ | ⟨rfl, absent⟩
      · cases got
        exact Or.inl ⟨rfl, rfl, creating⟩
      · cases inserted : s.mgr.insert fd s.ctxs.length with
        | error fault =>
            simp only [create, inserted, Except.map, reduceCtorEq] at got
        | ok mgr =>
            simp only [create, inserted, Except.map, Except.ok.injEq, Prod.mk.injEq] at got
            exact Or.inr ⟨absent, mgr, rfl, got.2.symm⟩

/-- `get` may set a flag, and opens and closes nothing. -/
theorem get_descriptor {auto_create : Bool} {r : Option CtxId}
    (got : s.get fd auto_create = .ok (r, t)) (n : Int) :
    t.kernel.descriptor n = s.kernel.descriptor n := by
  unfold get at got
  split at got
  · cases got
  · cases got
    rfl
  · unfold create at got
    split at got
    case h_1 => cases got
    case h_2 =>
      simp only [Except.map, Except.ok.injEq, Prod.mk.injEq] at got
      rw [← got.2]
      exact (FdCtx.new_spec fd s.kernel).2.1 n

theorem get_plain {r : Option CtxId} (sized : s.mgr.Sized) (got : s.get fd false = .ok (r, t)) :
    t = s ∧ r = s.mgr.stored fd := by
  unfold get at got
  cases looked : s.mgr.lookup fd false with
  | error fault =>
      rw [looked] at got
      cases got
  | ok found =>
      rw [looked] at got
      cases found with
      | found ctx =>
          cases got
          rcases lookup_sized sized looked with ⟨same, -⟩ | ⟨no, -⟩
          · cases same
            exact ⟨rfl, rfl⟩
          · cases no
      | missing => exact absurd looked (lookup_plain fd)

theorem get_stored {ctx : CtxId} (sized : s.mgr.Sized) (held : s.mgr.stored fd = some ctx) :
    s.get fd false = .ok (some ctx, s) := by
  unfold get
  rw [lookup_stored sized held]

theorem Current.get (current : s.Current) {d : Descriptor} {r : Option CtxId}
    (small : fd ≤ maxNumber) (is_open : s.kernel.descriptor fd = some d)
    (got : s.get fd true = .ok (r, t)) : t.Current := by
  rcases get_sized current.sized got with ⟨rfl, -⟩ | ⟨absent, mgr, inserted, rfl⟩
  · exact current
  · obtain ⟨made, descriptors, set, stays⟩ := FdCtx.new_spec fd s.kernel
    obtain ⟨sized, -, others⟩ := insert_sized current.sized small inserted
    refine ⟨sized, ?_⟩
    intro n ctx held
    change mgr.stored n = some ctx at held
    by_cases same : n = fd
    · subst same
      rw [(insert_stored inserted).1] at held
      cases held
      exact ⟨_, d, List.getElem?_concat_length, (descriptors n).trans is_open,
        made.trans is_open, set⟩
    · rw [others n same] at held
      obtain ⟨c, d', at_ctx, is_open', made', set'⟩ := current.entry n ctx held
      have inside := (List.getElem?_eq_some_iff.mp at_ctx).1
      exact ⟨c, d', (List.getElem?_append_left inside).trans at_ctx,
        (descriptors n).trans is_open', made', fun claims => stays n (set' claims)⟩

/-- Closing a number without an entry. -/
theorem Current.close_f (current : s.Current) (unmanaged : s.mgr.stored fd = none) :
    (s.close_f fd).2.Current := by
  unfold Fds.close_f Kernel.close_f
  cases at_fd : s.kernel.descriptor fd with
  | none => exact current
  | some d =>
      apply current.kernel
      intro n ctx held
      have other : n ≠ fd := by
        intro same
        rw [same, unmanaged] at held
        cases held
      have same : (s.kernel.without fd.toNat).descriptor n = s.kernel.descriptor n := by
        have low := Kernel.descriptor_low at_fd
        rw [Kernel.descriptor_without, if_neg (by omega)]
      refine ⟨same, ?_⟩
      rintro ⟨flags, got, set⟩
      refine ⟨flags, ?_, set⟩
      rw [← got]
      unfold Kernel.getfl Kernel.file
      rw [same]
      rfl

theorem Current.close (current : s.Current) {hook_enable : Bool} {rt : Int}
    (unmanaged : hook_enable = false → s.mgr.stored fd = none)
    (closed : s.close hook_enable fd = some (rt, t)) : t.Current := by
  unfold Fds.close at closed
  cases hook_enable with
  | false =>
      cases closed
      exact current.close_f (unmanaged rfl)
  | true =>
      cases got : s.get fd false with
      | error fault => simp only [got, Bool.not_true, Bool.false_eq_true, ↓reduceIte,
          reduceCtorEq] at closed
      | ok r =>
          obtain ⟨ctx, u⟩ := r
          obtain ⟨rfl, rfl⟩ := get_plain current.sized got
          simp only [got, Bool.not_true, Bool.false_eq_true, ↓reduceIte] at closed
          cases held : u.mgr.stored fd with
          | none =>
              simp only [held, Option.some.injEq] at closed
              have last := current.close_f held
              rw [closed] at last
              exact last
          | some ctx =>
              cases deleted : u.mgr.del fd with
              | error fault => simp only [held, deleted, reduceCtorEq] at closed
              | ok mgr =>
                  simp only [held, deleted, Option.some.injEq] at closed
                  obtain ⟨sized, gone, kept⟩ := del_sized current.sized deleted
                  have removed : ({ u with mgr := mgr } : Fds).Current :=
                    ⟨sized, fun n ctx' here => current.entry n ctx' (kept n ctx' here)⟩
                  have last : (({ u with mgr := mgr } : Fds).close_f fd).2.Current :=
                    removed.close_f gone
                  rw [closed] at last
                  exact last

theorem Current.made (current : s.Current) {fd : Nat} {file : File} {k : Kernel}
    {r : Option CtxId} (small : (fd : Int) ≤ maxNumber)
    (created : s.kernel.create fd file = some k)
    (got : ({ s with kernel := k } : Fds).get fd true = .ok (r, t)) : t.Current := by
  obtain ⟨-, descriptors⟩ := Kernel.create_descriptor created
  have is_open := descriptors fd
  rw [if_pos rfl] at is_open
  exact (current.created created).get small is_open got

theorem Current.socket (current : s.Current) {hook_enable : Bool} {type : BitVec 32}
    {answer : Option Nat} {rt : Int} (small : ∀ fd ∈ answer, (fd : Int) ≤ maxNumber)
    (opened : s.socket hook_enable type answer = some (rt, t)) : t.Current := by
  unfold Fds.socket socket_f at opened
  cases answer with
  | none =>
      simp only [↓reduceIte, ite_self, Option.some.injEq, Prod.mk.injEq] at opened
      obtain ⟨-, rfl⟩ := opened
      exact current
  | some fd =>
      cases created : s.kernel.create fd ⟨true, O_RDWR ||| (type &&& SOCK_NONBLOCK)⟩ with
      | none => simp only [created, Option.map_none, reduceCtorEq] at opened
      | some k =>
          simp only [created, Option.map_some] at opened
          split at opened
          · cases opened
            exact current.created created
          · split at opened
            · cases opened
              exact current.created created
            · obtain ⟨r, got, same⟩ := Option.map_eq_some_iff.mp opened
              cases same
              exact current.made (small fd rfl) created (ok_of_toOption got)

theorem Current.accept (current : s.Current) {answer : Option Nat} {rt : Int}
    (small : ∀ fd ∈ answer, (fd : Int) ≤ maxNumber)
    (accepted : s.accept answer = some (rt, t)) : t.Current := by
  unfold Fds.accept accept_f at accepted
  cases answer with
  | none =>
      simp only [Int.reduceNeg, Int.reduceLE, ↓reduceIte, Option.some.injEq,
        Prod.mk.injEq] at accepted
      obtain ⟨-, rfl⟩ := accepted
      exact current
  | some fd =>
      cases created : s.kernel.create fd ⟨true, O_RDWR⟩ with
      | none => simp only [created, Option.map_none, reduceCtorEq] at accepted
      | some k =>
          simp only [created, Option.map_some] at accepted
          split at accepted
          · obtain ⟨r, got, same⟩ := Option.map_eq_some_iff.mp accepted
            cases same
            exact current.made (small fd rfl) created (ok_of_toOption got)
          · cases accepted
            exact current.created created

end Fds

namespace FdRun

open FdManager

variable {s t : FdRun} {call : FdCall} {rt : Int}

theorem described_of_current (current : s.fds.Current) : s.Described where
  current := by
    intro fd ctx t got
    obtain ⟨-, held⟩ := Fds.get_plain current.sized got
    obtain ⟨c, d, at_ctx, is_open, made, -⟩ := current.entry fd ctx held.symm
    exact ⟨c, d, at_ctx, is_open, made⟩
  nonblocking := by
    intro fd d ctx t c _ _ got at_ctx set
    obtain ⟨-, held⟩ := Fds.get_plain current.sized got
    obtain ⟨c', -, at_ctx', -, -, stays⟩ := current.entry fd ctx held.symm
    rw [at_ctx] at at_ctx'
    cases at_ctx'
    exact stays set

theorem current_step (current : s.fds.Current) (small : s.Small call)
    (unmanaged : s.ClosesUnmanaged call) (taken : step s call = some (rt, t)) : t.fds.Current := by
  cases call with
  | socket hook_enable type answer =>
      obtain ⟨r, opened, same⟩ := Option.map_eq_some_iff.mp taken
      cases same
      exact current.socket small opened
  | accept answer =>
      obtain ⟨r, accepted, same⟩ := Option.map_eq_some_iff.mp taken
      cases same
      exact current.accept small accepted
  | close hook_enable fd =>
      obtain ⟨r, closed, same⟩ := Option.map_eq_some_iff.mp taken
      cases same
      exact current.close unmanaged closed
  | create fd file =>
      obtain ⟨k, created, same⟩ := Option.map_eq_some_iff.mp taken
      cases same
      exact current.created created
  | dup old fd =>
      obtain ⟨k, copied, same⟩ := Option.map_eq_some_iff.mp taken
      cases same
      exact current.copied copied

/-- A number that is closed behind the manager's back keeps its context. -/
theorem not_described (current : s.fds.Current) (managed : ¬ s.ClosesUnmanaged call)
    (taken : step s call = some (rt, t)) : ¬ t.Described := by
  cases call with
  | close hook_enable fd =>
      simp only [ClosesUnmanaged, Classical.not_imp] at managed
      obtain ⟨rfl, has_entry⟩ := managed
      obtain ⟨ctx, held⟩ := Option.ne_none_iff_exists'.mp has_entry
      obtain ⟨c, d, at_ctx, is_open, -⟩ := current.entry fd ctx held
      cases taken
      intro described
      have still : (s.fds.close_f fd).2.get fd false = .ok (some ctx, (s.fds.close_f fd).2) :=
        Fds.get_stored current.sized held
      obtain ⟨c', d', -, open_now, -⟩ := described.current fd ctx _ still
      have low := Kernel.descriptor_low is_open
      simp only [Fds.close_f, Kernel.close_f, is_open, Kernel.descriptor_without,
        Int.toNat_of_nonneg low, ↓reduceIte, reduceCtorEq] at open_now
  | socket | accept | create | dup => exact absurd trivial managed

/-- Up to numbers that make the table's size overflow, every entry describes the open
descriptor all along a run exactly when no number with an entry is closed on a thread with
the hook disabled. -/
theorem run_described_iff {calls : List FdCall} {rts : List Int}
    (small : Transition.Along step Small boot calls)
    (taken : Transition.run step boot calls = some (rts, s)) :
    Transition.Always step Described boot calls ↔
      Transition.Along step ClosesUnmanaged boot calls := by
  have keep : ∀ (s : FdRun) call rt t, s.fds.Current → s.Small call → s.ClosesUnmanaged call →
      step s call = some (rt, t) → t.fds.Current :=
    fun _ _ _ _ current small unmanaged done => current_step current small unmanaged done
  have breaks : ∀ (s : FdRun) call rt t, s.fds.Current → s.Small call → ¬ s.ClosesUnmanaged call →
      step s call = some (rt, t) → ¬ t.Described :=
    fun _ _ _ _ current _ managed done => not_described current managed done
  exact Transition.always_iff_along_within (fun _ current => described_of_current current) keep
    breaks Fds.boot_current small taken

/-- A socket closed where the hook is enabled, its number reused by an accepted socket, and
a file closed where the hook is disabled. -/
theorem run_described_reused :
    ∃ rts s, Transition.run step boot
      [.socket true 0 (some 5), .close true 5, .accept (some 5), .create 6 ⟨false, 0⟩, .dup 5 7,
        .close false 6] = some (rts, s) ∧
      rts = [5, 0, 5, 6, 7, 0] ∧
      Transition.Always step Described boot
        [.socket true 0 (some 5), .close true 5, .accept (some 5), .create 6 ⟨false, 0⟩, .dup 5 7,
          .close false 6] :=
  ⟨_, _, rfl, by decide, (run_described_iff (by decide) rfl).mpr (by decide)⟩

/-- A socket closed where the hook is disabled: the socket accepted next gets its number and
its context, and blocks. -/
theorem run_not_described :
    ∃ rts s, Transition.run step boot
      [.socket true 0 (some 5), .close false 5, .accept (some 5)] = some (rts, s) ∧
      s.fds.get 5 false = .ok (some 0, s.fds) ∧
      s.fds.ctxs.map (fun c => (c.descriptor, c.m_sysNonblock)) = [(some ⟨0, 0⟩, true)] ∧
      s.fds.kernel.descriptor 5 = some ⟨1, 1⟩ ∧ s.accepted = [1] ∧
      s.fds.kernel.getfl 5 = some O_RDWR ∧ ¬ s.Described := by
  refine ⟨_, _, rfl, rfl, by decide, by decide, by decide, by decide, ?_⟩
  intro described
  obtain ⟨c, d, at_ctx, is_open, made⟩ := described.current 5 0 _ rfl
  cases at_ctx
  cases is_open
  revert made
  decide

end FdRun

end CorReactor
