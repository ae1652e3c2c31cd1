import CorReactor.FdEntries

set_option autoImplicit false

/-! The non-blocking flag as the kernel has it, as the user asked for it and as the hooked
`fcntl` and `ioctl` report it. -/

namespace CorReactor

namespace Fds

/-- The context that the hooked `fcntl` and `ioctl` act on: a socket's that is not closed. -/
def socketCtx (s : Fds) (fd : Int) : Except FdFault (Option (CtxId × FdCtx)) :=
  match s.get fd false with
  | .error fault => .error fault
  | .ok (none, _) => .ok none
  | .ok (some id, _) =>
      match s.ctxs[id]? with
      | none => .ok none
      | some ctx => if ctx.m_isClosed || !ctx.m_isSocket then .ok none else .ok (some (id, ctx))

/-- The hooked `fcntl(fd, F_SETFL, arg)`. -/
def fcntl_setfl (s : Fds) (fd : Int) (arg : BitVec 32) (granted : Bool) :
    Except FdFault (Int × Fds) :=
  match s.socketCtx fd with
  | .error fault => .error fault
  | .ok none =>
      let r := s.kernel.setfl fd arg granted
      .ok (r.1, { s with kernel := r.2 })
  | .ok (some (id, ctx)) =>
      let s := s.update id fun c => c.setUserNonblock (arg &&& O_NONBLOCK ≠ 0)
      let arg := if ctx.m_sysNonblock then arg ||| O_NONBLOCK else arg &&& ~~~O_NONBLOCK
      let r := s.kernel.setfl fd arg granted
      .ok (r.1, { s with kernel := r.2 })

/-- The hooked `fcntl(fd, F_GETFL)`. -/
def fcntl_getfl (s : Fds) (fd : Int) : Except FdFault (BitVec 32) :=
  let arg := (s.kernel.getfl fd).getD (-1)
  match s.socketCtx fd with
  | .error fault => .error fault
  | .ok none => .ok arg
  | .ok (some (_, ctx)) =>
      .ok (if ctx.m_userNonblock then arg ||| O_NONBLOCK else arg &&& ~~~O_NONBLOCK)

/-- The hooked `ioctl(fd, FIONBIO, &value)`. -/
def ioctl_fionbio (s : Fds) (fd : Int) (value : Int) : Except FdFault (Int × Fds) :=
  let user_nonblock : Bool := value ≠ 0
  match s.socketCtx fd with
  | .error fault => .error fault
  | .ok none =>
      let r := s.kernel.fionbio fd value
      .ok (r.1, { s with kernel := r.2 })
  | .ok (some (id, _)) =>
      let s := s.update id fun c => c.setUserNonblock user_nonblock
      let r := s.kernel.fionbio fd value
      .ok (r.1, { s with kernel := r.2 })

end Fds

/-- How a managed socket comes into being. -/
inductive Opening
  | socket (type : BitVec 32)
  | accept

/-- The flags that the kernel gives it. -/
def Opening.flags : Opening → BitVec 32
  | .socket type => O_RDWR ||| (type &&& SOCK_NONBLOCK)
  | .accept => O_RDWR

def Fds.openSocket (s : Fds) (fd : Nat) : Opening → Option (Int × Fds)
  | .socket type => s.socket true type (some fd)
  | .accept => s.accept (some fd)

/-- The calls on one managed socket, with the mode last asked for (`asked`) and the flags
that the same calls without the hooks give it (`plain`). -/
structure FlagRun where
  fds : Fds
  fd : Nat
  asked : Bool
  plain : BitVec 32

inductive FlagCall
  | setfl (arg : BitVec 32) (granted : Bool)
  | fionbio (value : Int)
  | getfl
  deriving DecidableEq

namespace FlagRun

open FdManager

/-- The socket as it was opened. -/
def opened (fds : Fds) (fd : Nat) (opening : Opening) : FlagRun :=
  ⟨fds, fd, opening.flags &&& O_NONBLOCK ≠ 0, opening.flags⟩

def step : Transition.Step FlagRun FlagCall (BitVec 32) := fun s call =>
  match call with
  | .setfl arg granted =>
      (s.fds.fcntl_setfl s.fd arg granted).toOption.map fun r =>
        (BitVec.ofInt 32 r.1,
          { s with
            fds := r.2
            asked := arg &&& O_NONBLOCK ≠ 0
            plain := if granted then (arg &&& SETFL_MASK) ||| (s.plain &&& ~~~SETFL_MASK)
              else s.plain })
  | .fionbio value =>
      (s.fds.ioctl_fionbio s.fd value).toOption.map fun r =>
        (BitVec.ofInt 32 r.1,
          { s with
            fds := r.2
            asked := value ≠ 0
            plain := if value = 0 then s.plain &&& ~~~O_NONBLOCK else s.plain ||| O_NONBLOCK })
  | .getfl => (s.fds.fcntl_getfl s.fd).toOption.map fun flags => (flags, s)

/-- The kernel's flag is set, the context knows the mode last asked for, and `F_GETFL`
reports it with the other flags as they are without the hooks. -/
structure Transparent (s : FlagRun) : Prop where
  nonblocking : s.fds.kernel.Nonblocking s.fd
  user : ∃ id ctx, s.fds.mgr.stored s.fd = some id ∧ s.fds.ctxs[id]? = some ctx ∧
    ctx.m_userNonblock = s.asked
  reported : s.fds.fcntl_getfl s.fd =
    .ok (if s.asked then s.plain ||| O_NONBLOCK else s.plain &&& ~~~O_NONBLOCK)

/-- A call that does not ask for blocking mode through `ioctl`. -/
def NotBlocking (call : FlagCall) : Prop := call ≠ .fionbio 0

instance : DecidablePred NotBlocking := fun call => inferInstanceAs (Decidable (call ≠ .fionbio 0))

/-- The socket is managed, its context describes it, and the kernel's flags are the plain
ones with `O_NONBLOCK` besides. -/
structure Managed (s : FlagRun) (id : CtxId) (ctx : FdCtx) (d : Descriptor) : Prop where
  sized : s.fds.mgr.Sized
  stored : s.fds.mgr.stored s.fd = some id
  at_id : s.fds.ctxs[id]? = some ctx
  socket : ctx.m_isSocket = true
  unclosed : ctx.m_isClosed = false
  sys : ctx.m_sysNonblock = true
  user : ctx.m_userNonblock = s.asked
  is_open : s.fds.kernel.descriptor s.fd = some d
  flags : (s.fds.kernel.files d.file).flags = s.plain ||| O_NONBLOCK

variable {s t : FlagRun} {id : CtxId} {ctx : FdCtx} {d : Descriptor} {call : FlagCall}

theorem Managed.socketCtx (managed : s.Managed id ctx d) :
    s.fds.socketCtx s.fd = .ok (some (id, ctx)) := by
  unfold Fds.socketCtx
  rw [Fds.get_stored managed.sized managed.stored]
  simp only [managed.at_id, managed.socket, managed.unclosed, Bool.not_true, Bool.or_self,
    Bool.false_eq_true, ↓reduceIte]

theorem Managed.getfl (managed : s.Managed id ctx d) :
    s.fds.kernel.getfl s.fd = some (s.plain ||| O_NONBLOCK) := by
  rw [Kernel.getfl_of_descriptor managed.is_open, managed.flags]

theorem Managed.transparent (managed : s.Managed id ctx d) : s.Transparent where
  nonblocking := by
    refine ⟨_, managed.getfl, ?_⟩
    rw [Kernel.nonblock_bit, BitVec.getLsbD_or]
    simp only [show O_NONBLOCK.getLsbD 11 = true by decide, Bool.or_true]
  user := ⟨id, ctx, managed.stored, managed.at_id, managed.user⟩
  reported := by
    unfold Fds.fcntl_getfl
    rw [managed.socketCtx, managed.getfl]
    simp only [Option.getD_some, managed.user]
    cases s.asked with
    | true => simp only [↓reduceIte, Kernel.or_or_self]
    | false => simp only [Bool.false_eq_true, ↓reduceIte, Kernel.or_and_not]

theorem update_at {ctxs : List FdCtx} (at_id : ctxs[id]? = some ctx) (change : FdCtx → FdCtx) :
    (ctxs.modify id change)[id]? = some (change ctx) := by
  rw [List.getElem?_modify, at_id, Option.map_eq_map, Option.map_some, if_pos rfl]

theorem setFlags_flags (k : Kernel) (file : Nat) (flags : BitVec 32) :
    ((k.setFlags file flags).files file).flags = flags := by
  unfold Kernel.setFlags
  dsimp only
  rw [Function.update_self]

theorem Managed.setfl (managed : s.Managed id ctx d) (arg : BitVec 32) (granted : Bool)
    {o : BitVec 32} (taken : step s (.setfl arg granted) = some (o, t)) :
    ∃ ctx', t.Managed id ctx' d := by
  obtain ⟨r, done, same⟩ := Option.map_eq_some_iff.mp taken
  cases same
  have result := ok_of_toOption done
  unfold Fds.fcntl_setfl at result
  rw [managed.socketCtx] at result
  simp only [managed.sys, ↓reduceIte] at result
  unfold Fds.update Kernel.setfl at result
  dsimp only at result
  rw [managed.is_open] at result
  cases granted with
  | false =>
      cases result
      exact ⟨_, managed.sized, managed.stored, update_at managed.at_id _, managed.socket,
        managed.unclosed, managed.sys, rfl, managed.is_open, managed.flags⟩
  | true =>
      cases result
      refine ⟨_, managed.sized, managed.stored, update_at managed.at_id _, managed.socket,
        managed.unclosed, managed.sys, rfl, managed.is_open, ?_⟩
      dsimp only
      rw [if_pos rfl, setFlags_flags, managed.flags, if_pos rfl, Kernel.setfl_or]

/-- On a managed socket `ioctl` notes the mode and hands the request on. -/
theorem Managed.ioctl_fionbio (managed : s.Managed id ctx d) (value : Int) :
    s.fds.ioctl_fionbio s.fd value =
      .ok (0, { s.fds.update id fun c => c.setUserNonblock (value ≠ 0) with
        kernel := s.fds.kernel.setFlags d.file
          (if value = 0 then (s.fds.kernel.files d.file).flags &&& ~~~O_NONBLOCK
            else (s.fds.kernel.files d.file).flags ||| O_NONBLOCK) }) := by
  unfold Fds.ioctl_fionbio
  rw [managed.socketCtx]
  unfold Fds.update Kernel.fionbio
  dsimp only
  rw [managed.is_open]

theorem Managed.fionbio (managed : s.Managed id ctx d) {value : Int} (set : value ≠ 0)
    {o : BitVec 32} (taken : step s (.fionbio value) = some (o, t)) :
    ∃ ctx', t.Managed id ctx' d := by
  simp only [step, managed.ioctl_fionbio] at taken
  cases taken
  refine ⟨_, managed.sized, managed.stored, update_at managed.at_id _, managed.socket,
    managed.unclosed, managed.sys, rfl, managed.is_open, ?_⟩
  dsimp only
  rw [setFlags_flags, if_neg set, if_neg set, managed.flags]

theorem Managed.step (managed : s.Managed id ctx d) (safe : NotBlocking call) {o : BitVec 32}
    (taken : step s call = some (o, t)) : ∃ ctx', t.Managed id ctx' d := by
  cases call with
  | setfl arg granted => exact managed.setfl arg granted taken
  | fionbio value =>
      apply managed.fionbio ?_ taken
      intro zero
      subst zero
      exact safe rfl
  | getfl =>
      obtain ⟨r, done, same⟩ := Option.map_eq_some_iff.mp taken
      cases same
      exact ⟨ctx, managed⟩

/-- `ioctl` hands a request for blocking mode on to the kernel. -/
theorem Managed.not_transparent (managed : s.Managed id ctx d) (blocks : ¬ NotBlocking call)
    {o : BitVec 32} (taken : FlagRun.step s call = some (o, t)) : ¬ t.Transparent := by
  have zero : call = .fionbio 0 := not_not.mp blocks
  subst zero
  simp only [FlagRun.step, managed.ioctl_fionbio] at taken
  cases taken
  intro transparent
  have set := (Kernel.nonblocking_iff (k := s.fds.kernel.setFlags d.file _)
    (n := s.fd) managed.is_open).mp transparent.nonblocking
  apply set
  rw [setFlags_flags, if_pos trivial, BitVec.and_assoc, BitVec.and_comm (~~~O_NONBLOCK)]
  rw [show O_NONBLOCK &&& ~~~O_NONBLOCK = 0 by decide]
  exact BitVec.and_zero

/-- The context of a socket, and what making it leaves of the socket's flags. -/
theorem new_socket {fd : Int} {k : Kernel} (is_open : k.descriptor fd = some d)
    (sock : (k.files d.file).sock = true) :
    (FdCtx.new fd k).1.m_isSocket = true ∧ (FdCtx.new fd k).1.m_isClosed = false ∧
      (FdCtx.new fd k).1.m_sysNonblock = true ∧ (FdCtx.new fd k).1.m_userNonblock = false ∧
      ((FdCtx.new fd k).2.files d.file).flags = (k.files d.file).flags ||| O_NONBLOCK := by
  unfold FdCtx.new FdCtx.init
  simp only [Bool.false_eq_true, ↓reduceIte, Kernel.fstat, Kernel.file, is_open, Option.map_some,
    sock, Kernel.getfl_of_descriptor is_open]
  refine ⟨trivial, trivial, trivial, trivial, ?_⟩
  by_cases clear : (k.files d.file).flags &&& O_NONBLOCK = 0
  · simp only [clear, ↓reduceIte, Kernel.setfl, is_open, setFlags_flags]
    rw [← Kernel.setfl_and (k.files d.file).flags]
  · simp only [clear, ↓reduceIte]
    exact (Kernel.or_of_set clear).symm

/-- An opened socket is managed, its context in blocking mode. -/
theorem openSocket_spec {fds next : Fds} {fd : Nat} {opening : Opening} {rt : Int}
    (sized : fds.mgr.Sized) (absent : fds.mgr.stored fd = none) (small : (fd : Int) ≤ maxNumber)
    (done : fds.openSocket fd opening = some (rt, next)) :
    ∃ id ctx d, (⟨next, fd, false, opening.flags⟩ : FlagRun).Managed id ctx d := by
  have made : ∃ k r, fds.kernel.create fd ⟨true, opening.flags⟩ = some k ∧
      ({ fds with kernel := k } : Fds).get fd true = .ok (r, next) := by
    cases opening with
    | socket type =>
        unfold Fds.openSocket Fds.socket socket_f at done
        cases created : fds.kernel.create fd ⟨true, O_RDWR ||| (type &&& SOCK_NONBLOCK)⟩ with
        | none => simp only [created, Option.map_none, reduceCtorEq] at done
        | some k =>
            have positive : ¬ (fd : Int) = -1 := by omega
            simp only [created, Option.map_some, Bool.not_true, Bool.false_eq_true, ↓reduceIte,
              positive] at done
            obtain ⟨r, got, same⟩ := Option.map_eq_some_iff.mp done
            cases same
            exact ⟨k, r.1, created, ok_of_toOption got⟩
    | accept =>
        unfold Fds.openSocket Fds.accept accept_f at done
        cases created : fds.kernel.create fd ⟨true, O_RDWR⟩ with
        | none => simp only [created, Option.map_none, reduceCtorEq] at done
        | some k =>
            have positive : (0 : Int) ≤ fd := by omega
            simp only [created, Option.map_some, positive, ↓reduceIte] at done
            obtain ⟨r, got, same⟩ := Option.map_eq_some_iff.mp done
            cases same
            exact ⟨k, r.1, created, ok_of_toOption got⟩
  obtain ⟨k, r, created, got⟩ := made
  obtain ⟨-, descriptors⟩ := Kernel.create_descriptor created
  have is_open : k.descriptor fd = some ⟨fds.kernel.made, fds.kernel.made⟩ := by
    rw [descriptors fd, if_pos rfl]
  have file := Kernel.create_file created
  rcases Fds.get_sized (s := { fds with kernel := k }) sized got with
    ⟨-, -, present⟩ | ⟨-, mgr, inserted, rfl⟩
  · rcases present rfl with negative | entry
    · omega
    · rw [show ({ fds with kernel := k } : Fds).mgr.stored fd = none from absent] at entry
      cases entry
  · obtain ⟨socket, unclosed, sys, user, flags⟩ :=
      new_socket is_open (show (k.files fds.kernel.made).sock = true by rw [file])
    obtain ⟨-, kept, -⟩ := FdCtx.new_spec fd k
    refine ⟨fds.ctxs.length, _, _, (insert_sized sized small inserted).1,
      (insert_stored inserted).1, List.getElem?_concat_length, socket, unclosed, sys, user,
      (kept fd).trans is_open, ?_⟩
    exact flags.trans (by rw [file])

/-- On a socket under a number without an older context the hooks keep the non-blocking flag
transparent exactly when it was opened in blocking mode and `ioctl` never asks for it. -/
theorem run_transparent_iff {fds next : Fds} {fd : Nat} {opening : Opening} {rt : Int}
    (sized : fds.mgr.Sized) (absent : fds.mgr.stored fd = none) (small : (fd : Int) ≤ maxNumber)
    (done : fds.openSocket fd opening = some (rt, next)) {calls : List FlagCall}
    {outs : List (BitVec 32)}
    (taken : Transition.run step (opened next fd opening) calls = some (outs, s)) :
    Transition.Always step Transparent (opened next fd opening) calls ↔
      opening.flags &&& O_NONBLOCK = 0 ∧ FlagCall.fionbio 0 ∉ calls := by
  obtain ⟨id, ctx, d, managed⟩ := openSocket_spec sized absent small done
  by_cases blocking : opening.flags &&& O_NONBLOCK = 0
  · have start : ∃ id ctx d, (opened next fd opening).Managed id ctx d := by
      refine ⟨id, ctx, d, ?_⟩
      unfold opened
      rw [decide_eq_false (not_not.mpr blocking)]
      exact managed
    have along : Transition.Always step Transparent (opened next fd opening) calls ↔
        Transition.Along step (fun _ call => NotBlocking call) (opened next fd opening) calls := by
      have keep : ∀ (s : FlagRun) call o t, (∃ id ctx d, s.Managed id ctx d) → NotBlocking call →
          step s call = some (o, t) → ∃ id ctx d, t.Managed id ctx d := by
        rintro s call o t ⟨id, ctx, d, held⟩ safe done
        obtain ⟨ctx', kept⟩ := held.step safe done
        exact ⟨id, ctx', d, kept⟩
      have breaks : ∀ (s : FlagRun) call o t, (∃ id ctx d, s.Managed id ctx d) →
          ¬ NotBlocking call → step s call = some (o, t) → ¬ t.Transparent := by
        rintro s call o t ⟨id, ctx, d, held⟩ blocks done
        exact held.not_transparent blocks done
      have holds : ∀ s : FlagRun, (∃ id ctx d, s.Managed id ctx d) → s.Transparent := by
        rintro s ⟨id, ctx, d, held⟩
        exact held.transparent
      exact Transition.always_iff_along holds keep breaks start taken
    rw [along, Transition.along_iff_forall_mem taken]
    constructor
    · intro never
      exact ⟨blocking, fun member => never _ member rfl⟩
    · rintro ⟨-, never⟩ call member rfl
      exact never member
  · constructor
    · intro always
      have first : (opened next fd opening).Transparent := by
        cases calls with
        | nil => exact always
        | cons call rest => exact always.1
      obtain ⟨id', ctx', stored', at_id', user'⟩ := first.user
      have same_id := managed.stored.symm.trans stored'
      cases same_id
      have same_ctx := managed.at_id.symm.trans at_id'
      cases same_ctx
      have asked : (opened next fd opening).asked = true := decide_eq_true blocking
      rw [asked] at user'
      have clear := managed.user
      rw [user'] at clear
      cases clear
    · rintro ⟨clear, -⟩
      exact absurd clear blocking

/-- An accepted socket, in and out of non-blocking mode. -/
theorem run_transparent_accepted :
    ∃ rt next outs s, Fds.boot.openSocket 5 .accept = some (rt, next) ∧
      Transition.run step (opened next 5 .accept)
        [.fionbio 1, .getfl, .setfl O_APPEND true, .getfl, .setfl O_DIRECT false] =
          some (outs, s) ∧
      outs = [0, O_RDWR ||| O_NONBLOCK, 0, O_RDWR ||| O_APPEND, -1] ∧
      Transition.Always step Transparent (opened next 5 .accept)
        [.fionbio 1, .getfl, .setfl O_APPEND true, .getfl, .setfl O_DIRECT false] :=
  ⟨_, _, _, _, rfl, rfl, by decide,
    (run_transparent_iff (show Fds.boot.mgr.Sized from new_sized) (new_stored 5) (by decide) rfl
      rfl).mpr (by decide)⟩

/-- `ioctl` takes the kernel's flag away; and of a socket that was opened in non-blocking mode
`F_GETFL` reports blocking mode. -/
theorem run_not_transparent :
    (∃ rt next outs s, Fds.boot.openSocket 5 (.socket 0) = some (rt, next) ∧
      Transition.run step (opened next 5 (.socket 0)) [.fionbio 0] = some (outs, s) ∧
      s.fds.kernel.getfl 5 = some O_RDWR ∧ ¬ s.Transparent) ∧
    ∃ rt next, Fds.boot.openSocket 5 (.socket SOCK_NONBLOCK) = some (rt, next) ∧
      next.kernel.getfl 5 = some (O_RDWR ||| O_NONBLOCK) ∧
      next.fcntl_getfl 5 = .ok O_RDWR ∧
      ¬ (opened next 5 (.socket SOCK_NONBLOCK)).Transparent := by
  refine ⟨⟨_, _, _, _, rfl, rfl, by decide, ?_⟩, ⟨_, _, rfl, by decide, rfl, ?_⟩⟩
  · intro transparent
    obtain ⟨flags, got, set⟩ := transparent.nonblocking
    cases got
    revert set
    decide
  · intro transparent
    have reported := transparent.reported
    cases reported

end FlagRun

end CorReactor
