import Mathlib.Logic.Function.Basic
import Mathlib.Tactic.Ring

set_option autoImplicit false

/-! The process's descriptor table and the file status flags behind it, as far as the
hooked system calls use them. -/

namespace CorReactor

def O_RDWR : BitVec 32 := 0x2
def O_APPEND : BitVec 32 := 0x400
def O_NONBLOCK : BitVec 32 := 0x800
def O_ASYNC : BitVec 32 := 0x2000
def O_DIRECT : BitVec 32 := 0x4000
def O_NOATIME : BitVec 32 := 0x40000

/-- The flags that `fcntl(F_SETFL)` can change. -/
def SETFL_MASK : BitVec 32 := O_APPEND ||| O_ASYNC ||| O_DIRECT ||| O_NOATIME ||| O_NONBLOCK

/-- An open file description. -/
structure File where
  sock : Bool
  flags : BitVec 32
  deriving DecidableEq, Repr

/-- A descriptor: `serial` is its own, and `dup` gives a new one the same `file`. -/
structure Descriptor where
  serial : Nat
  file : Nat
  deriving DecidableEq, Repr

/-- The kernel's side: `made` counts the descriptors given out so far. -/
structure Kernel where
  made : Nat
  fds : Nat → Option Descriptor
  files : Nat → File
  numbered : ∀ fd d, fds fd = some d → d.serial < made ∧ d.file < made

namespace Kernel

def boot : Kernel where
  made := 0
  fds := fun _ => none
  files := fun _ => ⟨false, 0⟩
  numbered := by
    intro fd d held
    cases held

/-- What is open under a number. -/
def descriptor (k : Kernel) (fd : Int) : Option Descriptor :=
  if fd < 0 then none else k.fds fd.toNat

theorem descriptor_numbered (k : Kernel) {fd : Int} {d : Descriptor}
    (held : k.descriptor fd = some d) : d.serial < k.made ∧ d.file < k.made := by
  unfold descriptor at held
  split at held
  · cases held
  · exact k.numbered _ d held

theorem descriptor_low {k : Kernel} {fd : Int} {d : Descriptor}
    (held : k.descriptor fd = some d) : 0 ≤ fd := by
  unfold descriptor at held
  split at held
  · cases held
  · omega

def file (k : Kernel) (fd : Int) : Option File :=
  (k.descriptor fd).map fun d => k.files d.file

/-- A new descriptor under a number, for a description that exists. -/
def give (k : Kernel) (fd : Nat) (file : Nat) (exists_file : file < k.made + 1) : Kernel where
  made := k.made + 1
  fds := Function.update k.fds fd (some ⟨k.made, file⟩)
  files := k.files
  numbered := by
    intro fd' d held
    by_cases here : fd' = fd
    · subst here
      rw [Function.update_self] at held
      cases held
      exact ⟨Nat.lt_succ_self k.made, exists_file⟩
    · rw [Function.update_of_ne here] at held
      have known := k.numbered fd' d held
      exact ⟨Nat.lt_succ_of_lt known.1, Nat.lt_succ_of_lt known.2⟩

/-- `socket_f`, `accept_f` and `open` where they succeed: a new description. -/
def create (k : Kernel) (fd : Nat) (file : File) : Option Kernel :=
  if (k.fds fd).isSome then none
  else
    let k := { k with files := Function.update k.files k.made file }
    some (k.give fd k.made (Nat.lt_succ_self k.made))

def dup (k : Kernel) (old : Int) (fd : Nat) : Option Kernel :=
  if (k.fds fd).isSome then none
  else
    match at_old : k.descriptor old with
    | none => none
    | some d => some (k.give fd d.file (Nat.lt_succ_of_lt (k.descriptor_numbered at_old).2))

/-- The table without what is open under the number. -/
def without (k : Kernel) (fd : Nat) : Kernel where
  made := k.made
  fds := Function.update k.fds fd none
  files := k.files
  numbered := by
    intro fd' d held
    by_cases here : fd' = fd
    · subst here
      rw [Function.update_self] at held
      cases held
    · rw [Function.update_of_ne here] at held
      exact k.numbered fd' d held

def close_f (k : Kernel) (fd : Int) : Int × Kernel :=
  match k.descriptor fd with
  | none => (-1, k)
  | some _ => (0, k.without fd.toNat)

def setFlags (k : Kernel) (file : Nat) (flags : BitVec 32) : Kernel :=
  { k with files := Function.update k.files file { k.files file with flags := flags } }

/-- `fstat` and `S_ISSOCK`. -/
def fstat (k : Kernel) (fd : Int) : Option Bool := (k.file fd).map File.sock

/-- `fcntl_f(fd, F_GETFL)`; `none` stands for -1. -/
def getfl (k : Kernel) (fd : Int) : Option (BitVec 32) := (k.file fd).map File.flags

/-- `fcntl_f(fd, F_SETFL, arg)`. The kernel may refuse a flag that the file does not
support, or that the caller may not change. -/
def setfl (k : Kernel) (fd : Int) (arg : BitVec 32) (granted : Bool) : Int × Kernel :=
  match k.descriptor fd with
  | none => (-1, k)
  | some d =>
      if granted then
        (0, k.setFlags d.file ((arg &&& SETFL_MASK) ||| ((k.files d.file).flags &&& ~~~SETFL_MASK)))
      else (-1, k)

/-- `ioctl_f(fd, FIONBIO, &value)`. -/
def fionbio (k : Kernel) (fd : Int) (value : Int) : Int × Kernel :=
  match k.descriptor fd with
  | none => (-1, k)
  | some d =>
      let flags := (k.files d.file).flags
      (0, k.setFlags d.file (if value = 0 then flags &&& ~~~O_NONBLOCK else flags ||| O_NONBLOCK))

/-! ### What the calls change -/

variable {k next : Kernel} {fd : Nat}

theorem descriptor_update (fd : Nat) (entry : Option Descriptor) (n : Int) :
    (if n < 0 then none else Function.update k.fds fd entry n.toNat) =
      if n = fd then entry else k.descriptor n := by
  unfold descriptor
  by_cases same : n = fd
  · subst same
    rw [if_neg (by omega), if_pos rfl, Int.toNat_natCast, Function.update_self]
  · rw [if_neg same]
    by_cases negative : n < 0
    · rw [if_pos negative, if_pos negative]
    · rw [if_neg negative, if_neg negative, Function.update_of_ne (by omega)]

theorem descriptor_without (k : Kernel) (fd : Nat) (n : Int) :
    (k.without fd).descriptor n = if n = fd then none else k.descriptor n :=
  descriptor_update fd none n

theorem create_descriptor {file : File} (created : k.create fd file = some next) :
    k.descriptor fd = none ∧
      ∀ n : Int, next.descriptor n = if n = fd then some ⟨k.made, k.made⟩ else k.descriptor n := by
  unfold create at created
  split at created
  · cases created
  case isFalse free =>
    cases created
    refine ⟨?_, fun n => descriptor_update fd _ n⟩
    unfold descriptor
    rw [if_neg (by omega), Int.toNat_natCast]
    exact Option.not_isSome_iff_eq_none.mp free

theorem create_file {file : File} (created : k.create fd file = some next) :
    next.files k.made = file := by
  unfold create at created
  split at created
  · cases created
  · cases created
    exact Function.update_self _ _ _

theorem dup_descriptor {old : Int} (copied : k.dup old fd = some next) :
    ∃ d, k.descriptor old = some d ∧ k.descriptor fd = none ∧
      (∀ n : Int, next.descriptor n = if n = fd then some ⟨k.made, d.file⟩ else k.descriptor n) ∧
      next.files = k.files := by
  unfold dup at copied
  split at copied
  · cases copied
  case isFalse free =>
    split at copied
    · cases copied
    case h_2 d at_old =>
      cases copied
      refine ⟨d, at_old, ?_, fun n => descriptor_update fd _ n, rfl⟩
      unfold descriptor
      rw [if_neg (by omega), Int.toNat_natCast]
      exact Option.not_isSome_iff_eq_none.mp free

/-- A file in non-blocking mode is open under the number. -/
def Nonblocking (k : Kernel) (fd : Int) : Prop :=
  ∃ flags, k.getfl fd = some flags ∧ flags &&& O_NONBLOCK ≠ 0

theorem getfl_of_descriptor {n : Int} {d : Descriptor} (held : k.descriptor n = some d) :
    k.getfl n = some (k.files d.file).flags := by
  unfold getfl file
  rw [held]
  rfl

theorem nonblocking_iff {n : Int} {d : Descriptor} (held : k.descriptor n = some d) :
    k.Nonblocking n ↔ (k.files d.file).flags &&& O_NONBLOCK ≠ 0 := by
  unfold Nonblocking
  rw [getfl_of_descriptor held]
  constructor
  · rintro ⟨flags, same, set⟩
    cases same
    exact set
  · intro set
    exact ⟨_, rfl, set⟩

theorem create_nonblocking {file : File} (created : k.create fd file = some next) {n : Int}
    (other : n ≠ fd) : next.Nonblocking n ↔ k.Nonblocking n := by
  obtain ⟨-, descriptors⟩ := create_descriptor created
  have held := descriptors n
  rw [if_neg other] at held
  cases at_n : k.descriptor n with
  | none =>
      rw [at_n] at held
      simp only [Nonblocking, getfl, Kernel.file, held, at_n, Option.map_none]
  | some d =>
      rw [at_n] at held
      rw [nonblocking_iff held, nonblocking_iff at_n]
      have old := (k.descriptor_numbered at_n).2
      unfold create at created
      split at created
      · cases created
      · cases created
        change (Function.update k.files k.made file d.file).flags &&& _ ≠ _ ↔ _
        rw [Function.update_of_ne (by omega)]

theorem nonblock_bit (flags : BitVec 32) : flags &&& O_NONBLOCK ≠ 0 ↔ flags.getLsbD 11 = true := by
  rw [show O_NONBLOCK = BitVec.twoPow 32 11 by decide, BitVec.and_twoPow]
  cases flags.getLsbD 11 with
  | false => simp
  | true => decide

theorem setfl_nonblock {arg old : BitVec 32} :
    ((arg &&& SETFL_MASK) ||| (old &&& ~~~SETFL_MASK)) &&& O_NONBLOCK ≠ 0 ↔
      arg &&& O_NONBLOCK ≠ 0 := by
  have settable : SETFL_MASK.getLsbD 11 = true := by decide
  simp only [nonblock_bit, BitVec.getLsbD_or, BitVec.getLsbD_and, BitVec.getLsbD_not, settable]
  simp

/-- Setting a flag besides the requested ones leaves it set, and the other flags as
requested. -/
theorem setfl_or {arg old flag mask : BitVec 32} :
    ((arg ||| flag) &&& mask) ||| ((old ||| flag) &&& ~~~mask) =
      ((arg &&& mask) ||| (old &&& ~~~mask)) ||| flag := by
  apply BitVec.eq_of_getLsbD_eq
  intro i bound
  simp only [BitVec.getLsbD_or, BitVec.getLsbD_and, BitVec.getLsbD_not, bound, decide_true,
    Bool.true_and]
  cases arg.getLsbD i <;> cases old.getLsbD i <;> cases flag.getLsbD i <;>
    cases mask.getLsbD i <;> rfl

theorem setfl_and (flags : BitVec 32) :
    flags ||| O_NONBLOCK =
      ((flags ||| O_NONBLOCK) &&& SETFL_MASK) ||| (flags &&& ~~~SETFL_MASK) := by
  have inside : O_NONBLOCK &&& SETFL_MASK = O_NONBLOCK := by decide
  apply BitVec.eq_of_getLsbD_eq
  intro i bound
  have bit := congrArg (fun x => x.getLsbD i) inside
  simp only [BitVec.getLsbD_and] at bit
  simp only [BitVec.getLsbD_or, BitVec.getLsbD_and, BitVec.getLsbD_not, bound, decide_true,
    Bool.true_and]
  revert bit
  cases flags.getLsbD i <;> cases O_NONBLOCK.getLsbD i <;> cases SETFL_MASK.getLsbD i <;> decide

theorem or_of_set {flags : BitVec 32} (set : flags &&& O_NONBLOCK ≠ 0) :
    flags ||| O_NONBLOCK = flags := by
  have bit := (nonblock_bit flags).mp set
  apply BitVec.eq_of_getLsbD_eq
  intro i bound
  rw [BitVec.getLsbD_or, show O_NONBLOCK = BitVec.twoPow 32 11 by decide, BitVec.getLsbD_twoPow]
  by_cases here : 11 = i
  · subst here
    rw [bit, Bool.true_or]
  · simp [here]

theorem or_or_self (x flag : BitVec 32) : x ||| flag ||| flag = x ||| flag := by
  rw [BitVec.or_assoc, BitVec.or_self]

theorem or_and_not (x flag : BitVec 32) : (x ||| flag) &&& ~~~flag = x &&& ~~~flag := by
  apply BitVec.eq_of_getLsbD_eq
  intro i bound
  simp only [BitVec.getLsbD_or, BitVec.getLsbD_and, BitVec.getLsbD_not, bound, decide_true,
    Bool.true_and]
  cases x.getLsbD i <;> cases flag.getLsbD i <;> rfl

end Kernel

end CorReactor
