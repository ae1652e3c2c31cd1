import CorReactor.FdManagerTable
import CorReactor.IOManagerSlots
import CorReactor.Socket

set_option autoImplicit false

/-! The indices into the two vectors by descriptors, over calls in any order. -/

namespace CorReactor

variable {β : Type}

/-- `FdManager::get`, with the address of the context that it makes if it makes one. -/
def FdManager.get (m : FdManager) (fd : Int) (auto_create : Bool) (ctx : CtxId) :
    Except FdFault (Option CtxId × FdManager) :=
  match m.lookup fd auto_create with
  | .error fault => .error fault
  | .ok (.found held) => .ok (held, m)
  | .ok .missing => (m.insert fd ctx).map fun next => (some ctx, next)

/-- It is what the manager does in `Fds.get`. -/
theorem Fds.get_mgr (s : Fds) (fd : Int) (auto_create : Bool) :
    (s.get fd auto_create).map (fun r => (r.1, r.2.mgr)) =
      s.mgr.get fd auto_create s.ctxs.length := by
  unfold Fds.get FdManager.get
  cases s.mgr.lookup fd auto_create with
  | error fault => rfl
  | ok looked =>
      cases looked with
      | found held => rfl
      | missing =>
          simp only [Fds.create]
          cases s.mgr.insert fd s.ctxs.length <;> rfl

namespace Socket

/-- `m_sock`. -/
def number (sock : Socket) : Int := (sock.m_sock.map Int.ofNat).getD (-1)

def cancelRead (sock : Socket) : Bool → IOOp β := .cancelEvent sock.number .READ

def cancelWrite (sock : Socket) : Bool → IOOp β := .cancelEvent sock.number .WRITE

def cancelAccept (sock : Socket) : Bool → IOOp β := .cancelEvent sock.number .READ

def cancelAll (sock : Socket) : Bool → IOOp β := .cancelAll sock.number

end Socket

/-- `m_fdContexts` with its manager, and `m_datas`. -/
structure Vectors (β : Type) where
  iom : IOManager β
  mgr : FdManager

inductive VectorCall (β : Type)
  | events (op : IOOp β)
  | get (fd : Int) (auto_create : Bool) (ctx : CtxId)
  | del (fd : Int)

/-- A fault of an index or of a size, and not a failed assertion. -/
def IOFault.ofIndex : IOFault → Bool
  | .badIndex | .overflow | .endless => true
  | _ => false

def IOOp.index : IOOp β → Int
  | .addEvent _ fd _ _ _ | .delEvent fd _ _ | .cancelEvent fd _ _ | .cancelAll fd _ => fd
  | .deliver fd _ _ => fd

def IORet.Rejected : IORet → Prop
  | .added rt => rt = -1
  | .done ok => ok = false
  | .delivered => False

/-- How a call treats a vector by the descriptor that it gets: a negative one is rejected, one
below the size is used, and a larger one is rejected or made to fit. -/
structure Guarded {α : Type} (fd : Int) (rejected : Prop) (before after : List α) : Prop where
  negative : fd < 0 → rejected ∧ after = before
  direct : 0 ≤ fd → fd < before.length → after.length = before.length
  beyond : before.length ≤ fd → (rejected ∧ after = before) ∨ fd < after.length
  kept : ∀ i < before.length, (i : Int) ≠ fd → after[i]? = before[i]?

namespace Vectors

def new : Vectors β := ⟨IOManager.new, FdManager.new⟩

def step : Transition.Step (Vectors β) (VectorCall β) Unit := fun s call =>
  match call with
  | .events op => (s.iom.exec op).toOption.map fun r => ((), { s with iom := r.2 })
  | .get fd auto_create ctx =>
      (s.mgr.get fd auto_create ctx).toOption.map fun r => ((), { s with mgr := r.2 })
  | .del fd => (s.mgr.del fd).toOption.map fun mgr => ((), { s with mgr := mgr })

/-- What is expected of a call: no access is out of bounds, no size overflows, and the loop of
`addEvent` ends. -/
def Safe (s : Vectors β) : VectorCall β → Prop
  | .events op =>
      (∀ fault, s.iom.exec op = .error fault → fault.ofIndex = false) ∧
        ∀ out iom, s.iom.exec op = .ok (out, iom) →
          Guarded op.index out.ret.Rejected s.iom.m_fdContexts iom.m_fdContexts
  | .get fd auto_create ctx =>
      ∃ got mgr, s.mgr.get fd auto_create ctx = .ok (got, mgr) ∧
        Guarded fd (got = none) s.mgr.m_datas mgr.m_datas ∧
        ∀ held, 0 ≤ fd → s.mgr.m_datas[fd.toNat]? = some held →
          if held.isSome || !auto_create then got = held else got = some ctx
  | .del fd =>
      ∃ mgr, s.mgr.del fd = .ok mgr ∧ Guarded fd True s.mgr.m_datas mgr.m_datas ∧
        (0 ≤ fd → fd < s.mgr.m_datas.length → mgr.m_datas[fd.toNat]? = some none)

/-- No negative descriptor but the -1 of `get`, none from 2^30 on that `addEvent` has to grow
for, and no call on a table whose size is no `int`. The kernel reports only what it got. -/
def Meets (s : Vectors β) : VectorCall β → Prop
  | .events (.addEvent _ fd _ _ _) =>
      0 ≤ fd ∧ (fd < s.iom.m_fdContexts.length ∨ fd < 2 ^ 30)
  | .events (.delEvent fd _ _) | .events (.cancelEvent fd _ _) | .events (.cancelAll fd _) =>
      0 ≤ fd
  | .events (.deliver fd _ _) => fd < s.iom.m_fdContexts.length
  | .get fd _ _ => (fd = -1 ∨ 0 ≤ fd) ∧ s.mgr.Sized
  | .del fd => 0 ≤ fd ∧ s.mgr.Sized

instance (s : Vectors β) : (call : VectorCall β) → Decidable (s.Meets call)
  | .events (.addEvent _ _ _ _ _) => inferInstanceAs (Decidable (_ ∧ (_ ∨ _)))
  | .events (.delEvent fd _ _) | .events (.cancelEvent fd _ _) | .events (.cancelAll fd _) =>
      inferInstanceAs (Decidable (0 ≤ fd))
  | .events (.deliver fd _ _) => inferInstanceAs (Decidable (fd < s.iom.m_fdContexts.length))
  | .get fd _ _ =>
      inferInstanceAs (Decidable ((fd = -1 ∨ 0 ≤ fd) ∧ s.mgr.m_datas.length < 2 ^ 31))
  | .del fd => inferInstanceAs (Decidable (0 ≤ fd ∧ s.mgr.m_datas.length < 2 ^ 31))

/-- The vectors are never empty, and the size of the contexts is an `int`. -/
structure Inv (s : Vectors β) : Prop where
  contexts : 0 < s.iom.m_fdContexts.length
  int : s.iom.m_fdContexts.length < 2 ^ 31
  table : 1 < s.mgr.m_datas.length

end Vectors

/-! ### Accesses -/

namespace IOManager

variable {m next : IOManager β} {fd : Int}

theorem contextAt_inside (low : 0 ≤ fd) (inside : fd < m.m_fdContexts.length) :
    ∃ fd_ctx, m.contextAt fd = .ok fd_ctx := by
  have within : fd.toNat < m.m_fdContexts.length := by omega
  refine ⟨m.m_fdContexts[fd.toNat], ?_⟩
  rw [contextAt, if_neg (by omega), List.getElem?_eq_getElem within]

theorem contextResize_kept {size i : Nat} (inside : i < m.m_fdContexts.length)
    (grows : m.m_fdContexts.length ≤ size) :
    (m.contextResize size).m_fdContexts[i]? = m.m_fdContexts[i]? := by
  simp only [contextResize]
  rw [List.take_of_length_le grows, List.getElem?_append_left inside]

/-- The loop of `addEvent` ends: at once, or after one turn that grows the vector. -/
theorem findContext_meets (low : 0 ≤ fd)
    (fits : fd < m.m_fdContexts.length ∨ fd < 2 ^ 30) (nonempty : 0 < m.m_fdContexts.length) :
    ∃ fd_ctx next, m.findContext fd = .ok (fd_ctx, next) ∧ fd < next.m_fdContexts.length ∧
      (next = m ∨ m.m_fdContexts.length ≤ fd ∧ fd < 2 ^ 30 ∧
        next = m.contextResize (fd * 2).toNat) := by
  by_cases inside : fd < m.m_fdContexts.length
  · obtain ⟨fd_ctx, found⟩ := contextAt_inside low inside
    refine ⟨fd_ctx, m, ?_, inside, Or.inl rfl⟩
    rw [findContext, if_pos inside, found]
    rfl
  · have small : fd < 2 ^ 30 := fits.resolve_left inside
    have grown : fd < (m.contextResize (fd * 2).toNat).m_fdContexts.length := by
      rw [contextResize_length]
      omega
    obtain ⟨fd_ctx, found⟩ := contextAt_inside low grown
    refine ⟨fd_ctx, m.contextResize (fd * 2).toNat, ?_, grown, Or.inr ⟨by omega, small, rfl⟩⟩
    rw [findContext, if_neg inside, if_neg (by omega)]
    simp only [grown, ↓reduceIte, found]
    rfl

/-- A fault that is none of an index, or at most the one context is changed. -/
def Sound {ρ : Type} (m : IOManager β) (fd : Nat) : Except IOFault (ρ × IOManager β) → Prop
  | .error fault => fault.ofIndex = false
  | .ok (_, next) => next.m_fdContexts = m.m_fdContexts ∨
      ∃ fd_ctx, next.m_fdContexts = m.m_fdContexts.set fd fd_ctx

theorem store_sound {mid : IOManager β} (same : mid.m_fdContexts = m.m_fdContexts) (fd : Nat)
    (fd_ctx : FdContext β) : (mid.store fd fd_ctx).m_fdContexts = m.m_fdContexts ∨
      ∃ entry, (mid.store fd fd_ctx).m_fdContexts = m.m_fdContexts.set fd entry :=
  Or.inr ⟨fd_ctx, by rw [IOManager.store, same]⟩

/-- The guard of `delEvent`, `cancelEvent` and `cancelAll`. -/
theorem Sound.of_guard {ρ : Type} {fd : Int} (low : 0 ≤ fd) {r : ρ}
    {rest : FdContext β → Except IOFault (ρ × IOManager β)}
    (sound : ∀ fd_ctx, Sound m fd.toNat (rest fd_ctx)) :
    Sound m fd.toNat
      (if m.m_fdContexts.length ≤ fd then .ok (r, m)
      else
        match m.contextAt fd with
        | .error fault => .error fault
        | .ok fd_ctx => rest fd_ctx) := by
  by_cases outside : m.m_fdContexts.length ≤ fd
  · rw [if_pos outside]
    exact Or.inl rfl
  · obtain ⟨fd_ctx, found⟩ := contextAt_inside low (Int.not_le.mp outside)
    rw [if_neg outside, found]
    exact sound fd_ctx

/-- A change that the kernel refuses leaves the manager as it was. -/
theorem Sound.of_epoll {ρ : Type} {at_fd fd : Nat} {op : EpollOp} {events : BitVec 32}
    {granted : Bool} {r : ρ} {rest : IOManager β → Except IOFault (ρ × IOManager β)}
    (sound : ∀ changed : IOManager β, changed.m_fdContexts = m.m_fdContexts →
      Sound m at_fd (rest changed)) :
    Sound m at_fd
      (match m.epoll_ctl op fd events granted with
      | none => .ok (r, m)
      | some changed => rest changed) := by
  cases taken : m.epoll_ctl op fd events granted with
  | none => exact Or.inl rfl
  | some changed => exact sound changed (epoll_ctl_some taken).2.1

end IOManager

/-! ### Faults -/

namespace FdContext

variable {fd_ctx : FdContext β} {event : Event} {fault : IOFault}

theorem getContext_fault (failed : fd_ctx.getContext event = .error fault) :
    fault.ofIndex = false := by
  cases event <;> cases failed
  rfl

theorem triggerEvent_fault (failed : fd_ctx.triggerEvent event = .error fault) :
    fault.ofIndex = false := by
  unfold triggerEvent at failed
  split at failed
  · cases failed
    rfl
  · dsimp only at failed
    split at failed
    · rename_i missing
      cases failed
      exact getContext_fault missing
    · split at failed
      · cases failed
        rfl
      · cases failed

theorem triggerIf_fault {due : Bool} {r : List (Delivery β) × FdContext β × UInt64}
    (failed : triggerIf due event r = .error fault) : fault.ofIndex = false := by
  unfold triggerIf at failed
  split at failed
  · split at failed
    · rename_i missing
      cases failed
      exact triggerEvent_fault missing
    · cases failed
  · cases failed

theorem registerEvent_fault {caller : Caller} {cb : Option β}
    (failed : fd_ctx.registerEvent caller event cb = .error fault) : fault.ofIndex = false := by
  unfold registerEvent at failed
  dsimp only at failed
  split at failed
  · rename_i missing
    cases failed
    exact getContext_fault missing
  · split at failed
    · cases failed
      rfl
    · split at failed
      · cases failed
      · split at failed
        · cases failed
          rfl
        · cases failed

end FdContext

/-! ### One call of the manager of events -/

namespace IOManager

variable {m next : IOManager β} {fd : Int}

theorem delEvent_sound (m : IOManager β) (low : 0 ≤ fd) (event : Event) (granted : Bool) :
    Sound m fd.toNat (m.delEvent fd event granted) := by
  unfold delEvent
  refine Sound.of_guard low fun fd_ctx => ?_
  dsimp only
  split
  · exact Or.inl rfl
  · refine Sound.of_epoll fun changed same => ?_
    split
    · rename_i missing
      exact FdContext.getContext_fault missing
    · exact store_sound same fd.toNat _

theorem cancelEvent_sound (m : IOManager β) (low : 0 ≤ fd) (event : Event) (granted : Bool) :
    Sound m fd.toNat (m.cancelEvent fd event granted) := by
  unfold cancelEvent
  refine Sound.of_guard low fun fd_ctx => ?_
  dsimp only
  split
  · exact Or.inl rfl
  · refine Sound.of_epoll fun changed same => ?_
    split
    · rename_i failed
      exact FdContext.triggerEvent_fault failed
    · exact store_sound same fd.toNat _

theorem cancelAll_sound (m : IOManager β) (low : 0 ≤ fd) (granted : Bool) :
    Sound m fd.toNat (m.cancelAll fd granted) := by
  unfold cancelAll
  refine Sound.of_guard low fun fd_ctx => ?_
  dsimp only
  split
  · exact Or.inl rfl
  · refine Sound.of_epoll fun changed same => ?_
    split
    · rename_i failed
      exact FdContext.triggerIf_fault failed
    · split
      · rename_i failed
        exact FdContext.triggerIf_fault failed
      · split
        · rfl
        · exact store_sound same fd.toNat _

theorem deliver_sound (m : IOManager β) {fd : Nat} (inside : fd < m.m_fdContexts.length)
    (events : BitVec 32) (granted : Bool) : Sound m fd (m.deliver fd events granted) := by
  unfold deliver
  rw [List.getElem?_eq_getElem inside]
  dsimp only
  split
  · exact Or.inl rfl
  · refine Sound.of_epoll fun changed same => ?_
    split
    · rename_i failed
      exact FdContext.triggerIf_fault failed
    · split
      · rename_i failed
        exact FdContext.triggerIf_fault failed
      · exact store_sound same fd _

/-- Behind the loop `addEvent` changes the context that the loop has found. -/
theorem addEvent_sound {fd_ctx : FdContext β} (found : m.findContext fd = .ok (fd_ctx, next))
    (caller : Caller) (event : Event) (cb : Option β) (granted : Bool) :
    Sound next fd.toNat (m.addEvent caller fd event cb granted) := by
  unfold addEvent
  rw [found]
  dsimp only
  split
  · rfl
  · refine Sound.of_epoll fun changed same => ?_
    split
    · rename_i failed
      exact FdContext.registerEvent_fault failed
    · exact store_sound same fd.toNat _

end IOManager

/-! ### Vectors -/

section Guards

variable {α : Type} {fd : Int} {rejected : Prop} {before after : List α}

/-- An access below the size, or to nothing. -/
theorem Guarded.of_set (low : 0 ≤ fd)
    (changed : after = before ∨ ∃ entry, after = before.set fd.toNat entry)
    (outside : before.length ≤ fd → rejected ∧ after = before) :
    Guarded fd rejected before after where
  negative negative := absurd low (Int.not_le.mpr negative)
  direct _ _ := by
    obtain rfl | ⟨entry, rfl⟩ := changed
    · rfl
    · exact List.length_set
  beyond past := Or.inl (outside past)
  kept i _ apart := by
    obtain rfl | ⟨entry, rfl⟩ := changed
    · rfl
    · exact List.getElem?_set_ne (by omega)

/-- An access to a vector that has been made large enough. -/
theorem Guarded.of_grown {grown : List α} (past : before.length ≤ fd) (fits : fd < grown.length)
    (same : ∀ i < before.length, grown[i]? = before[i]?)
    (changed : after = grown ∨ ∃ entry, after = grown.set fd.toNat entry) :
    Guarded fd rejected before after where
  negative negative := by omega
  direct _ inside := by omega
  beyond _ := by
    obtain rfl | ⟨entry, rfl⟩ := changed
    · exact Or.inr fits
    · rw [List.length_set]
      exact Or.inr fits
  kept i inside apart := by
    obtain rfl | ⟨entry, rfl⟩ := changed
    · exact same i inside
    · rw [List.getElem?_set_ne (by omega), same i inside]

/-- The vector does not shrink. -/
theorem Guarded.length_le (guarded : Guarded fd rejected before after) :
    before.length ≤ after.length := by
  by_cases negative : fd < 0
  · rw [(guarded.negative negative).2]
  · by_cases inside : fd < before.length
    · rw [guarded.direct (by omega) inside]
    · obtain ⟨-, same⟩ | fits := guarded.beyond (by omega)
      · rw [same]
      · omega

end Guards

namespace Vectors

variable {s t : Vectors β} {fd : Int}

/-! ### Calls -/

/-- What a manager's operation gives: a fault of no index, or a vector that was guarded and whose
size stays an `int`. -/
def Kept (m : IOManager β) (fd : Int) (r : Except IOFault (Outcome β × IOManager β)) : Prop :=
  (∀ fault, r = .error fault → fault.ofIndex = false) ∧
    ∀ out iom, r = .ok (out, iom) →
      Guarded fd out.ret.Rejected m.m_fdContexts iom.m_fdContexts ∧
        (m.m_fdContexts.length < 2 ^ 31 → iom.m_fdContexts.length < 2 ^ 31)

/-- An operation that looks at one context and leaves the size of the vector. -/
theorem kept_of_sound {ρ : Type} {m : IOManager β} {r : Except IOFault (ρ × IOManager β)}
    (f : ρ → Outcome β) (low : 0 ≤ fd) (sound : IOManager.Sound m fd.toNat r)
    (outside : m.m_fdContexts.length ≤ fd → ∃ x, r = .ok (x, m) ∧ (f x).ret.Rejected) :
    Kept m fd (r.map fun x => (f x.1, x.2)) := by
  cases r with
  | error fault =>
      refine ⟨fun fault' failed => ?_, fun out iom done => by cases done⟩
      cases failed
      exact sound
  | ok x =>
      refine ⟨fun fault failed => (by cases failed), fun out iom done => ?_⟩
      cases done
      refine ⟨Guarded.of_set low sound fun past => ?_, fun int => ?_⟩
      · obtain ⟨y, same, rejected⟩ := outside past
        cases same
        exact ⟨rejected, rfl⟩
      · obtain same | ⟨fd_ctx, same⟩ := sound
        · rw [same]
          exact int
        · rw [same, List.length_set]
          exact int

theorem addEvent_kept {m : IOManager β} (low : 0 ≤ fd)
    (fits : fd < m.m_fdContexts.length ∨ fd < 2 ^ 30) (nonempty : 0 < m.m_fdContexts.length)
    (caller : Caller) (event : Event) (cb : Option β) (granted : Bool) :
    Kept m fd (m.exec (.addEvent caller fd event cb granted)) := by
  obtain ⟨fd_ctx, next, found, inside, grown⟩ := IOManager.findContext_meets low fits nonempty
  have sound := IOManager.addEvent_sound found caller event cb granted
  simp only [IOManager.exec]
  cases result : m.addEvent caller fd event cb granted with
  | error fault =>
      rw [result] at sound
      refine ⟨fun fault' failed => ?_, fun out iom done => by cases done⟩
      cases failed
      exact sound
  | ok x =>
      rw [result] at sound
      refine ⟨fun fault failed => (by cases failed), fun out iom done => ?_⟩
      cases done
      have length : x.2.m_fdContexts.length = next.m_fdContexts.length := by
        obtain same | ⟨entry, same⟩ := sound
        · rw [same]
        · rw [same, List.length_set]
      obtain rfl | ⟨past, small, rfl⟩ := grown
      · refine ⟨Guarded.of_set low sound fun past => absurd inside (Int.not_lt.mpr past), ?_⟩
        rw [length]
        exact id
      · refine ⟨Guarded.of_grown past inside (fun i within => ?_) sound, fun _ => ?_⟩
        · exact IOManager.contextResize_kept within (by omega)
        · rw [length, IOManager.contextResize_length]
          omega

theorem exec_kept {op : IOOp β} (inv : s.Inv) (meets : s.Meets (.events op)) :
    Kept s.iom op.index (s.iom.exec op) := by
  cases op with
  | addEvent caller fd event cb granted =>
      exact addEvent_kept meets.1 meets.2 inv.contexts caller event cb granted
  | delEvent fd event granted =>
      refine kept_of_sound (fun ok => ⟨.done ok, []⟩) meets
        (IOManager.delEvent_sound s.iom meets event granted) fun past => ⟨false, ?_, rfl⟩
      exact if_pos past
  | cancelEvent fd event granted =>
      refine kept_of_sound (fun x : Bool × List (Delivery β) => ⟨.done x.1, x.2⟩) meets
        (IOManager.cancelEvent_sound s.iom meets event granted) fun past => ⟨(false, []), ?_, rfl⟩
      exact if_pos past
  | cancelAll fd granted =>
      refine kept_of_sound (fun x : Bool × List (Delivery β) => ⟨.done x.1, x.2⟩) meets
        (IOManager.cancelAll_sound s.iom meets granted) fun past => ⟨(false, []), ?_, rfl⟩
      exact if_pos past
  | deliver fd events granted =>
      have inside : fd < s.iom.m_fdContexts.length := meets
      refine kept_of_sound (fun deliveries => ⟨.delivered, deliveries⟩) (Int.natCast_nonneg fd)
        (IOManager.deliver_sound s.iom inside events granted) fun past => ?_
      have past' : s.iom.m_fdContexts.length ≤ fd := Int.ofNat_le.mp past
      exact absurd inside (Nat.not_lt.mpr past')

end Vectors

namespace FdManager

variable {m : FdManager} {fd : Int}

theorem slot_inside (low : 0 ≤ fd) (inside : fd.toNat < m.m_datas.length) :
    m.slot fd = .ok m.m_datas[fd.toNat] := by
  rw [slot, if_neg (by omega), List.getElem?_eq_getElem inside]

theorem lookup_outside (low : 0 ≤ fd) (sized : m.Sized) (outside : m.m_datas.length ≤ fd)
    (auto_create : Bool) :
    m.lookup fd auto_create = .ok (if auto_create then .missing else .found none) := by
  rw [lookup, if_neg (by omega), if_pos (by rw [size_eq sized]; exact outside)]
  cases auto_create <;> rfl

theorem lookup_inside (low : 0 ≤ fd) (sized : m.Sized) (inside : fd.toNat < m.m_datas.length)
    (auto_create : Bool) :
    m.lookup fd auto_create =
      .ok (if m.m_datas[fd.toNat].isSome || !auto_create then .found m.m_datas[fd.toNat]
        else .missing) := by
  have within : ¬m.size ≤ fd := by
    rw [size_eq sized]
    omega
  rw [lookup, if_neg (by omega), if_neg within, slot_inside low inside]
  dsimp only
  split <;> rfl

/-- A new context goes to its place, which `resize` makes if there is none. -/
theorem insert_eq (low : 0 ≤ fd) (sized : m.Sized) (table : 1 < m.m_datas.length) (ctx : CtxId) :
    ∃ wide, m.insert fd ctx = .ok ⟨wide.set fd.toNat (some ctx)⟩ ∧ fd < wide.length ∧
      (wide = m.m_datas ∨ m.m_datas.length ≤ fd ∧
        ∀ i < m.m_datas.length, wide[i]? = m.m_datas[i]?) := by
  by_cases outside : m.size ≤ fd
  · have past : m.m_datas.length ≤ fd := by
      rw [size_eq sized] at outside
      exact outside
    let size := fd.toNat * 3 / 2
    let wide := m.m_datas.take size ++ List.replicate (size - m.m_datas.length) none
    have length : wide.length = size := by
      simp only [wide, size, List.length_append, List.length_take, List.length_replicate]
      omega
    have fits : fd.toNat < wide.length := by
      rw [length]
      omega
    have resized : m.resize fd = .ok ⟨wide⟩ := if_neg (by omega)
    refine ⟨wide, ?_, by omega, Or.inr ⟨past, fun i inside => ?_⟩⟩
    · rw [insert, if_pos outside, resized]
      dsimp only
      rw [slot_inside low fits]
    · simp only [wide]
      rw [List.take_of_length_le (by omega), List.getElem?_append_left inside]
  · have inside : fd.toNat < m.m_datas.length := by
      rw [size_eq sized] at outside
      omega
    refine ⟨m.m_datas, ?_, by omega, Or.inl rfl⟩
    rw [insert, if_neg outside]
    dsimp only
    rw [slot_inside low inside]

end FdManager

namespace Vectors

variable {s t : Vectors β} {fd : Int}

theorem get_minus_one (m : FdManager) (auto_create : Bool) (ctx : CtxId) :
    m.get (-1) auto_create ctx = .ok (none, m) := rfl

theorem get_safe {auto_create : Bool} {ctx : CtxId} (inv : s.Inv)
    (meets : s.Meets (.get fd auto_create ctx)) : s.Safe (.get fd auto_create ctx) := by
  obtain ⟨number, sized⟩ := meets
  obtain rfl | low := number
  · refine ⟨none, s.mgr, get_minus_one s.mgr auto_create ctx, ?_, fun held low => by omega⟩
    exact ⟨fun _ => ⟨rfl, rfl⟩, fun low => (by omega), fun _ => Or.inl ⟨rfl, rfl⟩, fun _ _ _ => rfl⟩
  · by_cases inside : fd.toNat < s.mgr.m_datas.length
    · have looked := FdManager.lookup_inside low sized inside auto_create
      by_cases found : s.mgr.m_datas[fd.toNat].isSome || !auto_create
      · rw [if_pos found] at looked
        refine ⟨s.mgr.m_datas[fd.toNat], s.mgr, by rw [FdManager.get, looked], ?_, ?_⟩
        · exact Guarded.of_set low (Or.inl rfl) fun past => by omega
        · intro held _ same
          rw [List.getElem?_eq_getElem inside] at same
          rw [← Option.some_inj.mp same, if_pos found]
      · rw [if_neg found] at looked
        obtain ⟨wide, inserted, fits, grown⟩ := FdManager.insert_eq low sized inv.table ctx
        obtain rfl | ⟨past, -⟩ := grown
        · refine ⟨some ctx, ⟨s.mgr.m_datas.set fd.toNat (some ctx)⟩, ?_, ?_, ?_⟩
          · rw [FdManager.get, looked]
            dsimp only
            rw [inserted]
            rfl
          · exact Guarded.of_set low (Or.inr ⟨some ctx, rfl⟩) fun past => by omega
          · intro held _ same
            rw [List.getElem?_eq_getElem inside] at same
            rw [← Option.some_inj.mp same, if_neg found]
        · omega
    · have past : s.mgr.m_datas.length ≤ fd := by omega
      have nowhere : ∀ held, 0 ≤ fd → s.mgr.m_datas[fd.toNat]? = some held → False := by
        intro held _ same
        exact inside (List.getElem?_eq_some_iff.mp same).1
      have looked := FdManager.lookup_outside low sized past auto_create
      cases auto_create with
      | false =>
          refine ⟨none, s.mgr, by rw [FdManager.get, looked]; rfl, ?_,
            fun held low same => (nowhere held low same).elim⟩
          exact Guarded.of_set low (Or.inl rfl) fun _ => ⟨rfl, rfl⟩
      | true =>
          obtain ⟨wide, inserted, fits, grown⟩ := FdManager.insert_eq low sized inv.table ctx
          obtain rfl | ⟨-, same⟩ := grown
          · omega
          · refine ⟨some ctx, ⟨wide.set fd.toNat (some ctx)⟩, ?_, ?_,
              fun held low same => (nowhere held low same).elim⟩
            · rw [FdManager.get, looked]
              rw [if_pos rfl]
              dsimp only
              rw [inserted]
              rfl
            · exact Guarded.of_grown past fits same (Or.inr ⟨some ctx, rfl⟩)

theorem del_safe (meets : s.Meets (.del fd)) : s.Safe (.del fd) := by
  obtain ⟨low, sized⟩ := meets
  by_cases inside : fd.toNat < s.mgr.m_datas.length
  · refine ⟨⟨s.mgr.m_datas.set fd.toNat none⟩, ?_, ?_, fun _ _ => ?_⟩
    · rw [FdManager.del, if_neg (by rw [FdManager.size_eq sized]; omega),
        FdManager.slot_inside low inside]
    · exact Guarded.of_set low (Or.inr ⟨none, rfl⟩) fun past => by omega
    · exact List.getElem?_set_self inside
  · refine ⟨s.mgr, ?_, ?_, fun _ below => by omega⟩
    · rw [FdManager.del, if_pos (by rw [FdManager.size_eq sized]; omega)]
    · exact Guarded.of_set low (Or.inl rfl) fun _ => ⟨trivial, rfl⟩

theorem safe_of_meets {call : VectorCall β} (inv : s.Inv) (meets : s.Meets call) :
    s.Safe call := by
  cases call with
  | events op =>
      have kept := exec_kept inv meets
      exact ⟨kept.1, fun out iom done => (kept.2 out iom done).1⟩
  | get fd auto_create ctx => exact get_safe inv meets
  | del fd => exact del_safe meets

/-! ### Runs -/

theorem new_inv : (new : Vectors β).Inv where
  contexts := by
    rw [new, IOManager.new, IOManager.contextResize_length]
    decide
  int := by
    rw [new, IOManager.new, IOManager.contextResize_length]
    decide
  table := by
    rw [new, FdManager.new, List.length_replicate]
    decide

theorem Inv.step {call : VectorCall β} (inv : s.Inv) (meets : s.Meets call)
    (taken : Vectors.step s call = some ((), t)) : t.Inv := by
  have safe := safe_of_meets inv meets
  cases call with
  | events op =>
      have kept := (exec_kept inv meets).2
      simp only [Vectors.step, Option.map_eq_some_iff, Prod.mk.injEq, true_and] at taken
      obtain ⟨x, done, rfl⟩ := taken
      cases result : s.iom.exec op with
      | error fault =>
          rw [result] at done
          cases done
      | ok y =>
          rw [result] at done
          cases done
          obtain ⟨guarded, int⟩ := kept x.1 x.2 result
          exact ⟨Nat.lt_of_lt_of_le inv.contexts guarded.length_le, int inv.int, inv.table⟩
  | get fd auto_create ctx =>
      obtain ⟨got, mgr, result, guarded, -⟩ := safe
      simp only [Vectors.step, result, Except.toOption, Option.map_some, Option.some.injEq,
        Prod.mk.injEq, true_and] at taken
      obtain rfl := taken
      exact ⟨inv.contexts, inv.int, Nat.lt_of_lt_of_le inv.table guarded.length_le⟩
  | del fd =>
      obtain ⟨mgr, result, guarded, -⟩ := safe
      simp only [Vectors.step, result, Except.toOption, Option.map_some, Option.some.injEq,
        Prod.mk.injEq, true_and] at taken
      obtain rfl := taken
      exact ⟨inv.contexts, inv.int, Nat.lt_of_lt_of_le inv.table guarded.length_le⟩

/-- In every run whose calls all meet the condition, every call is safe. -/
theorem run_indices (calls : List (VectorCall β))
    (meets : Transition.Along step Meets (new : Vectors β) calls) :
    Transition.Along step Safe (new : Vectors β) calls :=
  Transition.Along.of_invariant (fun s _ (inv : s.Inv) meets => safe_of_meets inv meets)
    (fun s _ _ _ (inv : s.Inv) meets taken => inv.step meets taken) new_inv meets

/-- A descriptor to grow for on either side, and a closed socket's number to `get`. -/
def fitting : List (VectorCall Unit) :=
  [.get 70 true 0, .events (.addEvent ⟨some 0, 0, .EXEC⟩ 40 .READ none true),
    .events (.cancelAll 40 true), .get (-1) true 1, .del 70]

theorem run_indices_fitting : Transition.Along step Safe (new : Vectors Unit) fitting :=
  run_indices fitting (by decide)

/-- A closed socket cancels its events under the number -1, and `del` looks at no sign. -/
theorem run_indices_broken :
    ¬Transition.Along step Safe (new : Vectors Unit)
        [.events (Socket.cancelAll ⟨none, AF_INET, false, none, none⟩ true)] ∧
      ¬Transition.Along step Safe (new : Vectors Unit) [.del (-1)] ∧
      ¬Transition.Along step Safe (new : Vectors Unit)
        [.events (.addEvent ⟨some 0, 0, .EXEC⟩ (2 ^ 30) .READ none true)] := by
  refine ⟨?_, ?_, ?_⟩
  · intro safe
    exact absurd (safe.1.1 .badIndex rfl) (by decide)
  · intro safe
    obtain ⟨mgr, done, -⟩ := safe.1
    cases done
  · intro safe
    exact absurd (safe.1.1 .overflow rfl) (by decide)

end Vectors

end CorReactor
