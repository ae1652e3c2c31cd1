import CorReactor.FdManager
import Mathlib.Tactic.Ring

set_option autoImplicit false

namespace CorReactor.FdManager

variable {m next : FdManager} {fd fd' : Int} {ctx : CtxId}

/-- The context in the table under a number. -/
def stored (m : FdManager) (fd : Int) : Option CtxId :=
  if fd < 0 then none else (m.m_datas[fd.toNat]?).join

/-- The table's size is an `int`. -/
def Sized (m : FdManager) : Prop := m.m_datas.length < 2 ^ 31

theorem new_sized : new.Sized := by
  unfold Sized new
  rw [List.length_replicate]
  omega

theorem new_stored (fd : Int) : new.stored fd = none := by
  unfold stored new
  rw [List.getElem?_replicate]
  grind

theorem size_eq (sized : m.Sized) : m.size = m.m_datas.length := by
  unfold Sized at sized
  unfold size
  rw [BitVec.toInt_eq_toNat_of_lt (by rw [BitVec.toNat_ofNat]; omega), BitVec.toNat_ofNat]
  omega

theorem stored_eq_none (sized : m.Sized) (beyond : m.size ≤ fd) : m.stored fd = none := by
  rw [size_eq sized] at beyond
  unfold stored
  rw [if_neg (by omega), List.getElem?_eq_none (by omega)]
  rfl

theorem slot_ok {held : Option CtxId} (read : m.slot fd = .ok held) :
    0 ≤ fd ∧ fd.toNat < m.m_datas.length ∧ m.stored fd = held := by
  unfold slot at read
  by_cases negative : fd < 0
  · rw [if_pos negative] at read
    cases read
  · rw [if_neg negative] at read
    unfold stored
    rw [if_neg negative]
    cases at_fd : m.m_datas[fd.toNat]? with
    | none =>
        rw [at_fd] at read
        cases read
    | some entry =>
        rw [at_fd] at read
        cases read
        have inside := (List.getElem?_eq_some_iff.mp at_fd).1
        exact ⟨by omega, inside, rfl⟩

/-- While the size is an `int`, the first phase answers with what is in the table, or goes
on to create what is not there. -/
theorem lookup_sized {auto_create : Bool} {r : Looked} (sized : m.Sized)
    (read : m.lookup fd auto_create = .ok r) :
    (r = .found (m.stored fd) ∧ (auto_create = true → fd = -1 ∨ (m.stored fd).isSome)) ∨
      (r = .missing ∧ m.stored fd = none) := by
  unfold lookup at read
  by_cases none_fd : fd = -1
  · rw [if_pos none_fd] at read
    cases read
    subst none_fd
    exact Or.inl ⟨rfl, fun _ => Or.inl rfl⟩
  · rw [if_neg none_fd] at read
    by_cases beyond : m.size ≤ fd
    · rw [if_pos beyond] at read
      have absent := stored_eq_none sized beyond
      cases auto_create with
      | false =>
          cases read
          refine Or.inl ⟨by rw [absent], ?_⟩
          intro creating
          cases creating
      | true =>
          cases read
          exact Or.inr ⟨rfl, absent⟩
    · rw [if_neg beyond] at read
      cases at_fd : m.slot fd with
      | error fault =>
          rw [at_fd] at read
          cases read
      | ok held =>
          rw [at_fd] at read
          obtain ⟨-, -, same⟩ := slot_ok at_fd
          rw [same]
          dsimp only at read
          cases held with
          | some ctx =>
              cases read
              exact Or.inl ⟨rfl, fun _ => Or.inr rfl⟩
          | none =>
              cases auto_create with
              | false =>
                  cases read
                  refine Or.inl ⟨rfl, ?_⟩
                  intro creating
                  cases creating
              | true =>
                  cases read
                  exact Or.inr ⟨rfl, rfl⟩

theorem lookup_stored {auto_create : Bool} (sized : m.Sized) (held : m.stored fd = some ctx) :
    m.lookup fd auto_create = .ok (.found (some ctx)) := by
  have low : 0 ≤ fd := by
    by_contra negative
    unfold stored at held
    rw [if_pos (by omega)] at held
    cases held
  have inside : ¬ m.size ≤ fd := by
    intro beyond
    rw [stored_eq_none sized beyond] at held
    cases held
  unfold stored at held
  rw [if_neg (by omega), Option.join_eq_some_iff] at held
  unfold lookup slot
  rw [if_neg (by omega), if_neg inside, if_neg (by omega), held]
  rfl

/-- A plain lookup never goes on to create. -/
theorem lookup_plain (fd : Int) : m.lookup fd false ≠ .ok .missing := by
  intro looked
  unfold lookup at looked
  simp only [↓reduceIte, Bool.not_false, Bool.or_true] at looked
  split at looked
  · cases looked
  · split at looked
    · cases looked
    · split at looked <;> cases looked

theorem resize_ok (resized : m.resize fd = .ok next) :
    0 ≤ fd ∧ next.m_datas.length = fd.toNat * 3 / 2 ∧
      ∀ fd' held, next.stored fd' = some held → m.stored fd' = some held := by
  unfold resize at resized
  by_cases negative : fd < 0
  · rw [if_pos negative] at resized
    cases resized
  · rw [if_neg negative] at resized
    cases resized
    refine ⟨by omega, ?_, ?_⟩
    · simp only [List.length_append, List.length_take, List.length_replicate]
      omega
    · intro fd' held
      unfold stored
      by_cases low : fd' < 0
      · rw [if_pos low, if_pos low]
        exact id
      · rw [if_neg low, if_neg low, List.getElem?_append, List.getElem?_replicate,
          List.getElem?_take]
        grind

/-- A growing resize keeps the table. -/
theorem resize_grows (resized : m.resize fd = .ok next) (grows : (m.m_datas.length : Int) ≤ fd) :
    ∀ fd', next.stored fd' = m.stored fd' := by
  unfold resize at resized
  rw [if_neg (by omega)] at resized
  cases resized
  intro fd'
  unfold stored
  rw [List.take_of_length_le (by omega), List.getElem?_append, List.getElem?_replicate]
  grind

theorem stored_set {entry : Option CtxId} (low : 0 ≤ fd) (inside : fd.toNat < m.m_datas.length)
    (fd' : Int) :
    stored ⟨m.m_datas.set fd.toNat entry⟩ fd' = if fd' = fd then entry else m.stored fd' := by
  unfold stored
  by_cases same : fd' = fd
  · subst same
    rw [if_neg (by omega), if_pos rfl, List.getElem?_set_self inside]
    rfl
  · rw [if_neg same]
    by_cases negative : fd' < 0
    · rw [if_pos negative, if_pos negative]
    · rw [if_neg negative, if_neg negative, List.getElem?_set_ne (by omega)]

theorem insert_cases (inserted : m.insert fd ctx = .ok next) :
    ∃ wide, (if m.size ≤ fd then m.resize fd else .ok m) = .ok wide ∧
      0 ≤ fd ∧ fd.toNat < wide.m_datas.length ∧
      next = ⟨wide.m_datas.set fd.toNat (some ctx)⟩ := by
  unfold insert at inserted
  cases first : (if m.size ≤ fd then m.resize fd else Except.ok m) with
  | error fault =>
      rw [first] at inserted
      cases inserted
  | ok wide =>
      rw [first] at inserted
      cases at_fd : wide.slot fd with
      | error fault =>
          simp only [at_fd, reduceCtorEq] at inserted
      | ok held =>
          simp only [at_fd, Except.ok.injEq] at inserted
          obtain ⟨low, inside, -⟩ := slot_ok at_fd
          exact ⟨wide, rfl, low, inside, inserted.symm⟩

/-- The new context is under its number, and no other context comes into the table. -/
theorem insert_stored (inserted : m.insert fd ctx = .ok next) :
    next.stored fd = some ctx ∧
      ∀ fd' held, fd' ≠ fd → next.stored fd' = some held → m.stored fd' = some held := by
  obtain ⟨wide, first, low, inside, rfl⟩ := insert_cases inserted
  refine ⟨by rw [stored_set low inside, if_pos rfl], ?_⟩
  intro fd' held apart at_fd'
  rw [stored_set low inside, if_neg apart] at at_fd'
  split at first
  · exact (resize_ok first).2.2 fd' held at_fd'
  · cases first
    exact at_fd'

/-- The size of the table stays an `int` up to this number. -/
def maxNumber : Int := 1431655765

theorem insert_sized (sized : m.Sized) (small : fd ≤ maxNumber)
    (inserted : m.insert fd ctx = .ok next) :
    next.Sized ∧ 0 ≤ fd ∧ ∀ fd', fd' ≠ fd → next.stored fd' = m.stored fd' := by
  obtain ⟨wide, first, low, inside, rfl⟩ := insert_cases inserted
  have wide_sized : wide.Sized ∧ ∀ fd', wide.stored fd' = m.stored fd' := by
    by_cases beyond : m.size ≤ fd
    · rw [if_pos beyond] at first
      rw [size_eq sized] at beyond
      have length := (resize_ok first).2.1
      refine ⟨?_, resize_grows first beyond⟩
      unfold Sized
      unfold maxNumber at small
      omega
    · rw [if_neg beyond] at first
      cases first
      exact ⟨sized, fun _ => rfl⟩
  refine ⟨?_, low, ?_⟩
  · unfold Sized
    rw [List.length_set]
    exact wide_sized.1
  · intro fd' apart
    rw [stored_set low inside, if_neg apart, wide_sized.2]

theorem del_sized (sized : m.Sized) (deleted : m.del fd = .ok next) :
    next.Sized ∧ next.stored fd = none ∧
      ∀ fd' held, next.stored fd' = some held → m.stored fd' = some held := by
  unfold del at deleted
  by_cases beyond : m.size ≤ fd
  · rw [if_pos beyond] at deleted
    cases deleted
    exact ⟨sized, stored_eq_none sized beyond, fun _ _ held => held⟩
  · rw [if_neg beyond] at deleted
    cases at_fd : m.slot fd with
    | error fault =>
        simp only [at_fd, reduceCtorEq] at deleted
    | ok old =>
        simp only [at_fd, Except.ok.injEq] at deleted
        obtain ⟨low, inside, -⟩ := slot_ok at_fd
        subst deleted
        refine ⟨?_, by rw [stored_set low inside, if_pos rfl], ?_⟩
        · unfold Sized
          rw [List.length_set]
          exact sized
        intro fd' held
        rw [stored_set low inside]
        split
        · intro none_held
          cases none_held
        · exact id

end CorReactor.FdManager
