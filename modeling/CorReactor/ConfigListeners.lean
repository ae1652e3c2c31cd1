import CorReactor.Transition
import Mathlib.Data.List.Chain
import Mathlib.Data.List.Nodup
import Mathlib.Logic.Function.Basic

set_option autoImplicit false

/-! Threads in `ConfigVar<T>::setValue` and `fromString` of one variable: the listeners are
notified under the read lock, the value is stored under the write lock. -/

namespace CorReactor

variable {α : Type}

/-- Where a thread stands in `setValue`. -/
inductive SetPc (α : Type)
  | idle
  | notifying (v : α) (remaining : List Nat)
  | storing (v : α)
  deriving DecidableEq

/-- The listeners that the loop still comes to. -/
def SetPc.remaining : SetPc α → List Nat
  | .notifying _ remaining => remaining
  | .idle | .storing _ => []

/-- The value that the call is going to store. -/
def SetPc.pending : SetPc α → Option α
  | .notifying v _ | .storing v => some v
  | .idle => none

/-- The loop over the listeners, and behind it the write lock. -/
def SetPc.loop (v : α) (remaining : List Nat) : SetPc α :=
  if remaining = [] then .storing v else .notifying v remaining

/-- A `ConfigVar` (`m_cbs` by its keys) with its threads, and what each listener has been
called with. -/
structure VarRun (α : Type) where
  m_val : α
  m_cbs : List Nat
  s_fun_id : Nat
  calls : List (SetPc α)
  heard : Nat → List (α × α)

inductive VarOp (α : Type)
  | setValue (thread : Nat) (v : α)
  | fromString (thread : Nat) (parsed : Option α)
  | notify (thread : Nat) (throws : Bool)
  | store (thread : Nat)
  | addListener
  | delListener (key : Nat)
  | clearListener

namespace VarRun

/-- A new variable without listeners. -/
def boot (default_value : α) (threads : Nat) : VarRun α :=
  ⟨default_value, [], 0, List.replicate threads .idle, fun _ => []⟩

/-- No thread holds the read lock. -/
def unread (s : VarRun α) : Bool := s.calls.all fun call => call.remaining.isEmpty

section Machine

variable [DecidableEq α]

/-- The head of `setValue`, up to the first listener. -/
def enter (s : VarRun α) (thread : Nat) (v : α) : Option (VarRun α) :=
  if s.calls[thread]? = some .idle then
    if v = s.m_val then some s
    else some { s with calls := s.calls.set thread (.loop v s.m_cbs) }
  else none

def exec (s : VarRun α) : VarOp α → Option (VarRun α)
  | .setValue thread v => s.enter thread v
  | .fromString thread parsed =>
      match parsed with
      | none => if s.calls[thread]? = some .idle then some s else none
      | some v => s.enter thread v
  | .notify thread throws =>
      match s.calls[thread]? with
      | some (.notifying v (key :: rest)) =>
          let heard := Function.update s.heard key (s.heard key ++ [(s.m_val, v)])
          -- An exception leaves `setValue` before the store.
          let next := if throws then .idle else .loop v rest
          some { s with heard := heard, calls := s.calls.set thread next }
      | _ => none
  | .store thread =>
      match s.calls[thread]? with
      | some (.storing v) =>
          if s.unread then some { s with m_val := v, calls := s.calls.set thread .idle } else none
      | _ => none
  | .addListener =>
      if s.unread then
        some { s with s_fun_id := s.s_fun_id + 1, m_cbs := s.m_cbs ++ [s.s_fun_id + 1] }
      else none
  | .delListener key =>
      if s.unread then some { s with m_cbs := s.m_cbs.erase key } else none
  | .clearListener => if s.unread then some { s with m_cbs := [] } else none

def step : Transition.Step (VarRun α) (VarOp α) Unit := fun s op =>
  (s.exec op).map fun t => ((), t)

end Machine

/-- Each listener hears a chain of changes, and between the calls the last one it has heard
of is the stored value. -/
structure Tracks (s : VarRun α) : Prop where
  chain : ∀ key, (s.heard key).IsChain fun before after => before.2 = after.1
  current : (∀ call ∈ s.calls, call = .idle) → ∀ key ∈ s.m_cbs, ∀ change,
    (s.heard key).getLast? = some change → change.2 = s.m_val

/-- No listener throws, and where listeners are to be notified of a change no other call is
between its comparison and its store. -/
def Alone (s : VarRun α) : VarOp α → Prop
  | .setValue _ v | .fromString _ (some v) =>
      v ≠ s.m_val → s.m_cbs ≠ [] → ∀ call ∈ s.calls, call = .idle
  | .notify _ throws => throws = false
  | _ => True

instance [DecidableEq α] (s : VarRun α) : (op : VarOp α) → Decidable (s.Alone op)
  | .setValue _ v => inferInstanceAs (Decidable (v ≠ s.m_val → s.m_cbs ≠ [] → ∀ call ∈ s.calls, _))
  | .fromString _ (some v) =>
      inferInstanceAs (Decidable (v ≠ s.m_val → s.m_cbs ≠ [] → ∀ call ∈ s.calls, _))
  | .fromString _ none => isTrue trivial
  | .notify _ throws => inferInstanceAs (Decidable (throws = false))
  | .store _ | .addListener | .delListener _ | .clearListener => isTrue trivial

/-- The thread is the only one between its comparison and its store. -/
def Only (s : VarRun α) (thread : Nat) : Prop :=
  ∀ other call, s.calls[other]? = some call → call ≠ .idle → other = thread

structure Inv (s : VarRun α) : Prop where
  chain : ∀ key, (s.heard key).IsChain fun before after => before.2 = after.1
  reading : ∀ thread v remaining, s.calls[thread]? = some (.notifying v remaining) →
    remaining ≠ [] ∧ remaining.Nodup ∧ (∀ key ∈ remaining, key ∈ s.m_cbs) ∧ s.Only thread
  agreed : ∀ key ∈ s.m_cbs, ∀ change, (s.heard key).getLast? = some change →
    (change.2 = s.m_val ∧ ∀ call ∈ s.calls, call ≠ .idle → key ∈ call.remaining) ∨
      ∃ thread call, s.calls[thread]? = some call ∧ call.pending = some change.2 ∧
        key ∉ call.remaining ∧ s.Only thread
  nodup : s.m_cbs.Nodup
  known : ∀ key ∈ s.m_cbs, key ≤ s.s_fun_id
  unheard : ∀ key, s.s_fun_id < key → s.heard key = []

variable {s t : VarRun α}

theorem Inv.tracks (inv : s.Inv) : s.Tracks where
  chain := inv.chain
  current := by
    intro quiet key registered change last
    rcases inv.agreed key registered change last with
      ⟨same, -⟩ | ⟨thread, call, at_thread, pending, -⟩
    · exact same
    · rw [quiet call (List.mem_of_getElem? at_thread)] at pending
      cases pending

theorem boot_inv (default_value : α) (threads : Nat) : (boot default_value threads).Inv where
  chain := fun _ => List.IsChain.nil
  reading := by
    intro thread v remaining at_thread
    have idle := (List.mem_replicate.mp (List.mem_of_getElem? at_thread)).2
    cases idle
  agreed := by
    intro key member
    cases member
  nodup := List.nodup_nil
  known := by
    intro key member
    cases member
  unheard := fun _ _ => rfl

theorem set_cases {calls : List (SetPc α)} {thread other : Nat} {next call : SetPc α}
    (at_other : (calls.set thread next)[other]? = some call) :
    (other = thread ∧ call = next) ∨ (other ≠ thread ∧ calls[other]? = some call) := by
  by_cases same : other = thread
  · subst same
    have inside := (List.getElem?_eq_some_iff.mp at_other).1
    rw [List.length_set] at inside
    rw [List.getElem?_set_self inside] at at_other
    exact Or.inl ⟨rfl, (Option.some.inj at_other).symm⟩
  · rw [List.getElem?_set_ne (Ne.symm same)] at at_other
    exact Or.inr ⟨same, at_other⟩

theorem loop_remaining (v : α) (remaining : List Nat) :
    (SetPc.loop v remaining).remaining = remaining ∧
      (SetPc.loop v remaining).pending = some v ∧ SetPc.loop v remaining ≠ .idle := by
  unfold SetPc.loop
  split
  case isTrue empty =>
    subst empty
    exact ⟨rfl, rfl, by simp⟩
  case isFalse => exact ⟨rfl, rfl, by simp⟩

/-- While no thread reads, nobody has a listener before it. -/
theorem remaining_of_unread (unread : s.unread = true) {call : SetPc α} (member : call ∈ s.calls) :
    call.remaining = [] := by
  have none_left := List.all_eq_true.mp unread call member
  simpa using none_left

theorem Inv.notifying_of_unread (inv : s.Inv) (unread : s.unread = true) {thread : Nat} {v : α}
    {remaining : List Nat} : s.calls[thread]? ≠ some (.notifying v remaining) := by
  intro at_thread
  exact (inv.reading thread v remaining at_thread).1
    (remaining_of_unread unread (List.mem_of_getElem? at_thread))

/-- A call that finds a different value, alone where there are listeners. -/
theorem Inv.enter (inv : s.Inv) {thread : Nat} {v : α}
    (at_thread : s.calls[thread]? = some .idle)
    (alone : s.m_cbs ≠ [] → ∀ call ∈ s.calls, call = .idle) :
    ({ s with calls := s.calls.set thread (.loop v s.m_cbs) } : VarRun α).Inv := by
  obtain ⟨remaining, pending, busy⟩ := loop_remaining v s.m_cbs
  refine ⟨inv.chain, ?_, ?_, inv.nodup, inv.known, inv.unheard⟩
  · intro other w left at_other
    rcases set_cases at_other with ⟨rfl, same⟩ | ⟨apart, before⟩
    · have listeners : left = s.m_cbs := by
        rw [← remaining, ← same]
        rfl
      have some_left : s.m_cbs ≠ [] := by
        intro empty
        rw [empty] at same
        cases same
      subst listeners
      refine ⟨some_left, inv.nodup, fun _ => id, ?_⟩
      intro third call at_third active
      rcases set_cases at_third with ⟨here, -⟩ | ⟨-, old⟩
      · exact here
      · exact absurd (alone some_left call (List.mem_of_getElem? old)) active
    · obtain ⟨some_left, -, registered, -⟩ := inv.reading other w left before
      obtain ⟨key, inside⟩ := List.exists_mem_of_ne_nil left some_left
      have listeners := List.ne_nil_of_mem (registered key inside)
      cases alone listeners _ (List.mem_of_getElem? before)
  · intro key registered change last
    have quiet := alone (List.ne_nil_of_mem registered)
    have agreed := inv.agreed key registered change last
    rcases agreed with ⟨same, -⟩ | ⟨other, call, at_other, value, -⟩
    · refine Or.inl ⟨same, ?_⟩
      intro call member active
      rcases List.mem_or_eq_of_mem_set member with before | new
      · exact absurd (quiet call before) active
      · rw [new, remaining]
        exact registered
    · rw [quiet call (List.mem_of_getElem? at_other)] at value
      cases value

/-- The next listener hears of the change and returns. -/
theorem Inv.notify (inv : s.Inv) {thread : Nat} {v : α} {key : Nat} {rest : List Nat}
    (at_thread : s.calls[thread]? = some (.notifying v (key :: rest))) :
    ({ s with heard := Function.update s.heard key (s.heard key ++ [(s.m_val, v)]),
              calls := s.calls.set thread (.loop v rest) } : VarRun α).Inv := by
  obtain ⟨-, nodup, registered, only⟩ := inv.reading thread v (key :: rest) at_thread
  obtain ⟨remaining, pending, busy⟩ := loop_remaining v rest
  have inside := (List.getElem?_eq_some_iff.mp at_thread).1
  have still_only : ∀ other call, (s.calls.set thread (.loop v rest))[other]? = some call →
      call ≠ .idle → other = thread := by
    intro other call at_other active
    rcases set_cases at_other with ⟨here, -⟩ | ⟨-, before⟩
    · exact here
    · exact only other call before active
  have new_at : (s.calls.set thread (.loop v rest))[thread]? = some (.loop v rest) :=
    List.getElem?_set_self inside
  refine ⟨?_, ?_, ?_, inv.nodup, inv.known, ?_⟩
  · intro other
    change (Function.update s.heard key _ other).IsChain _
    by_cases here : other = key
    · subst here
      rw [Function.update_self]
      refine (inv.chain other).append (List.IsChain.singleton _) ?_
      intro before last after first
      cases first
      rcases inv.agreed other (registered other List.mem_cons_self) before last with
        ⟨same, -⟩ | ⟨third, call, at_third, value, passed, -⟩
      · exact same
      · have active : call ≠ .idle := by
          intro idle
          rw [idle] at value
          cases value
        have here := only third call at_third active
        subst here
        rw [at_thread] at at_third
        cases at_third
        exact absurd List.mem_cons_self passed
    · rw [Function.update_of_ne here]
      exact inv.chain other
  · intro other w left at_other
    rcases set_cases at_other with ⟨rfl, same⟩ | ⟨apart, before⟩
    · have left_eq : left = rest := by
        rw [← remaining, ← same]
        rfl
      subst left_eq
      refine ⟨?_, (List.nodup_cons.mp nodup).2, ?_, still_only⟩
      · intro empty
        subst empty
        cases same
      · exact fun k member => registered k (List.mem_cons_of_mem _ member)
    · exact absurd (only other _ before (by simp)) apart
  · intro other known change last
    change (Function.update s.heard key _ other).getLast? = some change at last
    by_cases here : other = key
    · subst here
      rw [Function.update_self, List.getLast?_concat] at last
      cases last
      refine Or.inr ⟨thread, _, new_at, pending, ?_, still_only⟩
      rw [remaining]
      exact (List.nodup_cons.mp nodup).1
    · rw [Function.update_of_ne here] at last
      rcases inv.agreed other known change last with
        ⟨same, waits⟩ | ⟨third, call, at_third, value, passed, -⟩
      · refine Or.inl ⟨same, ?_⟩
        intro call member active
        rcases List.mem_or_eq_of_mem_set member with before | new
        · exact waits call before active
        · have in_all := waits _ (List.mem_of_getElem? at_thread) (by simp)
          rw [new, remaining]
          exact (List.mem_cons.mp in_all).resolve_left here
      · have active : call ≠ .idle := by
          intro idle
          rw [idle] at value
          cases value
        have same := only third call at_third active
        subst same
        rw [at_thread] at at_third
        cases at_third
        refine Or.inr ⟨third, _, new_at, pending.trans value, ?_, still_only⟩
        rw [remaining]
        exact fun member => passed (List.mem_cons_of_mem _ member)
  · intro other beyond
    change Function.update s.heard key _ other = []
    change s.s_fun_id < other at beyond
    have apart : other ≠ key := by
      intro same
      have bound := inv.known key (registered key List.mem_cons_self)
      omega
    rw [Function.update_of_ne apart]
    exact inv.unheard other beyond

/-- The store under the write lock. -/
theorem Inv.store (inv : s.Inv) {thread : Nat} {v : α}
    (at_thread : s.calls[thread]? = some (.storing v)) (unread : s.unread = true) :
    ({ s with m_val := v, calls := s.calls.set thread .idle } : VarRun α).Inv := by
  refine ⟨inv.chain, ?_, ?_, inv.nodup, inv.known, inv.unheard⟩
  · intro other w left at_other
    rcases set_cases at_other with ⟨-, same⟩ | ⟨-, before⟩
    · cases same
    · exact absurd before (inv.notifying_of_unread unread)
  · intro key registered change last
    rcases inv.agreed key registered change last with
      ⟨-, waits⟩ | ⟨other, call, at_other, value, -, only⟩
    · have left := waits _ (List.mem_of_getElem? at_thread) (by simp)
      cases left
    · have here := only thread _ at_thread (by simp)
      subst here
      rw [at_thread] at at_other
      cases at_other
      refine Or.inl ⟨(Option.some.inj value).symm, ?_⟩
      intro call member active
      obtain ⟨third, at_third⟩ := List.getElem?_of_mem member
      rcases set_cases at_third with ⟨-, same⟩ | ⟨apart, before⟩
      · exact absurd same active
      · exact absurd (only third call before active) apart

/-- The set of listeners changes under the write lock. -/
theorem Inv.listeners (inv : s.Inv) (unread : s.unread = true) {m_cbs : List Nat}
    {s_fun_id : Nat} (nodup : m_cbs.Nodup) (later : s.s_fun_id ≤ s_fun_id)
    (known : ∀ key ∈ m_cbs, key ≤ s_fun_id)
    (old : ∀ key ∈ m_cbs, key ∈ s.m_cbs ∨ s.s_fun_id < key) :
    ({ s with m_cbs := m_cbs, s_fun_id := s_fun_id } : VarRun α).Inv := by
  refine ⟨inv.chain, ?_, ?_, nodup, known, ?_⟩
  · intro thread v remaining at_thread
    exact absurd at_thread (inv.notifying_of_unread unread)
  · intro key registered change last
    rcases old key registered with before | new
    · exact inv.agreed key before change last
    · change (s.heard key).getLast? = some change at last
      rw [inv.unheard key new] at last
      cases last
  · intro key beyond
    exact inv.unheard key (by dsimp only at beyond; omega)

variable [DecidableEq α] {op : VarOp α}

theorem Inv.setValue (inv : s.Inv) (thread : Nat) {v : α} (alone : s.Alone (.setValue thread v))
    (taken : s.enter thread v = some t) : t.Inv := by
  unfold VarRun.enter at taken
  split at taken
  case isFalse => cases taken
  case isTrue at_thread =>
    split at taken
    case isTrue =>
      cases taken
      exact inv
    case isFalse differs =>
      cases taken
      exact inv.enter at_thread (alone differs)

theorem Inv.step (inv : s.Inv) (alone : s.Alone op) (taken : s.exec op = some t) : t.Inv := by
  cases op with
  | setValue thread v => exact inv.setValue thread alone taken
  | fromString thread parsed =>
      cases parsed with
      | none =>
          simp only [exec] at taken
          split at taken <;> cases taken
          exact inv
      | some v => exact inv.setValue thread alone taken
  | notify thread throws =>
      simp only [exec] at taken
      split at taken
      case h_1 v key rest at_thread =>
        cases taken
        rw [if_neg (by rw [show throws = false from alone]; simp)]
        exact inv.notify at_thread
      case h_2 => cases taken
  | store thread =>
      simp only [exec] at taken
      split at taken
      case h_1 v at_thread =>
        split at taken
        case isTrue unread =>
          cases taken
          exact inv.store at_thread unread
        case isFalse => cases taken
      case h_2 => cases taken
  | addListener =>
      simp only [exec] at taken
      split at taken
      case isFalse => cases taken
      case isTrue unread =>
        cases taken
        refine inv.listeners unread ?_ (Nat.le_succ _) ?_ ?_
        · refine List.nodup_append.mpr ⟨inv.nodup, List.nodup_singleton _, ?_⟩
          intro key member new last
          rw [List.mem_singleton.mp last]
          have bound := inv.known key member
          omega
        · intro key member
          rcases List.mem_append.mp member with before | last
          · exact Nat.le_succ_of_le (inv.known key before)
          · exact Nat.le_of_eq (List.mem_singleton.mp last)
        · intro key member
          rcases List.mem_append.mp member with before | last
          · exact Or.inl before
          · exact Or.inr (by rw [List.mem_singleton.mp last]; exact Nat.lt_succ_self _)
  | delListener key =>
      simp only [exec] at taken
      split at taken
      case isFalse => cases taken
      case isTrue unread =>
        cases taken
        exact inv.listeners unread (inv.nodup.erase key) (Nat.le_refl _)
          (fun k member => inv.known k (List.mem_of_mem_erase member))
          (fun k member => Or.inl (List.mem_of_mem_erase member))
  | clearListener =>
      simp only [exec] at taken
      split at taken
      case isFalse => cases taken
      case isTrue unread =>
        cases taken
        refine inv.listeners unread List.nodup_nil (Nat.le_refl _) ?_ ?_
        · intro k member
          cases member
        · intro k member
          cases member

/-- While no listener throws and each change that listeners hear of is stored before the next
one is compared, the listeners track the stored value. -/
theorem run_tracks {default_value : α} {threads : Nat} {ops : List (VarOp α)} {outs : List Unit}
    (alone : Transition.Along VarRun.step Alone (boot default_value threads) ops)
    (taken : Transition.run VarRun.step (boot default_value threads) ops = some (outs, s)) :
    s.Tracks := by
  have keep : ∀ (s : VarRun α) op (o : Unit) t, s.Inv → s.Alone op →
      VarRun.step s op = some (o, t) → t.Inv := by
    intro s op o t inv alone done
    obtain ⟨u, result, same⟩ := Option.map_eq_some_iff.mp done
    cases same
    exact inv.step alone result
  exact (Transition.run_invariant keep (boot_inv default_value threads) alone taken).tracks

/-- Two changes one after the other, a text that cannot be parsed, and a change that nobody
listens to before its store. -/
theorem run_tracks_inOrder :
    ∃ outs s, Transition.run step (boot 0 2)
      [.addListener, .setValue 0 1, .notify 0 false, .store 0, .fromString 1 (some 2),
        .notify 1 false, .store 1, .fromString 0 none, .clearListener, .setValue 0 3,
        .addListener, .store 0] = some (outs, s) ∧
      s.m_val = 3 ∧ s.heard 1 = [(0, 1), (1, 2)] ∧ s.heard 2 = [] ∧ s.Tracks := by
  have alone : Transition.Along step Alone (boot 0 2)
      [.addListener, .setValue 0 1, .notify 0 false, .store 0, .fromString 1 (some 2),
        .notify 1 false, .store 1, .fromString 0 none, .clearListener, .setValue 0 3,
        .addListener, .store 0] := by decide
  exact ⟨_, _, rfl, by decide, by decide, by decide, run_tracks alone rfl⟩

/-- Two threads that notify before either stores leave the listener with the other value; a
listener that throws leaves itself with a value that is never stored. -/
theorem run_not_tracks :
    (∃ outs s, Transition.run step (boot 0 2)
      [.addListener, .setValue 0 1, .setValue 1 2, .notify 0 false, .notify 1 false, .store 1,
        .store 0] = some (outs, s) ∧
      s.calls = [.idle, .idle] ∧ s.m_val = 1 ∧ s.heard 1 = [(0, 1), (0, 2)] ∧ ¬ s.Tracks) ∧
    (∃ outs s, Transition.run step (boot 0 1)
      [.addListener, .fromString 0 (some 1), .notify 0 true] = some (outs, s) ∧
      s.calls = [.idle] ∧ s.m_val = 0 ∧ s.heard 1 = [(0, 1)] ∧ ¬ s.Tracks) := by
  refine ⟨⟨_, _, rfl, by decide, by decide, by decide, ?_⟩,
    ⟨_, _, rfl, by decide, by decide, by decide, ?_⟩⟩
  · intro tracks
    have last := tracks.current (by decide) 1 (by decide) (0, 2) (by decide)
    cases last
  · intro tracks
    have last := tracks.current (by decide) 1 (by decide) (0, 1) (by decide)
    cases last

end VarRun

end CorReactor
