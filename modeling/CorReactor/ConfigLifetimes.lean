import CorReactor.ConfigListeners

set_option autoImplicit false

/-! The time in which a listener of a variable is called, whatever the threads in `setValue` do. -/

namespace CorReactor.VarRun

variable {α : Type} {s t : VarRun α} {key : Nat}

/-- What a step does to the listeners: nothing, a listener is called, or the set of them changes
while no thread reads it. -/
inductive Stepped (s : VarRun α) : VarRun α → Prop
  | still : Stepped s s
  | moves (m_val : α) (thread : Nat) {call : SetPc α}
      (registered : ∀ key ∈ call.remaining, key ∈ s.m_cbs) :
      Stepped s { s with m_val := m_val, calls := s.calls.set thread call }
  | hears {thread : Nat} {v : α} {key : Nat} {rest : List Nat} {next : SetPc α}
      (at_thread : s.calls[thread]? = some (.notifying v (key :: rest)))
      (fewer : ∀ other ∈ next.remaining, other ∈ rest) :
      Stepped s { s with
        heard := Function.update s.heard key (s.heard key ++ [(s.m_val, v)])
        calls := s.calls.set thread next }
  | listeners {m_cbs : List Nat} {s_fun_id : Nat} (unread : s.unread = true)
      (later : s.s_fun_id ≤ s_fun_id)
      (old : ∀ key ∈ m_cbs, key ∈ s.m_cbs ∨ (s.s_fun_id < key ∧ key ≤ s_fun_id))
      (nodup : s.m_cbs.Nodup → (∀ key ∈ s.m_cbs, key ≤ s.s_fun_id) → m_cbs.Nodup) :
      Stepped s { s with m_cbs := m_cbs, s_fun_id := s_fun_id }

/-- A thread only comes to listeners that are registered; a key is given once. -/
structure Reading (s : VarRun α) : Prop where
  registered : ∀ call ∈ s.calls, ∀ key ∈ call.remaining, key ∈ s.m_cbs
  nodup : s.m_cbs.Nodup
  known : ∀ key ∈ s.m_cbs, key ≤ s.s_fun_id

theorem boot_reading (default_value : α) (threads : Nat) :
    Reading (boot default_value threads) where
  registered := by
    intro call member key inside
    rw [(List.mem_replicate.mp member).2] at inside
    cases inside
  nodup := List.nodup_nil
  known := fun _ => nofun

theorem Reading.next (reading : Reading s) (stepped : Stepped s t) : Reading t := by
  obtain ⟨registered, nodup, known⟩ := reading
  cases stepped with
  | still => exact ⟨registered, nodup, known⟩
  | moves m_val thread inside =>
      refine ⟨fun call member => ?_, nodup, known⟩
      rcases List.mem_or_eq_of_mem_set member with before | rfl
      · exact registered call before
      · exact inside
  | hears at_thread fewer =>
      refine ⟨fun call member => ?_, nodup, known⟩
      rcases List.mem_or_eq_of_mem_set member with before | rfl
      · exact registered call before
      · exact fun other inside => registered _ (List.mem_of_getElem? at_thread) other
          (List.mem_cons_of_mem _ (fewer other inside))
  | listeners unread later old unique =>
      refine ⟨fun call member key inside => ?_, unique nodup known, fun key inside => ?_⟩
      · rw [remaining_of_unread unread member] at inside
        cases inside
      · rcases old key inside with before | new
        · exact Nat.le_trans (known key before) later
        · exact new.2

/-- The key has been given and its listener is gone. -/
def Gone (s : VarRun α) (key : Nat) : Prop := key ≤ s.s_fun_id ∧ key ∉ s.m_cbs

theorem Gone.next (gone : Gone s key) (reading : Reading s) (stepped : Stepped s t) :
    Gone t key ∧ t.heard key = s.heard key := by
  cases stepped with
  | still => exact ⟨gone, rfl⟩
  | moves m_val thread inside => exact ⟨gone, rfl⟩
  | hears at_thread fewer =>
      refine ⟨gone, Function.update_of_ne ?_ _ s.heard⟩
      rintro rfl
      exact gone.2 (reading.registered _ (List.mem_of_getElem? at_thread) _ List.mem_cons_self)
  | listeners unread later old unique =>
      refine ⟨⟨Nat.le_trans gone.1 later, fun inside => ?_⟩, rfl⟩
      rcases old key inside with before | new
      · exact gone.2 before
      · exact Nat.not_le_of_lt new.1 gone.1

/-! ### Runs -/

variable [DecidableEq α] {op : VarOp α}

theorem enter_stepped {thread : Nat} {v : α} (taken : s.enter thread v = some t) : Stepped s t := by
  unfold enter at taken
  split at taken
  · split at taken
    · cases taken
      exact .still
    · cases taken
      refine .moves s.m_val thread fun key inside => ?_
      rwa [(loop_remaining v s.m_cbs).1] at inside
  · cases taken

theorem exec_stepped (taken : s.exec op = some t) : Stepped s t := by
  cases op with
  | setValue thread v => exact enter_stepped taken
  | fromString thread parsed =>
      cases parsed with
      | none =>
          simp only [exec] at taken
          split at taken <;> cases taken
          exact .still
      | some v => exact enter_stepped taken
  | notify thread throws =>
      simp only [exec] at taken
      split at taken
      case h_1 v key rest at_thread =>
        cases taken
        refine .hears at_thread fun other inside => ?_
        cases throws with
        | true => cases inside
        | false => exact (loop_remaining v rest).1 ▸ inside
      case h_2 => cases taken
  | store thread =>
      simp only [exec] at taken
      split at taken
      case h_1 v at_thread =>
        split at taken <;> cases taken
        exact .moves v thread fun key inside => absurd inside List.not_mem_nil
      case h_2 => cases taken
  | addListener =>
      rw [exec] at taken
      split at taken
      · rename_i unread
        cases taken
        refine .listeners unread (Nat.le_succ _) (fun key inside => ?_) fun nodup known => ?_
        · exact (List.mem_append.mp inside).imp_right fun here =>
            have same : key = s.s_fun_id + 1 := List.mem_singleton.mp here
            ⟨Nat.lt_of_lt_of_eq (Nat.lt_succ_self _) same.symm, Nat.le_of_eq same⟩
        · refine (List.perm_append_singleton _ s.m_cbs).nodup_iff.mpr ?_
          exact List.nodup_cons.mpr ⟨fun inside => Nat.not_succ_le_self _ (known _ inside), nodup⟩
      · cases taken
  | delListener key =>
      rw [exec] at taken
      split at taken
      · rename_i unread
        cases taken
        exact .listeners unread (Nat.le_refl _)
          (fun _ inside => Or.inl (List.mem_of_mem_erase inside)) fun nodup _ => nodup.erase key
      · cases taken
  | clearListener =>
      rw [exec] at taken
      split at taken
      · rename_i unread
        cases taken
        exact .listeners unread (Nat.le_refl _)
          (fun _ inside => absurd inside List.not_mem_nil) fun _ _ => List.nodup_nil
      · cases taken

theorem step_stepped {o : Unit} (taken : step s op = some (o, t)) : Stepped s t := by
  obtain ⟨t, moved, same⟩ := Option.map_eq_some_iff.mp taken
  cases same
  exact exec_stepped moved

theorem Gone.run {ops : List (VarOp α)} {os : List Unit} (gone : Gone s key) (reading : Reading s)
    (taken : Transition.run step s ops = some (os, t)) :
    Gone t key ∧ t.heard key = s.heard key := by
  induction ops generalizing s os with
  | nil =>
      cases taken
      exact ⟨gone, rfl⟩
  | cons op ops ih =>
      obtain ⟨o, m, tail, first, later, -⟩ := (Transition.run_cons_iff step s t op ops os).mp taken
      have stepped := step_stepped first
      obtain ⟨still, same⟩ := gone.next reading stepped
      obtain ⟨last, same'⟩ := ih still (reading.next stepped) later
      exact ⟨last, same'.trans same⟩

/-- Behind `delListener` and `clearListener` a listener is not called any more, whatever the
threads do that are in `setValue` then; and a listener that is called is registered. -/
theorem run_deaf {default_value : α} {threads : Nat}
    (reached : Transition.Reachable step (boot default_value threads) s) :
    (∀ (thread : Nat) v key rest, s.calls[thread]? = some (SetPc.notifying v (key :: rest)) →
        key ∈ s.m_cbs) ∧
      ∀ key t, key ≤ s.s_fun_id →
        (s.exec (.delListener key) = some t ∨ s.exec .clearListener = some t) →
        ∀ ops os u, Transition.run step t ops = some (os, u) →
          u.heard key = s.heard key ∧ key ∉ u.m_cbs := by
  have reading : Reading s := Transition.Reachable.invariant
    (fun _ _ _ _ reading taken => reading.next (step_stepped taken))
    (boot_reading default_value threads) reached
  refine ⟨fun thread v key rest at_thread => ?_, fun key t given removed ops os u later => ?_⟩
  · exact reading.registered _ (List.mem_of_getElem? at_thread) key List.mem_cons_self
  · obtain ⟨stepped, gone, same⟩ : Stepped s t ∧ Gone t key ∧ t.heard key = s.heard key := by
      rcases removed with deleted | cleared
      · refine ⟨exec_stepped deleted, ?_⟩
        rw [exec] at deleted
        split at deleted <;> cases deleted
        have erased : key ∉ s.m_cbs.erase key := fun inside =>
          ((List.Nodup.mem_erase_iff reading.nodup).mp inside).1 rfl
        exact ⟨⟨given, erased⟩, rfl⟩
      · refine ⟨exec_stepped cleared, ?_⟩
        rw [exec] at cleared
        split at cleared <;> cases cleared
        exact ⟨⟨given, List.not_mem_nil⟩, rfl⟩
    obtain ⟨last, same'⟩ := gone.run (reading.next stepped) later
    exact ⟨same'.trans same, last.2⟩

/-- A variable with two listeners. -/
def listened : VarRun Nat := ⟨0, [1, 2], 2, [.idle], fun _ => []⟩

theorem run_deaf_two :
    (∀ (thread : Nat) v key rest,
        listened.calls[thread]? = some (SetPc.notifying v (key :: rest)) → key ∈ listened.m_cbs) ∧
      ∀ key t, key ≤ listened.s_fun_id →
        (listened.exec (.delListener key) = some t ∨ listened.exec .clearListener = some t) →
        ∀ ops os u, Transition.run step t ops = some (os, u) →
          u.heard key = listened.heard key ∧ key ∉ u.m_cbs :=
  @run_deaf Nat listened _ 0 1 ⟨[.addListener, .addListener], _, rfl⟩

end CorReactor.VarRun
