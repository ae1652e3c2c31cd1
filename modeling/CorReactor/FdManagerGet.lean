import CorReactor.FdManagerTable
import CorReactor.LookupInsert
import CorReactor.Transition

set_option autoImplicit false

/-! Several threads in `FdManager::get`, whose two phases are separate steps. -/

namespace CorReactor

/-- A call of `setTimeout` or `setUserNonblock`. -/
inductive FdSetting
  | timeout (type : Int) (v : UInt64)
  | userNonblock (v : Bool)

def FdCtx.set (ctx : FdCtx) : FdSetting → FdCtx
  | .timeout type v => ctx.setTimeout type v
  | .userNonblock v => ctx.setUserNonblock v

def FdSettings.set (settings : FdSettings) : FdSetting → FdSettings
  | .timeout type v =>
      if type = SO_RCVTIMEO then { settings with recvTimeout := v }
      else { settings with sendTimeout := v }
  | .userNonblock v => { settings with userNonblock := v }

theorem FdCtx.settings_set (ctx : FdCtx) (setting : FdSetting) :
    (ctx.set setting).settings = ctx.settings.set setting := by
  cases setting with
  | timeout type v =>
      simp only [FdCtx.set, FdCtx.setTimeout, FdSettings.set]
      split <;> rfl
  | userNonblock v => rfl

def FdSettings.unset : FdSettings := ⟨-1, -1, false⟩

theorem FdCtx.new_settings (fd : Int) (k : Kernel) : (FdCtx.new fd k).1.settings = .unset := by
  unfold FdCtx.new FdCtx.init
  simp only [Bool.false_eq_true, ↓reduceIte]
  cases k.fstat fd with
  | none => rfl
  | some sock => cases sock <;> rfl

/-- A call of `get` that has returned. -/
structure GetAnswer where
  fd : Int
  auto_create : Bool
  ctx : Option CtxId
  deriving DecidableEq

/-- The manager, the threads between the two phases of `get`, the answers so far, and what
was set for each number through a context that `get` returned for it. -/
structure GetRun where
  fds : Fds
  creating : Nat → Option Int
  answers : List GetAnswer
  asked : Int → FdSettings

inductive GetOp
  | lookup (thread : Nat) (fd : Int) (auto_create : Bool)
  | create (thread : Nat)
  | set (fd : Int) (ctx : CtxId) (setting : FdSetting)
  | kernel (k : Kernel)

namespace GetRun

open FdManager LookupInsert

def boot : GetRun := ⟨Fds.boot, fun _ => none, [], fun _ => .unset⟩

def given (s : GetRun) : List (Int × Option CtxId) := s.answers.map fun a => (a.fd, a.ctx)

def answer (s : GetRun) (fd : Int) (auto_create : Bool) (ctx : Option CtxId) : GetRun :=
  { s with answers := s.answers ++ [⟨fd, auto_create, ctx⟩] }

def exec (s : GetRun) : GetOp → Option GetRun
  | .lookup thread fd auto_create =>
      if (s.creating thread).isSome then none
      else
        match s.fds.mgr.lookup fd auto_create with
        | .error _ => none
        | .ok (.found ctx) => some (s.answer fd auto_create ctx)
        | .ok .missing => some { s with creating := Function.update s.creating thread (some fd) }
  | .create thread =>
      match s.creating thread with
      | none => none
      | some fd =>
          match s.fds.create fd with
          | .error _ => none
          | .ok (ctx, fds) =>
              some ({ s with fds := fds, creating := Function.update s.creating thread none }.answer
                fd true (some ctx))
  | .set fd ctx setting =>
      if (fd, some ctx) ∈ s.given then
        some { s with fds := s.fds.update ctx fun c => c.set setting,
                      asked := Function.update s.asked fd ((s.asked fd).set setting) }
      else none
  | .kernel k => some { s with fds := { s.fds with kernel := k } }

def step : Transition.Step GetRun GetOp Unit := fun s op => (s.exec op).map fun t => ((), t)

/-- All calls for a number that return a context return the same one, from the first such
call on every call does, a creating call always does, and what is set through it stays. -/
structure OneContext (s : GetRun) : Prop where
  stable : Stable s.given
  created : ∀ a ∈ s.answers, a.auto_create = true → a.fd ≠ -1 → a.ctx.isSome
  kept : ∀ fd ctx, (fd, some ctx) ∈ s.given →
    (s.fds.ctxs[ctx]?).map FdCtx.settings = some (s.asked fd)

/-- Numbers for which the table's size stays an `int`. -/
def Small (s : GetRun) : GetOp → Prop
  | .create thread => ∀ fd ∈ s.creating thread, fd ≤ maxNumber
  | _ => True

/-- No context has come into the table since the lookup that missed. -/
def StillMissing (s : GetRun) : GetOp → Prop
  | .create thread => ∀ fd ∈ s.creating thread, s.fds.mgr.stored fd = none
  | _ => True

structure Inv (s : GetRun) : Prop where
  sized : s.fds.mgr.Sized
  recorded : Recorded s.fds.mgr.stored s.given
  stable : Stable s.given
  created : ∀ a ∈ s.answers, a.auto_create = true → a.fd ≠ -1 → a.ctx.isSome
  held : ∀ fd ctx, s.fds.mgr.stored fd = some ctx →
    (s.fds.ctxs[ctx]?).map FdCtx.settings = some (s.asked fd)
  apart : ∀ fd fd' ctx, s.fds.mgr.stored fd = some ctx → s.fds.mgr.stored fd' = some ctx → fd = fd'
  unasked : ∀ fd, s.fds.mgr.stored fd = none → s.asked fd = .unset

instance (s : GetRun) : (op : GetOp) → Decidable (s.Small op)
  | .create _ => inferInstanceAs (Decidable (∀ fd ∈ _, _))
  | .lookup .. => isTrue trivial
  | .set .. => isTrue trivial
  | .kernel _ => isTrue trivial

instance (s : GetRun) : (op : GetOp) → Decidable (s.StillMissing op)
  | .create _ => inferInstanceAs (Decidable (∀ fd ∈ _, _))
  | .lookup .. => isTrue trivial
  | .set .. => isTrue trivial
  | .kernel _ => isTrue trivial

variable {s t : GetRun} {op : GetOp}

theorem Inv.oneContext (inv : s.Inv) : s.OneContext where
  stable := inv.stable
  created := inv.created
  kept := fun fd ctx member => inv.held fd ctx (inv.recorded.stored fd ctx member)

theorem boot_inv : boot.Inv where
  sized := new_sized
  recorded := recorded_nil new_stored
  stable := List.Pairwise.nil
  created := by
    intro a member
    cases member
  held := by
    intro fd ctx at_fd
    rw [show boot.fds.mgr.stored fd = none from new_stored fd] at at_fd
    cases at_fd
  apart := by
    intro fd fd' ctx at_fd
    rw [show boot.fds.mgr.stored fd = none from new_stored fd] at at_fd
    cases at_fd
  unasked := fun fd _ => rfl

theorem given_answer (fd : Int) (auto_create : Bool) (ctx : Option CtxId) :
    (s.answer fd auto_create ctx).given = s.given ++ [(fd, ctx)] := by
  simp only [given, answer, List.map_append, List.map_cons, List.map_nil]

theorem lookup_cases {thread : Nat} {fd : Int} {auto_create : Bool} (sized : s.fds.mgr.Sized)
    (taken : s.exec (.lookup thread fd auto_create) = some t) :
    (t = s.answer fd auto_create (s.fds.mgr.stored fd) ∧
        (auto_create = true → fd = -1 ∨ (s.fds.mgr.stored fd).isSome)) ∨
      t = { s with creating := Function.update s.creating thread (some fd) } := by
  unfold exec at taken
  dsimp only at taken
  split at taken
  · cases taken
  · cases looked : s.fds.mgr.lookup fd auto_create with
    | error fault =>
        rw [looked] at taken
        cases taken
    | ok r =>
        rw [looked] at taken
        rcases lookup_sized sized looked with ⟨rfl, creating⟩ | ⟨rfl, -⟩
        · cases taken
          exact Or.inl ⟨rfl, creating⟩
        · cases taken
          exact Or.inr rfl

theorem create_cases {thread : Nat} (taken : s.exec (.create thread) = some t) :
    ∃ fd mgr, s.creating thread = some fd ∧ s.fds.mgr.insert fd s.fds.ctxs.length = .ok mgr ∧
      t = ({ s with
        fds := ⟨(FdCtx.new fd s.fds.kernel).2, mgr,
          s.fds.ctxs ++ [(FdCtx.new fd s.fds.kernel).1]⟩,
        creating := Function.update s.creating thread none } : GetRun).answer fd true
          (some s.fds.ctxs.length) := by
  unfold exec at taken
  dsimp only at taken
  cases pending : s.creating thread with
  | none =>
      rw [pending] at taken
      cases taken
  | some fd =>
      rw [pending] at taken
      cases inserted : s.fds.mgr.insert fd s.fds.ctxs.length with
      | error fault =>
          simp only [Fds.create, inserted, reduceCtorEq] at taken
      | ok mgr =>
          simp only [Fds.create, inserted, Option.some.injEq] at taken
          exact ⟨fd, mgr, rfl, inserted, taken.symm⟩

theorem Inv.held_lt (inv : s.Inv) {fd : Int} {ctx : CtxId}
    (at_fd : s.fds.mgr.stored fd = some ctx) : ctx < s.fds.ctxs.length := by
  have held := inv.held fd ctx at_fd
  by_contra beyond
  rw [List.getElem?_eq_none (Nat.le_of_not_lt beyond)] at held
  cases held

theorem Inv.answer (inv : s.Inv) {fd : Int} {auto_create : Bool}
    (creating : auto_create = true → fd = -1 ∨ (s.fds.mgr.stored fd).isSome) :
    (s.answer fd auto_create (s.fds.mgr.stored fd)).Inv := by
  obtain ⟨recorded, stable⟩ := inv.recorded.answer inv.stable (k := fd)
  refine ⟨inv.sized, ?_, ?_, ?_, inv.held, inv.apart, inv.unasked⟩
  · rw [given_answer]
    exact recorded
  · rw [given_answer]
    exact stable
  · intro a member auto valid
    rcases List.mem_append.mp member with earlier | last
    · exact inv.created a earlier auto valid
    · cases List.mem_singleton.mp last
      rcases creating auto with none_fd | some_ctx
      · exact absurd none_fd valid
      · exact some_ctx

theorem Inv.create (inv : s.Inv) {thread : Nat} (small : s.Small (.create thread))
    (missing : s.StillMissing (.create thread)) (taken : s.exec (.create thread) = some t) :
    t.Inv := by
  obtain ⟨fd, mgr, pending, inserted, rfl⟩ := create_cases taken
  have absent := missing fd pending
  obtain ⟨sized, -, others⟩ := insert_sized inv.sized (small fd pending) inserted
  have here := (insert_stored inserted).1
  obtain ⟨recorded, stable⟩ := inv.recorded.put inv.stable absent here others
  refine ⟨sized, ?_, ?_, ?_, ?_, ?_, ?_⟩
  · rw [given_answer]
    exact recorded
  · rw [given_answer]
    exact stable
  · intro a member auto valid
    rcases List.mem_append.mp member with earlier | last
    · exact inv.created a earlier auto valid
    · cases List.mem_singleton.mp last
      rfl
  · intro fd' ctx at_fd'
    change mgr.stored fd' = some ctx at at_fd'
    change ((s.fds.ctxs ++ _)[ctx]?).map FdCtx.settings = some (s.asked fd')
    by_cases same : fd' = fd
    · subst same
      rw [here] at at_fd'
      cases at_fd'
      rw [List.getElem?_concat_length, Option.map_some, FdCtx.new_settings, inv.unasked fd' absent]
    · rw [others fd' same] at at_fd'
      rw [List.getElem?_append_left (inv.held_lt at_fd')]
      exact inv.held fd' ctx at_fd'
  · intro first second ctx at_first at_second
    change mgr.stored first = some ctx at at_first
    change mgr.stored second = some ctx at at_second
    by_cases first_new : first = fd
    · by_cases second_new : second = fd
      · rw [first_new, second_new]
      · subst first_new
        rw [here] at at_first
        cases at_first
        rw [others second second_new] at at_second
        exact absurd (inv.held_lt at_second) (Nat.lt_irrefl _)
    · rw [others first first_new] at at_first
      by_cases second_new : second = fd
      · subst second_new
        rw [here] at at_second
        cases at_second
        exact absurd (inv.held_lt at_first) (Nat.lt_irrefl _)
      · rw [others second second_new] at at_second
        exact inv.apart first second ctx at_first at_second
  · intro fd' at_fd'
    change mgr.stored fd' = none at at_fd'
    have apart : fd' ≠ fd := by
      intro same
      rw [same, here] at at_fd'
      cases at_fd'
    rw [others fd' apart] at at_fd'
    exact inv.unasked fd' at_fd'

theorem Inv.set (inv : s.Inv) {fd : Int} {ctx : CtxId} {setting : FdSetting}
    (taken : s.exec (.set fd ctx setting) = some t) : t.Inv := by
  unfold exec at taken
  dsimp only at taken
  split at taken
  case isFalse => cases taken
  case isTrue member =>
    cases taken
    have at_fd := inv.recorded.stored fd ctx member
    refine ⟨inv.sized, inv.recorded, inv.stable, inv.created, ?_, inv.apart, ?_⟩
    · intro fd' ctx' at_fd'
      change s.fds.mgr.stored fd' = some ctx' at at_fd'
      have before := inv.held fd' ctx' at_fd'
      change ((s.fds.ctxs.modify ctx _)[ctx']?).map FdCtx.settings =
        some (Function.update s.asked fd ((s.asked fd).set setting) fd')
      rw [List.getElem?_modify]
      by_cases same : fd' = fd
      · subst same
        rw [at_fd] at at_fd'
        cases at_fd'
        obtain ⟨held, at_ctx, settings⟩ := Option.map_eq_some_iff.mp before
        rw [at_ctx, Function.update_self, ← settings, ← FdCtx.settings_set, Option.map_eq_map,
          Option.map_some, if_pos rfl, Option.map_some]
      · have other : ctx ≠ ctx' := by
          intro ctx_same
          subst ctx_same
          exact same (inv.apart fd' fd ctx at_fd' at_fd)
        simp only [Function.update_of_ne same, if_neg other, id_map', before]
    · intro fd' at_fd'
      change s.fds.mgr.stored fd' = none at at_fd'
      have apart : fd' ≠ fd := by
        intro same
        rw [same, at_fd] at at_fd'
        cases at_fd'
      change Function.update s.asked fd ((s.asked fd).set setting) fd' = _
      rw [Function.update_of_ne apart]
      exact inv.unasked fd' at_fd'

theorem Inv.step (inv : s.Inv) (small : s.Small op) (missing : s.StillMissing op)
    (taken : s.exec op = some t) : t.Inv := by
  cases op with
  | lookup thread fd auto_create =>
      rcases lookup_cases inv.sized taken with ⟨rfl, creating⟩ | rfl
      · exact inv.answer creating
      · exact ⟨inv.sized, inv.recorded, inv.stable, inv.created, inv.held, inv.apart, inv.unasked⟩
  | create thread => exact inv.create small missing taken
  | set fd ctx setting => exact inv.set taken
  | kernel k =>
      cases taken
      exact ⟨inv.sized, inv.recorded, inv.stable, inv.created, inv.held, inv.apart, inv.unasked⟩

/-- A creation over an entry answers with a second context. -/
theorem not_oneContext (inv : s.Inv) (overwrites : ¬ s.StillMissing op)
    (taken : s.exec op = some t) : ¬ t.OneContext := by
  cases op with
  | create thread =>
      obtain ⟨fd, mgr, pending, -, rfl⟩ := create_cases taken
      intro one
      apply overwrites
      intro fd' pending'
      rw [pending] at pending'
      cases pending'
      cases at_fd : s.fds.mgr.stored fd with
      | none => rfl
      | some old =>
          have stable := one.stable
          rw [given_answer] at stable
          have same := (List.pairwise_append.mp stable).2.2 _ (inv.recorded.known fd old at_fd) _
            List.mem_cons_self old rfl rfl
          cases same
          exact absurd (inv.held_lt at_fd) (Nat.lt_irrefl _)
  | lookup | set | kernel => exact absurd trivial overwrites

theorem exec_of_step {o : Unit} (taken : step s op = some (o, t)) : s.exec op = some t := by
  obtain ⟨u, done, same⟩ := Option.map_eq_some_iff.mp taken
  cases same
  exact done

/-- Up to numbers that make the table's size overflow, there is one context for each number
all along a run exactly when no context comes into the table between a lookup that misses
and the creation that follows it. -/
theorem run_oneContext_iff {ops : List GetOp} {outs : List Unit}
    (small : Transition.Along step Small boot ops)
    (taken : Transition.run step boot ops = some (outs, s)) :
    Transition.Always step OneContext boot ops ↔ Transition.Along step StillMissing boot ops := by
  have keep : ∀ (s : GetRun) op (o : Unit) t, s.Inv → s.Small op → s.StillMissing op →
      step s op = some (o, t) → t.Inv :=
    fun _ _ _ _ inv small missing done => inv.step small missing (exec_of_step done)
  have breaks : ∀ (s : GetRun) op (o : Unit) t, s.Inv → s.Small op → ¬ s.StillMissing op →
      step s op = some (o, t) → ¬ t.OneContext :=
    fun _ _ _ _ inv _ overwrites done => not_oneContext inv overwrites (exec_of_step done)
  exact Transition.always_iff_along_within (fun _ inv => inv.oneContext) keep breaks boot_inv small
    taken

/-- Two first lookups one after the other, and a timeout that the second one sees. -/
theorem run_oneContext_shared :
    ∃ outs s, Transition.run step boot
      [.lookup 0 5 true, .create 0, .set 5 0 (.timeout SO_RCVTIMEO 300), .lookup 1 5 true,
        .lookup 1 70 true, .create 1] = some (outs, s) ∧
      s.given = [(5, some 0), (5, some 0), (70, some 1)] ∧
      Transition.Always step OneContext boot
        [.lookup 0 5 true, .create 0, .set 5 0 (.timeout SO_RCVTIMEO 300), .lookup 1 5 true,
          .lookup 1 70 true, .create 1] :=
  ⟨_, _, rfl, by decide, (run_oneContext_iff (by decide) rfl).mpr (by decide)⟩

/-- Two first lookups at once: the user's non-blocking mode is set on the first context and
the second one replaces it. -/
theorem run_not_oneContext :
    ∃ outs s, Transition.run step boot
      [.lookup 0 5 true, .lookup 1 5 true, .create 0, .set 5 0 (.userNonblock true), .create 1,
        .lookup 2 5 false] = some (outs, s) ∧
      s.given = [(5, some 0), (5, some 1), (5, some 1)] ∧
      (s.fds.ctxs[1]?).map FdCtx.settings = some .unset ∧ ¬ s.OneContext := by
  refine ⟨_, _, rfl, by decide, by decide, ?_⟩
  intro one
  have stable : Stable [((5 : Int), some (0 : CtxId)), (5, some 1), (5, some 1)] := one.stable
  have same := (List.pairwise_cons.mp stable).1 (5, some 1) List.mem_cons_self 0 rfl rfl
  cases same

end GetRun

end CorReactor
