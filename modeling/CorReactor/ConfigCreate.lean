import CorReactor.Config
import CorReactor.LookupInsert
import CorReactor.Transition
import Mathlib.Logic.Function.Basic

set_option autoImplicit false

/-! Several threads in `Config::Create`, whose lookup and insertion are separate steps, and in
`Config::LoadFromYaml`. -/

namespace CorReactor

variable {τ α : Type}

/-- A `ConfigVar<T>`, by its name, its `T` and its value. -/
structure ConfigVar (τ α : Type) where
  base : ConfigVarBase
  type : τ
  m_val : α

/-- Where a thread stands in `Create` or in the loop of `LoadFromYaml`. -/
inductive ConfigPc (τ α : Type)
  | idle
  | inserting (type : τ) (name : Name) (default_value : α)
  | loading (all_nodes : List (Name × Yaml))
  | calling (key : Name) (var : Nat) (text : Name) (all_nodes : List (Name × Yaml))

/-- A call of `Create` that has returned. -/
structure CreateResult where
  name : Name
  var : Option Nat
  deriving DecidableEq

/-- The table, the variables by their numbers, the threads, the results of `Create`, and the
value last loaded under each name. -/
structure ConfigRun (τ α : Type) where
  s_datas : Name → Option Nat
  vars : List (ConfigVar τ α)
  calls : Nat → ConfigPc τ α
  results : List CreateResult
  loaded : Name → Option α

inductive ConfigOp (τ α : Type)
  | create (thread : Nat) (type : τ) (name : Name) (default_value : α)
  | insert (thread : Nat)
  | loadFromYaml (thread : Nat) (root : Yaml)
  | lookupBase (thread : Nat)
  | fromString (thread : Nat)

namespace ConfigRun

open LookupInsert

def boot : ConfigRun τ α := ⟨fun _ => none, [], fun _ => .idle, [], fun _ => none⟩

/-- The results that are not null. -/
def given (s : ConfigRun τ α) : List (Name × Option Nat) :=
  s.results.filterMap fun r => r.var.map fun var => (r.name, some var)

def answer (s : ConfigRun τ α) (name : Name) (var : Option Nat) : ConfigRun τ α :=
  { s with results := s.results ++ [⟨name, var⟩] }

def goto (s : ConfigRun τ α) (thread : Nat) (pc : ConfigPc τ α) : ConfigRun τ α :=
  { s with calls := Function.update s.calls thread pc }

/-- The write-locked part of `Create`. -/
def put (s : ConfigRun τ α) (type : τ) (name : Name) (default_value : α) : ConfigRun τ α :=
  { s with s_datas := Function.update s.s_datas name (some s.vars.length),
           vars := s.vars ++ [⟨.new name, type, default_value⟩] }

/-- A value loaded under the key into the variable. -/
def load (s : ConfigRun τ α) (key : Name) (var : Nat) (v : α) : ConfigRun τ α :=
  { s with vars := s.vars.modify var fun x => { x with m_val := v },
           loaded := Function.update s.loaded key (some v) }

section Machine

variable [DecidableEq τ] (FromStr : τ → Name → Option α)

def exec (s : ConfigRun τ α) : ConfigOp τ α → Option (ConfigRun τ α)
  | .create thread type name default_value =>
      match s.calls thread with
      | .idle =>
          match s.s_datas name with
          | some var =>
              if (s.vars[var]?).map ConfigVar.type = some type then
                some (s.answer name (some var))
              else some (s.answer name none)
          | none =>
              -- Otherwise the assertion ends the process.
              if onlyOf createChars name then
                some (s.goto thread (.inserting type name default_value))
              else none
      | _ => none
  | .insert thread =>
      match s.calls thread with
      | .inserting type name default_value =>
          some (((s.put type name default_value).goto thread .idle).answer name
            (some s.vars.length))
      | _ => none
  | .loadFromYaml thread root =>
      match s.calls thread with
      | .idle => some (s.goto thread (.loading (listAllMember [] root)))
      | _ => none
  | .lookupBase thread =>
      match s.calls thread with
      | .loading [] => some (s.goto thread .idle)
      | .loading (i :: rest) =>
          let key := i.1.map tolower
          match if i.1.isEmpty then none else s.s_datas key with
          | some var => some (s.goto thread (.calling key var i.2.printed rest))
          | none => some (s.goto thread (.loading rest))
      | _ => none
  | .fromString thread =>
      match s.calls thread with
      | .calling key var text rest =>
          match (s.vars[var]?).bind fun x => FromStr x.type text with
          | some v => some ((s.load key var v).goto thread (.loading rest))
          | none => some (s.goto thread (.loading rest))
      | _ => none

def step : Transition.Step (ConfigRun τ α) (ConfigOp τ α) Unit := fun s op =>
  (s.exec FromStr op).map fun t => ((), t)

end Machine

/-- The non-null results for a name are one variable, the one in the table, and what was last
loaded under a name is the value of its variable. -/
structure Unique (s : ConfigRun τ α) : Prop where
  same : ∀ a ∈ s.results, ∀ b ∈ s.results, a.name = b.name →
    ∀ var var', a.var = some var → b.var = some var' → var = var'
  stored : ∀ r ∈ s.results, ∀ var, r.var = some var → s.s_datas r.name = some var
  kept : ∀ name v, s.loaded name = some v →
    ∃ var, s.s_datas name = some var ∧ (s.vars[var]?).map ConfigVar.m_val = some v

/-- The name has not been registered since the lookup that missed. -/
def StillMissing (s : ConfigRun τ α) : ConfigOp τ α → Prop
  | .insert thread =>
      match s.calls thread with
      | .inserting _ name _ => s.s_datas name = none
      | _ => True
  | _ => True

instance (s : ConfigRun τ α) : (op : ConfigOp τ α) → Decidable (s.StillMissing op)
  | .insert thread =>
      match pc : s.calls thread with
      | .inserting _ name _ =>
          decidable_of_iff (s.s_datas name = none) (by simp only [StillMissing, pc])
      | .idle | .loading _ | .calling .. => isTrue (by simp only [StillMissing, pc])
  | .create .. | .loadFromYaml .. | .lookupBase _ | .fromString _ => isTrue trivial

structure Inv (s : ConfigRun τ α) : Prop where
  recorded : Recorded s.s_datas s.given
  stable : Stable s.given
  held : ∀ name var, s.s_datas name = some var → var < s.vars.length
  apart : ∀ name name' var, s.s_datas name = some var → s.s_datas name' = some var → name = name'
  calling : ∀ thread key var text rest, s.calls thread = .calling key var text rest →
    s.s_datas key = some var
  kept : ∀ name v, s.loaded name = some v →
    ∃ var, s.s_datas name = some var ∧ (s.vars[var]?).map ConfigVar.m_val = some v

variable {s t : ConfigRun τ α} {op : ConfigOp τ α}

theorem mem_given {name : Name} {var : Nat} :
    (name, some var) ∈ s.given ↔ ⟨name, some var⟩ ∈ s.results := by
  unfold given
  rw [List.mem_filterMap]
  constructor
  · rintro ⟨⟨called, result⟩, member, same⟩
    obtain ⟨found, rfl, pair⟩ := Option.map_eq_some_iff.mp same
    cases pair
    exact member
  · intro member
    exact ⟨_, member, rfl⟩

theorem given_answer_some (name : Name) (var : Nat) :
    (s.answer name (some var)).given = s.given ++ [(name, some var)] := by
  simp only [given, answer, List.filterMap_append, List.filterMap_cons, List.filterMap_nil,
    Option.map_some]

theorem given_answer_none (name : Name) : (s.answer name none).given = s.given := by
  simp only [given, answer, List.filterMap_append, List.filterMap_cons, List.filterMap_nil,
    Option.map_none, List.append_nil]

theorem Inv.unique (inv : s.Inv) : s.Unique := by
  have stored : ∀ r ∈ s.results, ∀ var, r.var = some var → s.s_datas r.name = some var := by
    rintro ⟨name, _⟩ member var rfl
    exact inv.recorded.stored name var (mem_given.mpr member)
  refine ⟨?_, stored, inv.kept⟩
  intro a first b second names var var' at_a at_b
  have at_name := stored a first var at_a
  rw [names, stored b second var' at_b] at at_name
  exact (Option.some.inj at_name).symm

theorem boot_inv : (boot : ConfigRun τ α).Inv where
  recorded := recorded_nil fun _ => rfl
  stable := List.Pairwise.nil
  held := by
    intro name var at_name
    cases at_name
  apart := by
    intro name name' var at_name
    cases at_name
  calling := by
    intro thread key var text rest at_thread
    cases at_thread
  kept := by
    intro name v before
    cases before

/-- A thread goes on, to a call only of the variable it has looked up. -/
theorem Inv.goto (inv : s.Inv) {thread : Nat} {pc : ConfigPc τ α}
    (looked : ∀ key var text rest, pc = .calling key var text rest → s.s_datas key = some var) :
    (s.goto thread pc).Inv := by
  refine ⟨inv.recorded, inv.stable, inv.held, inv.apart, ?_, inv.kept⟩
  intro other key var text rest at_other
  change Function.update s.calls thread pc other = _ at at_other
  by_cases here : other = thread
  · subst here
    rw [Function.update_self] at at_other
    exact looked key var text rest at_other
  · rw [Function.update_of_ne here] at at_other
    exact inv.calling other key var text rest at_other

theorem Inv.found (inv : s.Inv) {name : Name} {var : Nat} (at_name : s.s_datas name = some var) :
    (s.answer name (some var)).Inv := by
  obtain ⟨recorded, stable⟩ := inv.recorded.answer inv.stable (k := name)
  rw [at_name] at recorded stable
  refine ⟨?_, ?_, inv.held, inv.apart, inv.calling, inv.kept⟩
  · rw [given_answer_some]
    exact recorded
  · rw [given_answer_some]
    exact stable

theorem Inv.mismatched (inv : s.Inv) (name : Name) : (s.answer name none).Inv := by
  refine ⟨?_, ?_, inv.held, inv.apart, inv.calling, inv.kept⟩
  · rw [given_answer_none]
    exact inv.recorded
  · rw [given_answer_none]
    exact inv.stable

/-- A registration of a name that is still missing. -/
theorem Inv.put (inv : s.Inv) {type : τ} {name : Name} {default_value : α}
    (absent : s.s_datas name = none) :
    ((s.put type name default_value).answer name (some s.vars.length)).Inv := by
  have here : Function.update s.s_datas name (some s.vars.length) name = some s.vars.length :=
    Function.update_self ..
  have others : ∀ other, other ≠ name →
      Function.update s.s_datas name (some s.vars.length) other = s.s_datas other :=
    fun other differs => Function.update_of_ne differs ..
  have differs : ∀ other var, s.s_datas other = some var → other ≠ name := by
    intro other var at_other same
    rw [same, absent] at at_other
    cases at_other
  obtain ⟨recorded, stable⟩ := inv.recorded.put inv.stable absent here others
  refine ⟨?_, ?_, ?_, ?_, ?_, ?_⟩
  · rw [given_answer_some]
    exact recorded
  · rw [given_answer_some]
    exact stable
  · intro other var at_other
    change Function.update s.s_datas name _ other = _ at at_other
    change var < (s.vars ++ _).length
    rw [List.length_append, List.length_singleton]
    by_cases same : other = name
    · rw [same, here] at at_other
      cases at_other
      exact Nat.lt_succ_self _
    · rw [others other same] at at_other
      exact Nat.lt_succ_of_lt (inv.held other var at_other)
  · intro first second var at_first at_second
    change Function.update s.s_datas name _ first = _ at at_first
    change Function.update s.s_datas name _ second = _ at at_second
    by_cases first_new : first = name
    · by_cases second_new : second = name
      · rw [first_new, second_new]
      · rw [first_new, here] at at_first
        cases at_first
        rw [others second second_new] at at_second
        exact absurd (inv.held second _ at_second) (Nat.lt_irrefl _)
    · rw [others first first_new] at at_first
      by_cases second_new : second = name
      · rw [second_new, here] at at_second
        cases at_second
        exact absurd (inv.held first _ at_first) (Nat.lt_irrefl _)
      · rw [others second second_new] at at_second
        exact inv.apart first second var at_first at_second
  · intro thread key var text rest at_thread
    have at_key := inv.calling thread key var text rest at_thread
    exact (others key (differs key var at_key)).trans at_key
  · intro other v before
    obtain ⟨var, at_other, value⟩ := inv.kept other v before
    refine ⟨var, (others other (differs other var at_other)).trans at_other, ?_⟩
    change ((s.vars ++ _)[var]?).map _ = _
    rw [List.getElem?_append_left (inv.held other var at_other)]
    exact value

/-- A value loaded into the variable in the table. -/
theorem Inv.load (inv : s.Inv) {key : Name} {var : Nat} {v : α}
    (at_key : s.s_datas key = some var) : (s.load key var v).Inv := by
  refine ⟨inv.recorded, inv.stable, ?_, inv.apart, inv.calling, ?_⟩
  · intro name other at_name
    change other < (s.vars.modify var _).length
    rw [List.length_modify]
    exact inv.held name other at_name
  · intro name w before
    change Function.update s.loaded key (some v) name = some w at before
    change ∃ other, s.s_datas name = some other ∧ ((s.vars.modify var _)[other]?).map _ = some w
    by_cases same : name = key
    · subst same
      rw [Function.update_self] at before
      cases before
      refine ⟨var, at_key, ?_⟩
      rw [List.getElem?_modify, List.getElem?_eq_getElem (inv.held name var at_key)]
      simp only [↓reduceIte, Option.map_eq_map, Option.map_some]
    · rw [Function.update_of_ne same] at before
      obtain ⟨other, at_name, value⟩ := inv.kept name w before
      have different : var ≠ other := by
        intro equal
        rw [equal] at at_key
        exact same (inv.apart name key other at_name at_key)
      refine ⟨other, at_name, ?_⟩
      rw [List.getElem?_modify]
      simp only [if_neg different, id_map', value]

section Steps

variable [DecidableEq τ] {FromStr : τ → Name → Option α}

theorem insert_cases {thread : Nat} (taken : s.exec FromStr (.insert thread) = some t) :
    ∃ type name default_value, s.calls thread = .inserting type name default_value ∧
      t = ((s.put type name default_value).goto thread .idle).answer name
        (some s.vars.length) := by
  simp only [exec] at taken
  split at taken
  case h_1 type name default_value at_thread =>
    cases taken
    exact ⟨type, name, default_value, at_thread, rfl⟩
  case h_2 => cases taken

theorem Inv.create (inv : s.Inv) {thread : Nat} {type : τ} {name : Name} {default_value : α}
    (taken : s.exec FromStr (.create thread type name default_value) = some t) : t.Inv := by
  simp only [exec] at taken
  split at taken
  case h_2 => cases taken
  case h_1 =>
    split at taken
    case h_1 var at_name =>
      split at taken
      · cases taken
        exact inv.found at_name
      · cases taken
        exact inv.mismatched name
    case h_2 =>
      split at taken
      · cases taken
        exact inv.goto (fun _ _ _ _ impossible => nomatch impossible)
      · cases taken

theorem Inv.lookupBase (inv : s.Inv) {thread : Nat}
    (taken : s.exec FromStr (.lookupBase thread) = some t) : t.Inv := by
  simp only [exec] at taken
  split at taken
  case h_1 =>
    cases taken
    exact inv.goto (fun _ _ _ _ impossible => nomatch impossible)
  case h_3 => cases taken
  case h_2 i rest _ =>
    split at taken
    case h_1 var looked =>
      cases taken
      refine inv.goto ?_
      intro key found text nodes same
      cases same
      split at looked
      · cases looked
      · exact looked
    case h_2 =>
      cases taken
      exact inv.goto (fun _ _ _ _ impossible => nomatch impossible)

theorem Inv.fromString (inv : s.Inv) {thread : Nat}
    (taken : s.exec FromStr (.fromString thread) = some t) : t.Inv := by
  simp only [exec] at taken
  split at taken
  case h_2 => cases taken
  case h_1 key var text rest at_thread =>
    split at taken
    case h_1 v _ =>
      cases taken
      exact (inv.load (inv.calling thread key var text rest at_thread)).goto
        (fun _ _ _ _ impossible => nomatch impossible)
    case h_2 =>
      cases taken
      exact inv.goto (fun _ _ _ _ impossible => nomatch impossible)

theorem Inv.step (inv : s.Inv) (missing : s.StillMissing op)
    (taken : s.exec FromStr op = some t) : t.Inv := by
  cases op with
  | create => exact inv.create taken
  | insert thread =>
      obtain ⟨type, name, default_value, at_thread, rfl⟩ := insert_cases taken
      simp only [StillMissing, at_thread] at missing
      exact (inv.put missing).goto (fun _ _ _ _ impossible => nomatch impossible)
  | loadFromYaml thread root =>
      simp only [exec] at taken
      split at taken <;> cases taken
      exact inv.goto (fun _ _ _ _ impossible => nomatch impossible)
  | lookupBase => exact inv.lookupBase taken
  | fromString => exact inv.fromString taken

/-- A registration over an entry answers with a second variable. -/
theorem not_unique (inv : s.Inv) (overwrites : ¬ s.StillMissing op)
    (taken : s.exec FromStr op = some t) : ¬ t.Unique := by
  cases op with
  | insert thread =>
      obtain ⟨type, name, default_value, at_thread, rfl⟩ := insert_cases taken
      simp only [StillMissing, at_thread] at overwrites
      obtain ⟨old, at_name⟩ := Option.ne_none_iff_exists'.mp overwrites
      intro unique
      have first := List.mem_append_left [⟨name, some s.vars.length⟩]
        (mem_given.mp (inv.recorded.known name old at_name))
      have second := List.mem_append_right s.results (List.mem_singleton_self
        (⟨name, some s.vars.length⟩ : CreateResult))
      have same := unique.same _ first _ second rfl old _ rfl rfl
      have bound := inv.held name old at_name
      omega
  | create | loadFromYaml | lookupBase | fromString => exact absurd trivial overwrites

theorem exec_of_step {o : Unit} (taken : step FromStr s op = some (o, t)) :
    s.exec FromStr op = some t := by
  obtain ⟨u, done, same⟩ := Option.map_eq_some_iff.mp taken
  cases same
  exact done

/-- All along a run there is one variable for each name, with what was loaded, exactly when
every registration finds the name still missing. -/
theorem run_unique_iff {ops : List (ConfigOp τ α)} {outs : List Unit}
    (taken : Transition.run (step FromStr) boot ops = some (outs, s)) :
    Transition.Always (step FromStr) Unique boot ops ↔
      Transition.Along (step FromStr) StillMissing boot ops := by
  have keep : ∀ (s : ConfigRun τ α) op (o : Unit) t, s.Inv → s.StillMissing op →
      step FromStr s op = some (o, t) → t.Inv :=
    fun _ _ _ _ inv missing done => inv.step missing (exec_of_step done)
  have breaks : ∀ (s : ConfigRun τ α) op (o : Unit) t, s.Inv → ¬ s.StillMissing op →
      step FromStr s op = some (o, t) → ¬ t.Unique :=
    fun _ _ _ _ inv overwrites done => not_unique inv overwrites (exec_of_step done)
  exact Transition.always_iff_along (fun _ inv => inv.unique) keep breaks boot_inv taken

end Steps

/-- The string variable `a` of two threads and a document that sets it to `7`, the steps in the
given order. -/
def createTwice (between : List (ConfigOp Unit Name)) : List (ConfigOp Unit Name) :=
  .create 0 () ['a'] ['1'] :: between ++
    [.loadFromYaml 2 (.map [(.scalar ['a'], .scalar ['7'])] []), .lookupBase 2, .lookupBase 2,
      .fromString 2, .lookupBase 2]

/-- The second thread finds the variable of the first. -/
theorem run_unique_shared :
    ∃ outs s, Transition.run (step fun _ text => some text) boot
      (createTwice [.insert 0, .create 1 () ['a'] ['2']]) = some (outs, s) ∧
      s.results = [⟨['a'], some 0⟩, ⟨['a'], some 0⟩] ∧
      s.vars.map ConfigVar.m_val = [['7']] ∧
      Transition.Always (step fun _ text => some text) Unique boot
        (createTwice [.insert 0, .create 1 () ['a'] ['2']]) := by
  have missing : Transition.Along (step fun _ text => some text) StillMissing boot
      (createTwice [.insert 0, .create 1 () ['a'] ['2']]) := by decide
  exact ⟨_, _, rfl, by decide, by decide, (run_unique_iff rfl).mpr missing⟩

/-- Both threads look before either inserts: the second variable takes the place of the first
one, and the value loaded into that is lost. -/
theorem run_not_unique :
    ∃ outs s, Transition.run (step fun _ text => some text) boot
      (createTwice [.create 1 () ['a'] ['2'], .insert 0] ++ [.insert 1]) = some (outs, s) ∧
      s.results = [⟨['a'], some 0⟩, ⟨['a'], some 1⟩] ∧
      s.vars.map ConfigVar.m_val = [['7'], ['2']] ∧ s.s_datas ['a'] = some 1 ∧
      s.loaded ['a'] = some ['7'] ∧ ¬ s.Unique := by
  refine ⟨_, _, rfl, by decide, by decide, by decide, by decide, ?_⟩
  intro unique
  have same := unique.same ⟨['a'], some 0⟩ (by decide) ⟨['a'], some 1⟩ (by decide) rfl 0 1 rfl rfl
  cases same

end ConfigRun

end CorReactor
