import Mathlib.Data.Finmap

set_option autoImplicit false

/-! `Env`, with the arguments of the program. -/

namespace CorReactor

/-- `m_args`, and where the program stands. -/
structure Env where
  m_args : Finmap fun _ : List Char => List Char
  m_program : List Char
  m_exe : List Char
  m_cwd : List Char

namespace Env

abbrev Text := List Char

def add (s : Env) (key val : Text) : Env := { s with m_args := s.m_args.insert key val }

def get (s : Env) (key default_val : Text) : Text := (s.m_args.lookup key).getD default_val

/-- The text in front of the last slash, or the whole of it. -/
def dirname (exe : Text) : Text :=
  match exe.reverse.dropWhile (· ≠ '/') with
  | [] => exe
  | _ :: front => front.reverse

/-- A key that is still waiting for its value gets none. -/
def close (s : Env) : Option Text → Env
  | some now_key => s.add now_key []
  | none => s

/-- The loop over the arguments, with the key that was read last. -/
def initLoop (s : Env) (now_key : Option Text) : List Text → Bool × Env
  | [] => (true, s.close now_key)
  | arg :: rest =>
      if arg.head? = some '-' then
        if arg.length > 1 then (s.close now_key).initLoop (some arg.tail) rest
        else (false, s)
      else
        match now_key with
        | some key => (s.add key arg).initLoop none rest
        | none => (false, s)

/-- `exe` is the text of the link that the system gives. -/
def init (s : Env) (exe program : Text) (args : List Text) : Bool × Env :=
  initLoop ⟨s.m_args, program, exe, dirname exe ++ ['/']⟩ none args

def getAbsolutePath (s : Env) (path : Text) : Text :=
  match path with
  | [] => ['/']
  | c :: rest => if c = '/' then c :: rest else s.m_cwd ++ c :: rest

/-! ### Options -/

/-- A key, with the value behind it if there is one. -/
structure Given (o : Text × Option Text) : Prop where
  key : o.1 ≠ []
  value : ∀ v ∈ o.2, v.head? ≠ some '-'

def rendered (o : Text × Option Text) : List Text := ('-' :: o.1) :: o.2.toList

def put (s : Env) (o : Text × Option Text) : Env := s.add o.1 (o.2.getD [])

/-- What the last of the options with this key gives. -/
def lastValue (options : List (Text × Option Text)) (key : Text) : Option Text :=
  (options.reverse.find? fun o => o.1 = key).map fun o => o.2.getD []

/-- A dash alone, or a value that no key waits for. -/
def Misplaced (options : List (Text × Option Text)) (bad : Text) : Prop :=
  bad = ['-'] ∨ (bad.head? ≠ some '-' ∧ ∀ o ∈ options.getLast?, o.2 ≠ none)

/-- The options that are in `m_args` when the loop stops: a key that waits then is not. -/
def recorded (options : List (Text × Option Text)) : List (Text × Option Text) :=
  if options.getLast?.map Prod.snd = some none then options.dropLast else options

/-- What the loop answers for options and what stands behind them. -/
inductive Outcome (s : Env) (options : List (Text × Option Text)) :
    List Text → Bool × Env → Prop
  | complete : Outcome s options [] (true, options.foldl put s)
  | stopped {bad : Text} (tail : List Text) (misplaced : Misplaced options bad) :
      Outcome s options (bad :: tail) (false, (recorded options).foldl put s)

variable {s : Env} {o : Text × Option Text} {options : List (Text × Option Text)}
  {rest : List Text} {r : Bool × Env}

theorem getLast?_cons_of_ne_nil (more : options ≠ []) :
    (o :: options).getLast? = options.getLast? := by
  obtain ⟨first, behind, rfl⟩ := List.exists_cons_of_ne_nil more
  exact List.getLast?_cons_cons

theorem Misplaced.cons {bad : Text} (settled : o.2 ≠ none ∨ options ≠ [])
    (misplaced : Misplaced options bad) : Misplaced (o :: options) bad := by
  refine misplaced.imp_right fun ⟨plain, valued⟩ => ⟨plain, ?_⟩
  by_cases more : options = []
  · rw [more] at settled ⊢
    intro last inside
    obtain rfl := Option.some.inj inside
    exact settled.resolve_right fun other => other rfl
  · rwa [getLast?_cons_of_ne_nil more]

theorem recorded_cons (settled : o.2 ≠ none ∨ options ≠ []) :
    recorded (o :: options) = o :: recorded options := by
  by_cases more : options = []
  · rw [more] at settled ⊢
    have valued : ¬some o.2 = some none := fun same =>
      settled.elim (fun other => other (Option.some.inj same)) fun other => other rfl
    exact if_neg valued
  · rw [recorded, recorded, getLast?_cons_of_ne_nil more, List.dropLast_cons_of_ne_nil more]
    split <;> rfl

/-- An option in front, whose value is known. -/
theorem Outcome.cons (settled : o.2 ≠ none ∨ options ≠ [])
    (outcome : Outcome (s.put o) options rest r) : Outcome s (o :: options) rest r := by
  cases outcome with
  | complete => exact .complete
  | stopped tail misplaced =>
      have whole := Outcome.stopped (s := s) tail (misplaced.cons settled)
      rwa [recorded_cons settled] at whole

/-! ### Values -/

theorem get_add (s : Env) (key val other default_val : Text) :
    (s.add key val).get other default_val =
      if key = other then val else s.get other default_val := by
  by_cases same : key = other
  · rw [if_pos same, ← same, get, add, Finmap.lookup_insert, Option.getD_some]
  · rw [if_neg same, get, add, Finmap.lookup_insert_of_ne _ (Ne.symm same), get]

theorem lastValue_append (options : List (Text × Option Text)) (o : Text × Option Text)
    (key : Text) : lastValue (options ++ [o]) key =
      if o.1 = key then some (o.2.getD []) else lastValue options key := by
  rw [lastValue, List.reverse_append, List.reverse_singleton, List.singleton_append,
    List.find?_cons]
  by_cases same : o.1 = key
  · rw [if_pos same, decide_eq_true same]
    rfl
  · rw [if_neg same, decide_eq_false same]
    rfl

theorem get_foldl_put (s : Env) (options : List (Text × Option Text)) (key default_val : Text) :
    (options.foldl put s).get key default_val =
      (lastValue options key).getD (s.get key default_val) := by
  induction options using List.reverseRecOn with
  | nil => rfl
  | append_singleton options o ih =>
      rw [List.foldl_append, List.foldl_cons, List.foldl_nil, put, get_add, lastValue_append, ih]
      split <;> rfl

/-! ### The loop -/

theorem initLoop_rendered (s : Env) (now_key : Option Text) (given : ∀ o ∈ options, Given o) :
    s.initLoop now_key (options.flatMap rendered) =
      (true, options.foldl put (s.close now_key)) := by
  induction options generalizing s now_key with
  | nil => rfl
  | cons o options ih =>
      obtain ⟨some_key, plain⟩ := given o List.mem_cons_self
      have behind : ∀ o ∈ options, Given o := fun o inside =>
        given o (List.mem_cons_of_mem _ inside)
      obtain ⟨key, value⟩ := o
      have long : ('-' :: key).length > 1 := by
        rw [List.length_cons]
        exact Nat.succ_lt_succ (List.length_pos_of_ne_nil some_key)
      rw [List.flatMap_cons, rendered, List.cons_append, initLoop.eq_def]
      dsimp only
      rw [if_pos List.head?_cons, if_pos long]
      cases value with
      | none => exact ih (s.close now_key) (some key) behind
      | some v =>
          refine Eq.trans ?_ (ih ((s.close now_key).add key v) none behind)
          exact if_neg (plain v rfl)

/-- The induction is on the arguments; a key that waits is written back in front of them. -/
theorem initLoop_outcome (args : List Text) (s : Env) (now_key : Option Text)
    (waiting : ∀ key ∈ now_key, key ≠ []) :
    ∃ options rest, (∀ o ∈ options, Given o) ∧
      (now_key.toList.map fun key => '-' :: key) ++ args = options.flatMap rendered ++ rest ∧
      (now_key ≠ none → options ≠ []) ∧ Outcome s options rest (s.initLoop now_key args) := by
  have alone {key : Text} (some_key : key ≠ []) : ∀ o ∈ [(key, (none : Option Text))], Given o := by
    intro o inside
    rw [List.mem_singleton.mp inside]
    exact ⟨some_key, fun v absent => absurd absent (Option.not_mem_none v)⟩
  have front {o : Text × Option Text} {options : List (Text × Option Text)} (first : Given o)
      (behind : ∀ o ∈ options, Given o) : ∀ x ∈ o :: options, Given x :=
    List.forall_mem_cons.mpr ⟨first, behind⟩
  induction args generalizing s now_key with
  | nil =>
      cases now_key with
      | none => exact ⟨[], [], fun _ => nofun, rfl, fun same => absurd rfl same, .complete⟩
      | some key =>
          exact ⟨[(key, none)], [], alone (waiting key rfl), rfl, fun _ => List.cons_ne_nil _ _,
            .complete⟩
  | cons arg args ih =>
      rw [initLoop.eq_def]
      dsimp only
      by_cases dash : arg.head? = some '-'
      · obtain ⟨k, rfl⟩ : ∃ k, arg = '-' :: k := List.head?_eq_some_iff.mp dash
        by_cases long : ('-' :: k).length > 1
        · rw [if_pos dash, if_pos long, List.tail_cons]
          have some_key : k ≠ [] := by
            rintro rfl
            exact absurd long (by decide)
          obtain ⟨options, rest, given, text, more, outcome⟩ :=
            ih (s.close now_key) (some k) fun key same => Option.some.inj same ▸ some_key
          cases now_key with
          | none => exact ⟨options, rest, given, text, fun same => absurd rfl same, outcome⟩
          | some key =>
              refine ⟨(key, none) :: options, rest, ?_, ?_, fun _ => List.cons_ne_nil _ _,
                outcome.cons (Or.inr (more (Option.some_ne_none k)))⟩
              · exact front (alone (waiting key rfl) _ List.mem_cons_self) given
              · exact congrArg (('-' :: key) :: ·) text
        · rw [if_pos dash, if_neg long]
          have short : ('-' :: k) = ['-'] := by
            cases k with
            | nil => rfl
            | cons c k => exact absurd (Nat.succ_lt_succ (Nat.succ_pos k.length)) long
          rw [short]
          cases now_key with
          | none =>
              exact ⟨[], _, fun _ => nofun, rfl, fun same => absurd rfl same,
                .stopped args (Or.inl rfl)⟩
          | some key =>
              exact ⟨[(key, none)], _, alone (waiting key rfl), rfl,
                fun _ => List.cons_ne_nil _ _, .stopped args (Or.inl rfl)⟩
      · rw [if_neg dash]
        cases now_key with
        | none =>
            exact ⟨[], _, fun _ => nofun, rfl, fun same => absurd rfl same,
              .stopped args (Or.inr ⟨dash, fun _ => nofun⟩)⟩
        | some key =>
            obtain ⟨options, rest, given, text, -, outcome⟩ :=
              ih (s.add key arg) none fun _ => nofun
            refine ⟨(key, some arg) :: options, rest, ?_, ?_, fun _ => List.cons_ne_nil _ _,
              outcome.cons (Or.inl (Option.some_ne_none arg))⟩
            · refine front ⟨waiting key rfl, fun v same => ?_⟩ given
              exact Option.some.inj same ▸ dash
            · exact congrArg (fun args => ('-' :: key) :: arg :: args) text

/-- Options that are written out are read back, the last one of a key counting; and whatever is
given, the options up to the first misplaced argument are what is read, a key that waits there
apart. -/
theorem init_reads (s : Env) (exe program : Text) :
    (∀ options, (∀ o ∈ options, Given o) →
      (s.init exe program (options.flatMap rendered)).1 = true ∧
      ∀ key default_val, (s.init exe program (options.flatMap rendered)).2.get key default_val =
        (lastValue options key).getD (s.get key default_val)) ∧
    ∀ args, ∃ options rest, (∀ o ∈ options, Given o) ∧ args = options.flatMap rendered ++ rest ∧
      ((s.init exe program args).1 = true → rest = []) ∧
      ((s.init exe program args).1 = false → ∃ bad tail, rest = bad :: tail ∧
        Misplaced options bad ∧
        ∀ key default_val, (s.init exe program args).2.get key default_val =
          (lastValue (recorded options) key).getD (s.get key default_val)) := by
  refine ⟨fun options given => ?_, fun args => ?_⟩
  · rw [init, initLoop_rendered _ none given]
    exact ⟨rfl, get_foldl_put _ options⟩
  · obtain ⟨options, rest, given, text, -, outcome⟩ := initLoop_outcome args
      ⟨s.m_args, program, exe, dirname exe ++ ['/']⟩ none fun _ => nofun
    refine ⟨options, rest, given, text, ?_⟩
    rw [init]
    generalize initLoop _ none args = r at outcome
    cases outcome with
    | complete => exact ⟨fun _ => rfl, nofun⟩
    | stopped tail misplaced =>
        exact ⟨nofun, fun _ => ⟨_, tail, rfl, misplaced, get_foldl_put _ (recorded options)⟩⟩

/-! ### Paths -/

theorem dirname_prefix (exe : Text) : dirname exe <+: exe := by
  unfold dirname
  split
  · exact List.prefix_refl exe
  · rename_i slash front here
    have behind : slash :: front <:+ exe.reverse := here ▸ List.dropWhile_suffix _
    have reversed := List.reverse_prefix.mpr ((List.suffix_cons slash front).trans behind)
    rwa [List.reverse_reverse] at reversed

theorem foldl_put_m_cwd (s : Env) (options : List (Text × Option Text)) :
    (options.foldl put s).m_cwd = s.m_cwd := by
  induction options generalizing s with
  | nil => rfl
  | cons o options ih => exact ih (s.put o)

/-- The arguments do not touch the directory. -/
theorem init_m_cwd (s : Env) (exe program : Text) (args : List Text) :
    (s.init exe program args).2.m_cwd = dirname exe ++ ['/'] := by
  obtain ⟨options, rest, -, -, -, outcome⟩ := initLoop_outcome args
    ⟨s.m_args, program, exe, dirname exe ++ ['/']⟩ none fun _ => nofun
  rw [init]
  generalize initLoop _ none args = r at outcome
  cases outcome with
  | complete => exact foldl_put_m_cwd _ options
  | stopped tail misplaced => exact foldl_put_m_cwd _ (recorded options)

/-- Where the link of the program is absolute, every path comes out absolute. -/
theorem getAbsolutePath_absolute {exe : Text} (absolute : exe.head? = some '/') (s : Env)
    (program : Text) (args : List Text) (path : Text) :
    ((s.init exe program args).2.getAbsolutePath path).head? = some '/' := by
  have slash : (dirname exe ++ ['/']).head? = some '/' := by
    obtain ⟨rest, whole⟩ := dirname_prefix exe
    cases front : dirname exe with
    | nil => rfl
    | cons c front' =>
        rw [front] at whole
        rw [← whole] at absolute
        exact absolute
  unfold getAbsolutePath
  split
  · rfl
  · rename_i c rest
    split
    · rename_i same
      rw [same]
      rfl
    · obtain ⟨front, whole⟩ := List.head?_eq_some_iff.mp slash
      rw [init_m_cwd, whole]
      rfl

end Env

end CorReactor
