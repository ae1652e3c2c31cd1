import Mathlib.Logic.Function.Basic
import CorReactor.Config
import CorReactor.Transition

set_option autoImplicit false

/-! Reloading a directory of configuration files while they are modified. -/

namespace CorReactor

structure ConfigFile (κ : Type) where
  content : κ
  st_mtime : Int64

/-- The `.yml` files of a directory. -/
structure ConfigDir (κ : Type) where
  names : List Name
  find : Name → Option (ConfigFile κ)
  present : ∀ file, file ∈ names ↔ (find file).isSome = true

/-- What has happened to the files. `held` is a ghost: what `s_file2modifytime` had for the file
when it was modified. -/
inductive ConfigEvent
  | modified (file : Name) (held : UInt64) (st_mtime : Int64)
  | loaded (file : Name) (root : Yaml)

/-- The history has the latest event first. -/
structure ConfigReload (κ : Type) where
  dir : ConfigDir κ
  s_file2modifytime : Name → UInt64
  history : List ConfigEvent

inductive ReloadOp (κ : Type)
  | modify (file : Name) (content : κ) (now : Int64)
  | load

namespace ConfigDir

variable {κ : Type}

def empty (κ : Type) : ConfigDir κ where
  names := []
  find _ := none
  present file := by simp only [List.not_mem_nil, Option.isSome_none, Bool.false_eq_true]

def write (dir : ConfigDir κ) (file : Name) (f : ConfigFile κ) : ConfigDir κ where
  names := dir.names.insert file
  find := Function.update dir.find file (some f)
  present other := by
    rw [List.mem_insert_iff, dir.present]
    by_cases same : other = file
    · rw [same, Function.update_self]
      exact ⟨fun _ => rfl, fun _ => Or.inl rfl⟩
    · rw [Function.update_of_ne same]
      exact ⟨fun either => either.resolve_left same, Or.inr⟩

end ConfigDir

namespace ConfigReload

variable {κ : Type}

/-- A process that has loaded nothing. -/
def new (κ : Type) : ConfigReload κ := ⟨ConfigDir.empty κ, fun _ => 0, []⟩

def modify (s : ConfigReload κ) (file : Name) (content : κ) (now : Int64) : ConfigReload κ :=
  { s with
    dir := s.dir.write file ⟨content, now⟩
    history := .modified file (s.s_file2modifytime file) now :: s.history }

section

variable (ListAllFile : List Name → List Name) (LoadFile : κ → Option Yaml)

/-- The body of the loop; a file that is listed is there. -/
def loadFile (s : ConfigReload κ) (file : Name) : ConfigReload κ :=
  match s.dir.find file with
  | none => s
  | some f =>
      if s.s_file2modifytime file = f.st_mtime.toUInt64 then s
      else
        { s with
          s_file2modifytime := Function.update s.s_file2modifytime file f.st_mtime.toUInt64
          history :=
            match LoadFile f.content with
            | none => s.history
            | some root => .loaded file root :: s.history }

def LoadFromConfDir (s : ConfigReload κ) : ConfigReload κ :=
  (ListAllFile s.dir.names).foldl (loadFile LoadFile) s

def step : Transition.Step (ConfigReload κ) (ReloadOp κ) Unit := fun s op =>
  match op with
  | .modify file content now => some ((), s.modify file content now)
  | .load => some ((), s.LoadFromConfDir ListAllFile LoadFile)

end

/-- What `LoadFromYaml` has got of the file since it was last modified. -/
def passed (file : Name) : List ConfigEvent → List Yaml
  | [] => []
  | .loaded other root :: rest =>
      if other = file then root :: passed file rest else passed file rest
  | .modified other _ _ :: rest => if other = file then [] else passed file rest

/-- The time that the last modification gave the file, and what was held for it then. -/
def lastModified (file : Name) : List ConfigEvent → Option (UInt64 × Int64)
  | [] => none
  | .loaded _ _ :: rest => lastModified file rest
  | .modified other held st_mtime :: rest =>
      if other = file then some (held, st_mtime) else lastModified file rest

/-- The last modification gave the file the time that was held for it. -/
def SameSecond (s : ConfigReload κ) (file : Name) : Prop :=
  ∃ st_mtime, lastModified file s.history = some (Int64.toUInt64 st_mtime, st_mtime)

/-! ### The invariant -/

variable {ListAllFile : List Name → List Name} {LoadFile : κ → Option Yaml}
  {s : ConfigReload κ} {file other : Name} {f : ConfigFile κ}

/-- How a file stands: behind a time that was held already, loaded, or still to be loaded. -/
structure Standing (LoadFile : κ → Option Yaml) (s : ConfigReload κ) (file : Name)
    (f : ConfigFile κ) (held : UInt64) : Prop where
  last : lastModified file s.history = some (held, f.st_mtime)
  hidden : held = f.st_mtime.toUInt64 → s.s_file2modifytime file = f.st_mtime.toUInt64 ∧
    passed file s.history = []
  loaded : held ≠ f.st_mtime.toUInt64 → s.s_file2modifytime file = f.st_mtime.toUInt64 →
    passed file s.history = (LoadFile f.content).toList
  pending : held ≠ f.st_mtime.toUInt64 → s.s_file2modifytime file ≠ f.st_mtime.toUInt64 →
    passed file s.history = []

def Settled (LoadFile : κ → Option Yaml) (s : ConfigReload κ) : Prop :=
  ∀ file f, s.dir.find file = some f → ∃ held, Standing LoadFile s file f held

/-- A step that does not concern the file. -/
theorem Standing.of_same {s' : ConfigReload κ} {held : UInt64}
    (standing : Standing LoadFile s file f held)
    (last : lastModified file s'.history = lastModified file s.history)
    (same : passed file s'.history = passed file s.history)
    (time : s'.s_file2modifytime file = s.s_file2modifytime file) :
    Standing LoadFile s' file f held where
  last := last.trans standing.last
  hidden := by
    rw [same, time]
    exact standing.hidden
  loaded := by
    rw [same, time]
    exact standing.loaded
  pending := by
    rw [same, time]
    exact standing.pending

theorem Settled.modify (settled : Settled LoadFile s) (file : Name) (content : κ) (now : Int64) :
    Settled LoadFile (s.modify file content now) := by
  intro other f found
  by_cases here : other = file
  · rw [here] at found ⊢
    have written : (⟨content, now⟩ : ConfigFile κ) = f := by
      refine Option.some_inj.mp (Eq.trans ?_ found)
      exact (Function.update_self file _ s.dir.find).symm
    rw [← written]
    have nothing : passed file (s.modify file content now).history = [] := if_pos rfl
    refine ⟨s.s_file2modifytime file, if_pos rfl, fun same => ⟨same, nothing⟩,
      fun apart same => absurd same apart, fun _ _ => nothing⟩
  · have kept : s.dir.find other = some f := by
      rw [← found]
      exact (Function.update_of_ne here _ s.dir.find).symm
    obtain ⟨held, standing⟩ := settled other f kept
    exact ⟨held, standing.of_same (if_neg (Ne.symm here)) (if_neg (Ne.symm here)) rfl⟩

/-! ### One file -/

@[simp] theorem loadFile_dir (LoadFile : κ → Option Yaml) (s : ConfigReload κ) (file : Name) :
    (loadFile LoadFile s file).dir = s.dir := by
  unfold loadFile
  split
  · rfl
  · split <;> rfl

theorem loadFile_held (LoadFile : κ → Option Yaml) (found : s.dir.find file = some f)
    (same : s.s_file2modifytime file = f.st_mtime.toUInt64) :
    loadFile LoadFile s file = s := by
  simp only [loadFile, found, same, ↓reduceIte]

theorem loadFile_new (LoadFile : κ → Option Yaml) (found : s.dir.find file = some f)
    (apart : s.s_file2modifytime file ≠ f.st_mtime.toUInt64) :
    (loadFile LoadFile s file).s_file2modifytime =
        Function.update s.s_file2modifytime file f.st_mtime.toUInt64 ∧
      (loadFile LoadFile s file).history =
        ((LoadFile f.content).map (ConfigEvent.loaded file)).toList ++ s.history := by
  simp only [loadFile, found, apart, ↓reduceIte, true_and]
  cases LoadFile f.content <;> rfl

/-- Only its own file can come to stand otherwise. -/
theorem loadFile_other (LoadFile : κ → Option Yaml) (s : ConfigReload κ) (apart : other ≠ file) :
    (loadFile LoadFile s file).s_file2modifytime other = s.s_file2modifytime other ∧
      passed other (loadFile LoadFile s file).history = passed other s.history := by
  unfold loadFile
  split
  · exact ⟨rfl, rfl⟩
  · split
    · exact ⟨rfl, rfl⟩
    · refine ⟨Function.update_of_ne apart _ _, ?_⟩
      dsimp only
      split
      · rfl
      · exact if_neg (Ne.symm apart)

theorem loadFile_lastModified (LoadFile : κ → Option Yaml) (s : ConfigReload κ)
    (file other : Name) :
    lastModified other (loadFile LoadFile s file).history = lastModified other s.history := by
  unfold loadFile
  split
  · rfl
  · split
    · rfl
    · dsimp only
      split <;> rfl

/-- After its turn the time of a file is held. -/
theorem loadFile_time (LoadFile : κ → Option Yaml) (found : s.dir.find file = some f) :
    (loadFile LoadFile s file).s_file2modifytime file = f.st_mtime.toUInt64 := by
  by_cases same : s.s_file2modifytime file = f.st_mtime.toUInt64
  · rw [loadFile_held LoadFile found same, same]
  · rw [(loadFile_new LoadFile found same).1, Function.update_self]

theorem Standing.loadFile {held : UInt64} (standing : Standing LoadFile s file f held)
    (found : s.dir.find file = some f) :
    Standing LoadFile (s.loadFile LoadFile file) file f held := by
  by_cases same : s.s_file2modifytime file = f.st_mtime.toUInt64
  · rw [loadFile_held LoadFile found same]
    exact standing
  · obtain ⟨time, history⟩ := loadFile_new LoadFile found same
    refine ⟨?_, fun hidden => absurd (standing.hidden hidden).1 same, fun apart _ => ?_,
      fun _ later => absurd (loadFile_time LoadFile found) later⟩
    · rw [loadFile_lastModified, standing.last]
    · have nothing := standing.pending apart same
      rw [history]
      cases LoadFile f.content with
      | none => exact nothing
      | some root =>
          change (if file = file then root :: passed file s.history else _) = [root]
          rw [if_pos rfl, nothing]

theorem Settled.loadFile (settled : Settled LoadFile s) (file : Name) :
    Settled LoadFile (s.loadFile LoadFile file) := by
  intro other f found
  rw [loadFile_dir] at found
  obtain ⟨held, standing⟩ := settled other f found
  refine ⟨held, ?_⟩
  by_cases here : other = file
  · rw [← here]
    exact standing.loadFile found
  · obtain ⟨time, same⟩ := loadFile_other LoadFile s here
    exact standing.of_same (loadFile_lastModified LoadFile s file other) same time

/-! ### The loop -/

/-- The times that are held stay so. -/
theorem loadFile_keeps (found : s.dir.find other = some f)
    (same : s.s_file2modifytime other = f.st_mtime.toUInt64) (file : Name) :
    (loadFile LoadFile s file).s_file2modifytime other = f.st_mtime.toUInt64 := by
  by_cases here : other = file
  · rw [← here]
    exact loadFile_time LoadFile found
  · rw [(loadFile_other LoadFile s here).1, same]

theorem foldl_keeps (files : List Name) (found : s.dir.find other = some f)
    (same : s.s_file2modifytime other = f.st_mtime.toUInt64) :
    (files.foldl (loadFile LoadFile) s).s_file2modifytime other = f.st_mtime.toUInt64 := by
  induction files generalizing s with
  | nil => exact same
  | cons file files ih =>
      rw [List.foldl_cons]
      refine ih ?_ (loadFile_keeps found same file)
      rw [loadFile_dir]
      exact found

theorem foldl_dir (files : List Name) : (files.foldl (loadFile LoadFile) s).dir = s.dir := by
  induction files generalizing s with
  | nil => rfl
  | cons file files ih => rw [List.foldl_cons, ih, loadFile_dir]

theorem foldl_settled (files : List Name) (settled : Settled LoadFile s) :
    Settled LoadFile (files.foldl (loadFile LoadFile) s) := by
  induction files generalizing s with
  | nil => exact settled
  | cons file files ih => exact ih (settled.loadFile file)

/-- The loop holds the times of all files that it goes through. -/
theorem foldl_time (LoadFile : κ → Option Yaml) (files : List Name) (listed : other ∈ files)
    (found : s.dir.find other = some f) :
    (files.foldl (loadFile LoadFile) s).s_file2modifytime other = f.st_mtime.toUInt64 := by
  induction files generalizing s with
  | nil => exact absurd listed List.not_mem_nil
  | cons file files ih =>
      rw [List.foldl_cons]
      have kept : (loadFile LoadFile s file).dir.find other = some f := by
        rw [loadFile_dir]
        exact found
      obtain here | later := List.mem_cons.mp listed
      · refine foldl_keeps files kept ?_
        rw [← here]
        exact loadFile_time LoadFile found
      · exact ih later kept

/-! ### Runs -/

theorem reached_settled (reached : Transition.Reachable (step ListAllFile LoadFile) (new κ) s) :
    Settled LoadFile s := by
  refine Transition.Reachable.invariant ?_ ?_ reached
  · intro s op _ t settled taken
    cases op with
    | modify file content now =>
        obtain ⟨-, rfl⟩ := Prod.mk.inj (Option.some_inj.mp taken)
        exact settled.modify file content now
    | load =>
        obtain ⟨-, rfl⟩ := Prod.mk.inj (Option.some_inj.mp taken)
        exact foldl_settled _ settled
  · intro file f found
    cases found

/-- After a call a file that can be parsed has been passed on since it was last modified, unless
the modification gave it the time that was held for it. -/
theorem reload_passed_iff (lists : ∀ names file, file ∈ ListAllFile names ↔ file ∈ names)
    (reached : Transition.Reachable (step ListAllFile LoadFile) (new κ) s)
    (found : (s.LoadFromConfDir ListAllFile LoadFile).dir.find file = some f) {root : Yaml}
    (parses : LoadFile f.content = some root) :
    root ∈ passed file (s.LoadFromConfDir ListAllFile LoadFile).history ↔
      ¬SameSecond (s.LoadFromConfDir ListAllFile LoadFile) file := by
  have settled := foldl_settled (ListAllFile s.dir.names) (reached_settled reached)
  obtain ⟨held, standing⟩ := settled file f found
  have before : s.dir.find file = some f := by
    rw [← foldl_dir (ListAllFile s.dir.names)]
    exact found
  have listed : file ∈ ListAllFile s.dir.names := by
    rw [lists, s.dir.present, before]
    rfl
  have time := foldl_time LoadFile _ listed before
  unfold LoadFromConfDir
  by_cases same : held = f.st_mtime.toUInt64
  · rw [(standing.hidden same).2]
    refine ⟨fun inside => absurd inside List.not_mem_nil, fun apart => absurd ?_ apart⟩
    exact ⟨f.st_mtime, by rw [standing.last, same]⟩
  · rw [standing.loaded same time, parses, Option.toList_some, List.mem_singleton]
    refine ⟨fun _ both => ?_, fun _ => rfl⟩
    obtain ⟨st_mtime, last⟩ := both
    rw [standing.last] at last
    obtain ⟨first, second⟩ := Prod.mk.inj (Option.some_inj.mp last)
    rw [← second] at first
    exact same first

/-- Two modifications around a call, at the given times. -/
def rewritten (first second : Int64) : ConfigReload Yaml :=
  (((new Yaml).modify ['a'] (.scalar ['1']) first).LoadFromConfDir id some).modify ['a']
    (.scalar ['2']) second

theorem rewritten_reached (first second : Int64) :
    Transition.Reachable (step id some) (new Yaml) (rewritten first second) :=
  ⟨[.modify ['a'] (.scalar ['1']) first, .load, .modify ['a'] (.scalar ['2']) second],
    [(), (), ()], rfl⟩

theorem reload_passed_two :
    .scalar ['2'] ∈ passed ['a'] ((rewritten 10 11).LoadFromConfDir id some).history := by
  have passes := @reload_passed_iff Yaml id some (rewritten 10 11) ['a'] ⟨.scalar ['2'], 11⟩
    (fun _ _ => Iff.rfl) (rewritten_reached 10 11) rfl (.scalar ['2']) rfl
  refine passes.mpr fun same => ?_
  obtain ⟨st_mtime, last⟩ := same
  have held : lastModified ['a'] ((rewritten 10 11).LoadFromConfDir id some).history =
      some (10, 11) := rfl
  rw [held] at last
  obtain ⟨first, second⟩ := Prod.mk.inj (Option.some_inj.mp last)
  rw [← second] at first
  exact absurd first (by decide)

/-- The second modification falls in the second of the first one, after the call. -/
theorem reload_misses :
    ¬∀ s : ConfigReload Yaml, Transition.Reachable (step id some) (new Yaml) s →
      ∀ file f root, (s.LoadFromConfDir id some).dir.find file = some f →
        some f.content = some root →
        root ∈ passed file (s.LoadFromConfDir id some).history := by
  intro always
  have inside := always (rewritten 10 10) (rewritten_reached 10 10) ['a'] ⟨.scalar ['2'], 10⟩
    (.scalar ['2']) rfl rfl
  have nothing : passed ['a'] ((rewritten 10 10).LoadFromConfDir id some).history = [] := rfl
  rw [nothing] at inside
  exact absurd inside List.not_mem_nil

end ConfigReload

end CorReactor
