import Mathlib.Data.List.Infix
import Mathlib.Data.List.Nodup

set_option autoImplicit false

/-! File trees: finitely many entries, each under the names that lead to it from the root, and
the calls that look entries up and take them away. -/

inductive FileKind
  | regular | directory | symlink | fifo | socket | character | block
  deriving DecidableEq

/-- Every entry but the root stands in a directory. -/
structure FileTree (ν : Type*) where
  entries : List (List ν × FileKind)
  unique : (entries.map Prod.fst).Nodup
  rooted : ∀ q n k, (q ++ [n], k) ∈ entries → (q, FileKind.directory) ∈ entries

namespace FileTree

variable {ν : Type*}

/-- The entries whose paths are kept, where every path is kept with those above it. -/
def restrict (t : FileTree ν) (keep : List ν → Bool)
    (closed : ∀ q n k, (q ++ [n], k) ∈ t.entries → keep (q ++ [n]) = true → keep q = true) :
    FileTree ν where
  entries := t.entries.filter fun e => keep e.1
  unique := t.unique.sublist (List.filter_sublist.map Prod.fst)
  rooted q n k found := by
    obtain ⟨inside, kept⟩ := List.mem_filter.mp found
    exact List.mem_filter.mpr ⟨t.rooted q n k inside, closed q n k inside kept⟩

/-- What stands above an entry is a directory. -/
theorem above {t : FileTree ν} {q s : List ν} {k : FileKind} (found : (s, k) ∈ t.entries)
    (above : q <+: s) (strict : q ≠ s) : (q, FileKind.directory) ∈ t.entries := by
  induction s using List.reverseRecOn generalizing k with
  | nil => exact absurd (List.prefix_nil.mp above) strict
  | append_singleton s n ih =>
      have parent := t.rooted s n k found
      obtain same | higher := List.prefix_concat_iff.mp above
      · exact absurd same strict
      · by_cases here : q = s
        · rw [here]
          exact parent
        · exact ih parent higher here

variable [DecidableEq ν]

def lstat (t : FileTree ν) (path : List ν) : Option FileKind :=
  (t.entries.find? fun e => e.1 = path).map Prod.snd

theorem lstat_eq_some {t : FileTree ν} {path : List ν} {k : FileKind} :
    t.lstat path = some k ↔ (path, k) ∈ t.entries := by
  rw [lstat, Option.map_eq_some_iff]
  constructor
  · intro looked
    obtain ⟨e, found, kind⟩ := looked
    have here : e.1 = path := by simpa only [decide_eq_true_eq] using List.find?_some found
    rw [← here, ← kind]
    exact List.mem_of_find?_eq_some found
  · intro inside
    cases found : t.entries.find? fun e => e.1 = path with
    | none =>
        refine absurd (List.find?_eq_none.mp found _ inside) ?_
        simp only [decide_true, not_true_eq_false, not_false_eq_true]
    | some e =>
        have here : e.1 = path := by simpa only [decide_eq_true_eq] using List.find?_some found
        have same : e = (path, k) :=
          List.inj_on_of_nodup_map t.unique (List.mem_of_find?_eq_some found) inside here
        exact ⟨e, rfl, congrArg Prod.snd same⟩

theorem lstat_eq_none {t : FileTree ν} {path : List ν} :
    t.lstat path = none ↔ ∀ k, (path, k) ∉ t.entries := by
  rw [Option.eq_none_iff_forall_not_mem]
  exact forall_congr' fun k => not_congr lstat_eq_some

def root : FileTree ν where
  entries := [([], FileKind.directory)]
  unique := List.nodup_singleton _
  rooted q n k found := by
    have same : q ++ [n] = [] := congrArg Prod.fst (List.mem_singleton.mp found)
    exact absurd same (List.append_ne_nil_of_right_ne_nil q (List.cons_ne_nil n []))

/-- A new entry in a directory. -/
def create (t : FileTree ν) (path : List ν) (n : ν) (k : FileKind)
    (parent : t.lstat path = some FileKind.directory) (fresh : t.lstat (path ++ [n]) = none) :
    FileTree ν where
  entries := t.entries ++ [(path ++ [n], k)]
  unique := by
    rw [List.map_append, List.map_singleton, List.nodup_append_comm, List.singleton_append,
      List.nodup_cons]
    refine ⟨fun found => ?_, t.unique⟩
    obtain ⟨e, inside, here⟩ := List.mem_map.mp found
    have same : e.1 = path ++ [n] := here
    refine lstat_eq_none.mp fresh e.2 ?_
    rw [← same]
    exact inside
  rooted q m j found := by
    obtain inside | new := List.mem_append.mp found
    · exact List.mem_append_left _ (t.rooted q m j inside)
    · have same := congrArg Prod.fst (List.mem_singleton.mp new)
      rw [(List.append_inj' same rfl).1]
      exact List.mem_append_left _ (lstat_eq_some.mp parent)

/-- The last name of an entry that stands right in the directory. -/
def nameIn (path q : List ν) : Option ν := if q.dropLast = path then q.getLast? else none

theorem nameIn_eq_some {path q : List ν} {n : ν} : nameIn path q = some n ↔ q = path ++ [n] := by
  unfold nameIn
  constructor
  · intro named
    split at named
    · rename_i parent
      obtain ⟨front, rfl⟩ := List.getLast?_eq_some_iff.mp named
      rw [← parent, List.dropLast_concat]
    · cases named
  · intro here
    rw [here, List.dropLast_concat, if_pos rfl, List.getLast?_concat]

/-- The names in a directory. -/
def names (t : FileTree ν) (path : List ν) : List ν :=
  t.entries.filterMap fun e => nameIn path e.1

theorem mem_names {t : FileTree ν} {path : List ν} {n : ν} :
    n ∈ t.names path ↔ ∃ k, (path ++ [n], k) ∈ t.entries := by
  rw [names, List.mem_filterMap]
  constructor
  · intro found
    obtain ⟨e, inside, named⟩ := found
    refine ⟨e.2, ?_⟩
    rw [← nameIn_eq_some.mp named]
    exact inside
  · intro found
    obtain ⟨k, inside⟩ := found
    exact ⟨(path ++ [n], k), inside, nameIn_eq_some.mpr rfl⟩

/-- An entry with nothing in it is taken away. -/
def erase (t : FileTree ν) (path : List ν) (leaf : t.names path = []) : FileTree ν :=
  t.restrict (fun q => q ≠ path) fun q n k found _ => by
    rw [decide_eq_true_eq]
    intro here
    rw [here] at found
    have inside : n ∈ t.names path := mem_names.mpr ⟨k, found⟩
    rw [leaf] at inside
    exact List.not_mem_nil inside

/-- Nothing stands in an entry that is no directory. -/
theorem names_of_leaf {t : FileTree ν} {path : List ν}
    (leaf : t.lstat path ≠ some FileKind.directory) : t.names path = [] := by
  rw [List.eq_nil_iff_forall_not_mem]
  intro n named
  obtain ⟨k, found⟩ := mem_names.mp named
  exact leaf (lstat_eq_some.mpr (t.rooted path n k found))

def opendir (t : FileTree ν) (path : List ν) : Bool := t.lstat path = some FileKind.directory

def unlink (t : FileTree ν) (path : List ν) : Bool × FileTree ν :=
  if leaf : t.lstat path ≠ none ∧ t.lstat path ≠ some FileKind.directory then
    (true, t.erase path (names_of_leaf leaf.2))
  else (false, t)

def rmdir (t : FileTree ν) (path : List ν) : Bool × FileTree ν :=
  if empty : t.lstat path = some FileKind.directory ∧ t.names path = [] then
    (true, t.erase path empty.2)
  else (false, t)

theorem mem_erase {t : FileTree ν} {path : List ν} (leaf : t.names path = [])
    (e : List ν × FileKind) :
    e ∈ (t.erase path leaf).entries ↔ e ∈ t.entries ∧ e.1 ≠ path := by
  rw [erase, restrict, List.mem_filter, decide_eq_true_eq]

theorem unlink_of_leaf {t : FileTree ν} {path : List ν} {k : FileKind}
    (found : t.lstat path = some k) (leaf : k ≠ FileKind.directory) :
    (t.unlink path).1 = true ∧
      ∀ e, e ∈ (t.unlink path).2.entries ↔ e ∈ t.entries ∧ e.1 ≠ path := by
  have there : t.lstat path ≠ none ∧ t.lstat path ≠ some FileKind.directory := by
    rw [found]
    exact ⟨Option.some_ne_none k, fun same => leaf (Option.some_inj.mp same)⟩
  rw [unlink, dif_pos there]
  exact ⟨rfl, mem_erase (names_of_leaf there.2)⟩

theorem rmdir_of_empty {t : FileTree ν} {path : List ν}
    (found : t.lstat path = some FileKind.directory) (empty : t.names path = []) :
    (t.rmdir path).1 = true ∧
      ∀ e, e ∈ (t.rmdir path).2.entries ↔ e ∈ t.entries ∧ e.1 ≠ path := by
  rw [rmdir, dif_pos ⟨found, empty⟩]
  exact ⟨rfl, mem_erase empty⟩

theorem rmdir_of_names {t : FileTree ν} {path : List ν} (some : t.names path ≠ []) :
    t.rmdir path = (false, t) := dif_neg fun both => some both.2

/-- Below a directory one of its names leads on. -/
theorem exists_name {t : FileTree ν} {path : List ν} {e : List ν × FileKind}
    (found : e ∈ t.entries) (below : path <+: e.1) (strict : e.1 ≠ path) :
    ∃ n ∈ t.names path, path ++ [n] <+: e.1 := by
  obtain ⟨rest, split⟩ := below
  cases rest with
  | nil => exact absurd (split.symm.trans (List.append_nil path)) strict
  | cons n rest =>
      have onward : path ++ [n] <+: e.1 := ⟨rest, by rw [← split, List.append_assoc]; rfl⟩
      refine ⟨n, mem_names.mpr ?_, onward⟩
      by_cases here : path ++ [n] = e.1
      · refine ⟨e.2, ?_⟩
        rw [here]
        exact found
      · exact ⟨FileKind.directory, above found onward here⟩

/-- Nothing is below an entry that is no directory. -/
theorem eq_of_leaf {t : FileTree ν} {path : List ν} {k : FileKind} {e : List ν × FileKind}
    (looked : t.lstat path = some k) (leaf : k ≠ FileKind.directory) (found : e ∈ t.entries)
    (below : path <+: e.1) : e = (path, k) := by
  have here : e.1 = path := by
    by_contra strict
    have directory := lstat_eq_some.mpr (above found below (Ne.symm strict))
    rw [looked] at directory
    exact leaf (Option.some_inj.mp directory)
  exact List.inj_on_of_nodup_map t.unique found (lstat_eq_some.mp looked) here

/-- Nothing is below a path that is not there. -/
theorem not_below_of_none {t : FileTree ν} {path : List ν} {e : List ν × FileKind}
    (absent : t.lstat path = none) (found : e ∈ t.entries) : ¬path <+: e.1 := by
  intro below
  by_cases here : path = e.1
  · refine lstat_eq_none.mp absent e.2 ?_
    rw [here]
    exact found
  · exact lstat_eq_none.mp absent _ (above found below here)

end FileTree
