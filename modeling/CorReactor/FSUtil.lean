import Mathlib.Data.List.MinMax
import CorReactor.FileTree

set_option autoImplicit false

/-! `FSUtil::Rm` over a file tree. -/

namespace CorReactor

namespace FSUtil

/-- A name that `readdir` gives an entry of its own. -/
abbrev Name := { s : String // s ≠ "." ∧ s ≠ ".." }

abbrev Path := List Name

/-- `st_mode` without the permission bits, which lie below the kinds. -/
def st_mode : FileKind → Nat
  | .regular => 0x8000
  | .directory => 0x4000
  | .symlink => 0xA000
  | .fifo => 0x1000
  | .socket => 0xC000
  | .character => 0x2000
  | .block => 0x6000

def S_IFDIR : Nat := 0x4000

def Unlink (t : FileTree Name) (filename : Path) (exist : Bool) : Bool × FileTree Name :=
  if exist = false ∧ t.lstat filename = none then (true, t) else t.unlink filename

/-- The loop over the entries of a directory, with `ret`. -/
def rmEach (rm : FileTree Name → Path → Option (Bool × FileTree Name)) (path : Path) :
    List String → Bool → FileTree Name → Option (Bool × FileTree Name)
  | [], ret, t => some (ret, t)
  | d_name :: rest, ret, t =>
      if named : d_name ≠ "." ∧ d_name ≠ ".." then
        (rm t (path ++ [⟨d_name, named⟩])).bind fun r => rmEach rm path rest r.1 r.2
      else rmEach rm path rest ret t

/-- What is returned and the tree afterwards, or `none` where the fuel is short. -/
def Rm (readdir : FileTree Name → Path → List String) :
    Nat → FileTree Name → Path → Option (Bool × FileTree Name)
  | 0, _, _ => none
  | fuel + 1, t, path =>
      match t.lstat path with
      | none => some (true, t)
      | some kind =>
          if st_mode kind &&& S_IFDIR = 0 then some (Unlink t path false)
          else if t.opendir path = false then some (false, t)
          else
            (rmEach (Rm readdir fuel) path (readdir t path) true t).map fun r =>
              let removed := r.2.rmdir path
              (if removed.1 then r.1 else false, removed.2)

/-- A socket or a block device stands at the path or below it. -/
def Obstructed (t : FileTree Name) (path : Path) : Prop :=
  ∃ e ∈ t.entries, path <+: e.1 ∧ (e.2 = .socket ∨ e.2 = .block)

instance (t : FileTree Name) (path : Path) : Decidable (Obstructed t path) :=
  List.decidableBEx _ t.entries

/-- Everything at the path and below it is gone and nothing else. -/
def Removed (t : FileTree Name) (path : Path) (r : Bool × FileTree Name) : Prop :=
  r.1 = true ∧ ∀ e, e ∈ r.2.entries ↔ e ∈ t.entries ∧ ¬path <+: e.1

/-- The length of the longest path. -/
def depth (t : FileTree Name) : Nat := (t.entries.map fun e => e.1.length).foldr max 0

theorem length_le_depth {t : FileTree Name} {e : Path × FileKind} (inside : e ∈ t.entries) :
    e.1.length ≤ depth t :=
  List.le_max_of_le' 0 (List.mem_map_of_mem inside) (Nat.le_refl _)

/-! ### One entry -/

theorem st_mode_iff (kind : FileKind) :
    st_mode kind &&& S_IFDIR = 0 ↔ kind ≠ .directory ∧ kind ≠ .socket ∧ kind ≠ .block := by
  cases kind <;> decide

variable {t t' t'' : FileTree Name} {path : Path}

theorem Obstructed.above {q : Path} (obstructed : Obstructed t q) (above : path <+: q) :
    Obstructed t path := by
  obtain ⟨e, inside, below, kind⟩ := obstructed
  exact ⟨e, inside, above.trans below, kind⟩

/-- Of the entries at the given paths all go but those that lead to an obstruction, and the
others stay. -/
def Cleared (t t' : FileTree Name) (taken : Path → Prop) : Prop :=
  ∀ e, e ∈ t'.entries ↔ e ∈ t.entries ∧ (taken e.1 → Obstructed t e.1)

variable {taken taken' : Path → Prop}

theorem Cleared.obstructed_iff (cleared : Cleared t t' taken) (q : Path) :
    Obstructed t' q ↔ Obstructed t q := by
  constructor
  · intro obstructed
    obtain ⟨e, inside, below, kind⟩ := obstructed
    exact ⟨e, ((cleared e).mp inside).1, below, kind⟩
  · intro obstructed
    obtain ⟨e, inside, below, kind⟩ := obstructed
    have itself : Obstructed t e.1 := ⟨e, inside, List.prefix_rfl, kind⟩
    exact ⟨e, (cleared e).mpr ⟨inside, fun _ => itself⟩, below, kind⟩

theorem Cleared.trans (first : Cleared t t' taken) (second : Cleared t' t'' taken') :
    Cleared t t'' fun q => taken q ∨ taken' q := by
  intro e
  rw [second e, first e, first.obstructed_iff]
  constructor
  · intro both
    obtain ⟨⟨inside, before⟩, after⟩ := both
    exact ⟨inside, fun either => either.elim before after⟩
  · intro both
    obtain ⟨inside, kept⟩ := both
    exact ⟨⟨inside, fun here => kept (Or.inl here)⟩, fun here => kept (Or.inr here)⟩

theorem Cleared.congr (cleared : Cleared t t' taken)
    (same : ∀ e ∈ t.entries, taken' e.1 → Obstructed t e.1 ∨ taken e.1)
    (back : ∀ e ∈ t.entries, taken e.1 → Obstructed t e.1 ∨ taken' e.1) :
    Cleared t t' taken' := by
  intro e
  rw [cleared e]
  constructor
  · intro both
    obtain ⟨inside, kept⟩ := both
    exact ⟨inside, fun here => (same e inside here).elim id kept⟩
  · intro both
    obtain ⟨inside, kept⟩ := both
    exact ⟨inside, fun here => (back e inside here).elim id kept⟩

/-- What a call of `Rm` on the path does. -/
structure Clears (t : FileTree Name) (path : Path) (r : Bool × FileTree Name) : Prop where
  returned : r.1 = true ↔ ¬Obstructed t path
  cleared : Cleared t r.2 fun q => path <+: q

theorem clears_of_none (absent : t.lstat path = none) : Clears t path (true, t) where
  returned := by
    refine ⟨fun _ => ?_, fun _ => rfl⟩
    intro obstructed
    obtain ⟨e, inside, below, -⟩ := obstructed
    exact FileTree.not_below_of_none absent inside below
  cleared e := ⟨fun inside =>
    ⟨inside, fun below => absurd below (FileTree.not_below_of_none absent inside)⟩, And.left⟩

/-- A non-directory that the bit test lets pass to `Unlink`. -/
theorem clears_of_unlink {kind : FileKind} (found : t.lstat path = some kind)
    (tested : st_mode kind &&& S_IFDIR = 0) : Clears t path (Unlink t path false) := by
  obtain ⟨leaf, socket, block⟩ := (st_mode_iff kind).mp tested
  have unlinked : Unlink t path false = t.unlink path := by
    rw [Unlink, found]
    exact if_neg fun both => Option.some_ne_none kind both.2
  have free : ¬Obstructed t path := by
    intro obstructed
    obtain ⟨e, inside, below, obstruction⟩ := obstructed
    rw [FileTree.eq_of_leaf found leaf inside below] at obstruction
    exact obstruction.elim socket block
  obtain ⟨returned, entries⟩ := FileTree.unlink_of_leaf found leaf
  rw [unlinked]
  refine ⟨⟨fun _ => free, fun _ => returned⟩, ?_⟩
  intro e
  rw [entries]
  constructor
  · intro both
    obtain ⟨inside, elsewhere⟩ := both
    refine ⟨inside, fun below => absurd ?_ elsewhere⟩
    rw [FileTree.eq_of_leaf found leaf inside below]
  · intro both
    obtain ⟨inside, kept⟩ := both
    refine ⟨inside, fun here => free ?_⟩
    rw [here] at kept
    exact kept List.prefix_rfl

/-- A non-directory that the bit test takes for a directory. -/
theorem clears_of_opendir {kind : FileKind} (found : t.lstat path = some kind)
    (tested : st_mode kind &&& S_IFDIR ≠ 0) (closed : t.opendir path = false) :
    Clears t path (false, t) := by
  have leaf : kind ≠ .directory := by
    intro directory
    rw [directory] at found
    rw [FileTree.opendir, found] at closed
    exact absurd closed (by decide)
  have obstruction : kind = .socket ∨ kind = .block := by
    cases kind <;> first | exact absurd rfl leaf | exact Or.inl rfl | exact Or.inr rfl |
      exact absurd (by decide) tested
  have itself : Obstructed t path :=
    ⟨(path, kind), FileTree.lstat_eq_some.mp found, List.prefix_rfl, obstruction⟩
  refine ⟨⟨fun returned => absurd returned Bool.false_ne_true, fun free => absurd itself free⟩, ?_⟩
  intro e
  refine ⟨fun inside => ⟨inside, fun below => ?_⟩, And.left⟩
  rw [FileTree.eq_of_leaf found leaf inside below]
  exact itself

/-! ### The loop -/

/-- The loop clears the names that it goes through, where every call in it does. -/
theorem rmEach_spec {rm : FileTree Name → Path → Option (Bool × FileTree Name)}
    (path : Path) (d_names : List String) (ret : Bool) (t : FileTree Name)
    (each : ∀ t' n, n.val ∈ d_names → t'.entries ⊆ t.entries →
      ∃ r, rm t' (path ++ [n]) = some r ∧ Clears t' (path ++ [n]) r) :
    ∃ r, rmEach rm path d_names ret t = some r ∧ (ret = true → ¬Obstructed t path → r.1 = true) ∧
      Cleared t r.2 fun q => ∃ n : Name, n.val ∈ d_names ∧ path ++ [n] <+: q := by
  induction d_names generalizing ret t with
  | nil =>
      refine ⟨(ret, t), rfl, fun kept _ => kept, ?_⟩
      intro e
      refine ⟨fun inside => ⟨inside, fun named => ?_⟩, And.left⟩
      obtain ⟨n, nowhere, -⟩ := named
      exact absurd nowhere List.not_mem_nil
  | cons d_name rest ih =>
      by_cases named : d_name ≠ "." ∧ d_name ≠ ".."
      · obtain ⟨r, first, clears⟩ := each t ⟨d_name, named⟩ List.mem_cons_self (List.Subset.refl _)
        have fewer : r.2.entries ⊆ t.entries := fun e inside => ((clears.cleared e).mp inside).1
        obtain ⟨r', after, kept, cleared⟩ :=
          ih r.1 r.2 fun t' n later subset =>
            each t' n (List.mem_cons_of_mem d_name later) (List.Subset.trans subset fewer)
        refine ⟨r', ?_, ?_, ?_⟩
        · rw [rmEach, dif_pos named, first]
          exact after
        · intro _ free
          refine kept (clears.returned.mpr fun obstructed => ?_) fun obstructed => ?_
          · exact free (obstructed.above (List.prefix_append path _))
          · exact free ((clears.cleared.obstructed_iff path).mp obstructed)
        · refine (clears.cleared.trans cleared).congr ?_ ?_
          · intro e _ here
            obtain ⟨n, listed, below⟩ := here
            refine Or.inr ?_
            obtain same | later := List.mem_cons.mp listed
            · obtain rfl : n = ⟨d_name, named⟩ := Subtype.ext same
              exact Or.inl below
            · exact Or.inr ⟨n, later, below⟩
          · intro e _ here
            obtain below | ⟨n, later, below⟩ := here
            · exact Or.inr ⟨⟨d_name, named⟩, List.mem_cons_self, below⟩
            · exact Or.inr ⟨n, List.mem_cons_of_mem d_name later, below⟩
      · obtain ⟨r, after, kept, cleared⟩ := ih ret t fun t' n later =>
          each t' n (List.mem_cons_of_mem d_name later)
        refine ⟨r, ?_, kept, cleared.congr ?_ ?_⟩
        · rw [rmEach, dif_neg named]
          exact after
        · intro e _ here
          obtain ⟨n, listed, below⟩ := here
          obtain same | later := List.mem_cons.mp listed
          · rw [← same] at named
            exact absurd n.property named
          · exact Or.inr ⟨n, later, below⟩
        · intro e _ here
          obtain ⟨n, later, below⟩ := here
          exact Or.inr ⟨n, List.mem_cons_of_mem d_name later, below⟩

/-- What `rmdir` leaves after the loop. -/
theorem clears_of_rmdir {ret : Bool} (found : t.lstat path = some .directory)
    (kept : ¬Obstructed t path → ret = true)
    (cleared : Cleared t t' fun q => ∃ n ∈ t.names path, path ++ [n] <+: q) :
    Clears t path
      (if (t'.rmdir path).1 then ret else false, (t'.rmdir path).2) := by
  have strict : ∀ e ∈ t.entries, path <+: e.1 →
      e.1 = path ∨ ∃ n ∈ t.names path, path ++ [n] <+: e.1 := by
    intro e inside below
    by_cases here : e.1 = path
    · exact Or.inl here
    · exact Or.inr (FileTree.exists_name inside below here)
  have below : ∀ q, (∃ n ∈ t.names path, path ++ [n] <+: q) → path <+: q := by
    intro q named
    obtain ⟨n, -, under⟩ := named
    exact (List.prefix_append path [n]).trans under
  by_cases obstructed : Obstructed t path
  · have left : t'.names path ≠ [] := by
      obtain ⟨e, inside, under, kind⟩ := obstructed
      obtain here | ⟨n, listed, onward⟩ := strict e inside under
      · have directory : e = (path, .directory) :=
          List.inj_on_of_nodup_map t.unique inside (FileTree.lstat_eq_some.mp found) here
        rw [directory] at kind
        obtain same | same := kind
        · cases same
        · cases same
      · obtain ⟨k, child⟩ := FileTree.mem_names.mp listed
        have stays : (path ++ [n], k) ∈ t'.entries :=
          (cleared _).mpr ⟨child, fun _ => ⟨e, inside, onward, kind⟩⟩
        exact List.ne_nil_of_mem (FileTree.mem_names.mpr ⟨k, stays⟩)
    rw [FileTree.rmdir_of_names left]
    refine ⟨⟨fun returned => absurd returned Bool.false_ne_true,
      fun free => absurd obstructed free⟩, cleared.congr ?_ ?_⟩
    · intro e inside under
      obtain here | named := strict e inside under
      · rw [here]
        exact Or.inl obstructed
      · exact Or.inr named
    · intro e _ named
      exact Or.inr (below e.1 named)
  · have empty : t'.names path = [] := by
      rw [List.eq_nil_iff_forall_not_mem]
      intro n listed
      obtain ⟨k, child⟩ := FileTree.mem_names.mp listed
      obtain ⟨inside, stays⟩ := (cleared _).mp child
      have named : n ∈ t.names path := FileTree.mem_names.mpr ⟨k, inside⟩
      exact obstructed ((stays ⟨n, named, List.prefix_rfl⟩).above (List.prefix_append path [n]))
    have there : t'.lstat path = some .directory := by
      rw [FileTree.lstat_eq_some, cleared]
      refine ⟨FileTree.lstat_eq_some.mp found, fun named => ?_⟩
      obtain ⟨n, -, under⟩ := named
      have longer : (path ++ [n]).length ≤ path.length := under.length_le
      rw [List.length_append, List.length_singleton] at longer
      omega
    obtain ⟨returned, entries⟩ := FileTree.rmdir_of_empty there empty
    rw [returned, if_pos rfl, kept obstructed]
    refine ⟨⟨fun _ => obstructed, fun _ => rfl⟩, ?_⟩
    intro e
    rw [entries, cleared]
    constructor
    · intro both
      obtain ⟨⟨inside, stays⟩, elsewhere⟩ := both
      refine ⟨inside, fun under => ?_⟩
      exact stays ((strict e inside under).resolve_left elsewhere)
    · intro both
      obtain ⟨inside, stays⟩ := both
      refine ⟨⟨inside, fun named => stays (below e.1 named)⟩, fun here => ?_⟩
      rw [here] at stays
      exact obstructed (stays List.prefix_rfl)

/-! ### The call -/

section

variable {readdir : FileTree Name → Path → List String}
  (lists : ∀ t path (n : Name), n.val ∈ readdir t path ↔ n ∈ t.names path)
include lists

/-- The induction is on the fuel, which bounds the height of what stands below the path. -/
theorem Rm_clears (fuel : Nat) (t : FileTree Name) (path : Path) (positive : 0 < fuel)
    (height : ∀ e ∈ t.entries, path <+: e.1 → e.1.length < path.length + fuel) :
    ∃ r, Rm readdir fuel t path = some r ∧ Clears t path r := by
  induction fuel generalizing t path with
  | zero => exact absurd positive (Nat.lt_irrefl 0)
  | succ fuel ih =>
      cases found : t.lstat path with
      | none => exact ⟨(true, t), by rw [Rm, found], clears_of_none found⟩
      | some kind =>
          by_cases tested : st_mode kind &&& S_IFDIR = 0
          · refine ⟨Unlink t path false, ?_, clears_of_unlink found tested⟩
            simp only [Rm, found, tested, ↓reduceIte]
          · cases opened : t.opendir path with
            | false =>
                refine ⟨(false, t), ?_, clears_of_opendir found tested opened⟩
                simp only [Rm, found, tested, opened, ↓reduceIte]
            | true =>
                have directory : t.lstat path = some .directory := by
                  rw [FileTree.opendir, decide_eq_true_eq] at opened
                  exact opened
                obtain ⟨r, looped, kept, cleared⟩ :=
                  rmEach_spec path (readdir t path) true t fun t' n listed fewer => by
                    obtain ⟨k, child⟩ := FileTree.mem_names.mp ((lists t path n).mp listed)
                    have room := height _ child (List.prefix_append path [n])
                    rw [List.length_append, List.length_singleton] at room
                    refine ih t' (path ++ [n]) (by omega) fun e inside below => ?_
                    have lower := height e (fewer inside)
                      ((List.prefix_append path [n]).trans below)
                    rw [List.length_append, List.length_singleton]
                    omega
                simp only [lists] at cleared
                refine ⟨_, ?_, clears_of_rmdir directory (kept rfl) cleared⟩
                simp only [Rm, found, tested, opened, looped, Option.map_some, ↓reduceIte,
                  Bool.true_eq_false]

/-- It ends on every tree, and takes away everything at and below the path and nothing else
exactly when there is no socket and no block device among that. -/
theorem Rm_removes_iff (t : FileTree Name) (path : Path) (fuel : Nat) (enough : depth t < fuel) :
    ∃ r, Rm readdir fuel t path = some r ∧ (Removed t path r ↔ ¬Obstructed t path) := by
  obtain ⟨r, ended, clears⟩ := Rm_clears lists fuel t path (Nat.zero_lt_of_lt enough) (by
    intro e inside _
    have high := length_le_depth inside
    omega)
  refine ⟨r, ended, ?_⟩
  constructor
  · intro removed
    exact clears.returned.mp removed.1
  · intro free
    refine ⟨clears.returned.mpr free, fun e => ?_⟩
    rw [clears.cleared e]
    refine and_congr_right fun _ => ⟨fun kept below => ?_, fun elsewhere below => ?_⟩
    · exact free ((kept below).above below)
    · exact absurd below elsewhere

end

/-- A listing as the kernel gives it. -/
def listing (t : FileTree Name) (path : Path) : List String :=
  "." :: ".." :: (t.names path).map Subtype.val

theorem mem_listing (t : FileTree Name) (path : Path) (n : Name) :
    n.val ∈ listing t path ↔ n ∈ t.names path := by
  rw [listing, List.mem_cons, List.mem_cons]
  constructor
  · intro listed
    obtain dot | dots | named := listed
    · exact absurd dot n.property.1
    · exact absurd dots n.property.2
    · obtain ⟨m, inside, same⟩ := List.mem_map.mp named
      rw [← Subtype.ext same]
      exact inside
  · intro inside
    exact Or.inr (Or.inr (List.mem_map_of_mem inside))

/-- The name of both entries below. -/
def entry : Name := ⟨"a", by decide⟩

/-- A directory with one entry of the given kind in it. -/
def holding (kind : FileKind) : FileTree Name :=
  (FileTree.root.create [] entry .directory rfl rfl).create [entry] entry kind rfl rfl

theorem Rm_removes_symlink :
    ∃ r, Rm listing 3 (holding .symlink) [entry] = some r ∧
      Removed (holding .symlink) [entry] r := by
  obtain ⟨r, ended, removes⟩ :=
    Rm_removes_iff mem_listing (holding .symlink) [entry] 3 (by decide)
  exact ⟨r, ended, removes.mpr (by decide)⟩

theorem Rm_keeps_socket :
    (Rm listing 3 (holding .socket) [entry]).map Prod.fst = some false ∧
      ¬∃ r, Rm listing 3 (holding .socket) [entry] = some r ∧
        Removed (holding .socket) [entry] r := by
  have returned : (Rm listing 3 (holding .socket) [entry]).map Prod.fst = some false := by decide
  refine ⟨returned, fun removes => ?_⟩
  obtain ⟨r, ended, removed⟩ := removes
  rw [ended, Option.map_some, removed.1] at returned
  exact absurd returned (by decide)

end FSUtil

end CorReactor
