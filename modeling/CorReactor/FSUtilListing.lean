import CorReactor.FSUtil
import Mathlib.Data.List.TakeWhile

set_option autoImplicit false

/-! `FSUtil::ListAllFile` over a file tree. -/

namespace CorReactor.FSUtil

abbrev Text := List Char

/-- What the calls give for each directory. `readdir` leaves the kind out where the file system
does not tell (`DT_UNKNOWN`). -/
structure View where
  access : Path → Bool
  opendir : Path → Bool
  readdir : Path → List (String × Option FileKind)

/-- The test of a regular file's name. -/
def endsIn (filename subfix : Text) : Bool :=
  if subfix.isEmpty then true
  else if filename.length < subfix.length then false
  else filename.drop (filename.length - subfix.length) == subfix

/-- The loop over the entries of a directory. -/
def listEach (list : List Text → Path → Text → Option (List Text)) (subfix : Text) (path : Path)
    (text : Text) : List (String × Option FileKind) → List Text → Option (List Text)
  | [], files => some files
  | (d_name, d_type) :: rest, files =>
      match d_type with
      | some .directory =>
          if named : d_name ≠ "." ∧ d_name ≠ ".." then
            (list files (path ++ [⟨d_name, named⟩]) (text ++ '/' :: d_name.toList)).bind
              (listEach list subfix path text rest)
          else listEach list subfix path text rest files
      | some .regular =>
          if endsIn d_name.toList subfix then
            listEach list subfix path text rest (files ++ [text ++ '/' :: d_name.toList])
          else listEach list subfix path text rest files
      | _ => listEach list subfix path text rest files

/-- `path` with the text it is given as; `none` where the fuel is short. -/
def ListAllFile (view : View) (subfix : Text) :
    Nat → List Text → Path → Text → Option (List Text)
  | 0, _, _, _ => none
  | fuel + 1, files, path, text =>
      if view.access path = false then some files
      else if view.opendir path = false then some files
      else listEach (ListAllFile view subfix fuel) subfix path text (view.readdir path) files

/-! ### What there is to list -/

/-- The calls tell the truth about the tree, with the entries of each directory that they open. -/
structure Shows (view : View) (t : FileTree Name) : Prop where
  once : ∀ path, ((view.readdir path).map Prod.fst).Nodup
  kinds : ∀ path (n : Name) k, (n.val, some k) ∈ view.readdir path → (path ++ [n], k) ∈ t.entries
  all : ∀ path (n : Name) k, view.opendir path = true → (path ++ [n], k) ∈ t.entries →
    ∃ d_type, (n.val, d_type) ∈ view.readdir path
  dots : ∀ path k, (".", some k) ∈ view.readdir path ∨ ("..", some k) ∈ view.readdir path →
    k = .directory
  slashless : ∀ e ∈ t.entries, ∀ n ∈ e.1, '/' ∉ n.val.toList

/-- The names as they are written behind a path. -/
def spelled (q : Path) : Text := q.flatMap fun n => '/' :: n.val.toList

/-- Every directory on the way can be opened, and the kind of every entry on it is known. -/
def Visible (view : View) : Path → Path → Prop
  | _, [] => True
  | path, n :: q => (view.access path = true ∧ view.opendir path = true) ∧
      (∀ d_type, (n.val, d_type) ∈ view.readdir path → d_type ≠ none) ∧
      Visible view (path ++ [n]) q

/-- The names lead from the path to a regular file with this ending. -/
structure Found (view : View) (t : FileTree Name) (subfix : Text) (path q : Path) : Prop where
  regular : (path ++ q, FileKind.regular) ∈ t.entries
  visible : Visible view path q
  ending : ∃ n ∈ q.getLast?, subfix <:+ n.val.toList

theorem endsIn_iff {filename subfix : Text} :
    endsIn filename subfix = true ↔ subfix <:+ filename := by
  unfold endsIn
  split
  · rename_i empty
    rw [List.isEmpty_iff.mp empty]
    exact iff_of_true rfl (List.nil_suffix)
  · split
    · rename_i short
      refine iff_of_false Bool.false_ne_true fun ending => ?_
      exact absurd ending.length_le (Nat.not_le_of_lt short)
    · rw [beq_iff_eq, List.suffix_iff_eq_drop]
      exact eq_comm

/-! ### Texts -/

/-- The first name is read off up to the next slash. -/
theorem spelled_takeWhile {n : Name} {q : Path} (slashless : '/' ∉ n.val.toList) :
    (n.val.toList ++ spelled q).takeWhile (· ≠ '/') = n.val.toList := by
  rw [List.takeWhile_append_of_pos]
  · cases q with
    | nil => exact List.append_nil _
    | cons m q => exact List.append_nil _
  · intro c inside
    exact decide_eq_true fun slash => slashless (slash ▸ inside)

theorem spelled_injective {q q' : Path} (slashless : ∀ n ∈ q, '/' ∉ n.val.toList)
    (slashless' : ∀ n ∈ q', '/' ∉ n.val.toList) (same : spelled q = spelled q') : q = q' := by
  induction q generalizing q' with
  | nil =>
      cases q' with
      | nil => rfl
      | cons m q' => cases same
  | cons n q ih =>
      cases q' with
      | nil => cases same
      | cons m q' =>
          have behind : n.val.toList ++ spelled q = m.val.toList ++ spelled q' :=
            (List.cons.inj same).2
          have names := congrArg (List.takeWhile (· ≠ '/')) behind
          rw [spelled_takeWhile (slashless n List.mem_cons_self),
            spelled_takeWhile (slashless' m List.mem_cons_self)] at names
          have first : n = m := Subtype.ext (String.toList_injective names)
          subst first
          rw [ih (fun k inside => slashless k (List.mem_cons_of_mem n inside))
            (fun k inside => slashless' k (List.mem_cons_of_mem n inside))
            (List.append_cancel_left behind)]

/-! ### The files that are appended -/

/-- What one entry of a directory adds, where `list` is what a directory in it adds. -/
def entryFiles (list : Path → Text → List Text) (subfix : Text) (path : Path) (text : Text)
    (e : String × Option FileKind) : List Text :=
  match e.2 with
  | some .directory =>
      if named : e.1 ≠ "." ∧ e.1 ≠ ".." then
        list (path ++ [⟨e.1, named⟩]) (text ++ '/' :: e.1.toList)
      else []
  | some .regular => if endsIn e.1.toList subfix then [text ++ '/' :: e.1.toList] else []
  | _ => []

/-- The files below a path down to a height. -/
def filesBelow (view : View) (subfix : Text) : Nat → Path → Text → List Text
  | 0, _, _ => []
  | height + 1, path, text =>
      if view.access path = true ∧ view.opendir path = true then
        (view.readdir path).flatMap (entryFiles (filesBelow view subfix height) subfix path text)
      else []

variable {view : View} {t : FileTree Name} {subfix : Text} {path : Path} {text : Text}

theorem listEach_spec {list : List Text → Path → Text → Option (List Text)}
    {below : Path → Text → List Text} {es : List (String × Option FileKind)} {files : List Text}
    (each : ∀ n : Name, (n.val, some FileKind.directory) ∈ es → ∀ files text,
      list files (path ++ [n]) text = some (files ++ below (path ++ [n]) text)) :
    listEach list subfix path text es files =
      some (files ++ es.flatMap (entryFiles below subfix path text)) := by
  induction es generalizing files with
  | nil => rw [listEach, List.flatMap_nil, List.append_nil]
  | cons e es ih =>
      have rest : ∀ files, listEach list subfix path text es files = some (files ++
          es.flatMap (entryFiles below subfix path text)) := fun files =>
        ih fun n inside => each n (List.mem_cons_of_mem e inside)
      obtain ⟨d_name, d_type⟩ := e
      rw [List.flatMap_cons]
      cases d_type with
      | none => exact rest files
      | some kind =>
          cases kind with
          | directory =>
              by_cases named : d_name ≠ "." ∧ d_name ≠ ".."
              · have here : entryFiles below subfix path text (d_name, some .directory) =
                    below (path ++ [⟨d_name, named⟩]) (text ++ '/' :: d_name.toList) :=
                  dif_pos named
                rw [here, ← List.append_assoc, ← rest]
                refine (dif_pos named).trans ?_
                rw [each ⟨d_name, named⟩ List.mem_cons_self, Option.bind_some]
              · have here : entryFiles below subfix path text (d_name, some .directory) = [] :=
                  dif_neg named
                rw [here, List.nil_append, ← rest]
                exact dif_neg named
          | regular =>
              by_cases ending : endsIn d_name.toList subfix = true
              · have here : entryFiles below subfix path text (d_name, some .regular) =
                    [text ++ '/' :: d_name.toList] := if_pos ending
                rw [here, ← List.append_assoc, ← rest]
                exact if_pos ending
              · have here : entryFiles below subfix path text (d_name, some .regular) = [] :=
                  if_neg ending
                rw [here, List.nil_append, ← rest]
                exact if_neg ending
          | symlink | fifo | socket | character | block => exact rest files

/-- The induction is on the fuel: what stands below the path is no higher than it. -/
theorem ListAllFile_eq (shows : Shows view t) (fuel : Nat) (path : Path)
    (enough : depth t < path.length + fuel) (positive : 0 < fuel) (files : List Text)
    (text : Text) :
    ListAllFile view subfix fuel files path text =
      some (files ++ filesBelow view subfix fuel path text) := by
  induction fuel generalizing path files text with
  | zero => exact absurd positive (Nat.lt_irrefl 0)
  | succ fuel ih =>
      rw [ListAllFile, filesBelow]
      by_cases reachable : view.access path = true
      · by_cases opened : view.opendir path = true
        · simp only [reachable, opened, and_self, Bool.true_eq_false, ↓reduceIte]
          refine listEach_spec fun n inside files text => ?_
          have stands := length_le_depth (shows.kinds path n _ inside)
          rw [List.length_append, List.length_singleton] at stands
          refine ih (path ++ [n]) ?_ ?_ files text
          · rw [List.length_append, List.length_singleton]
            omega
          · omega
        · simp only [reachable, opened, and_false, Bool.true_eq_false, Bool.false_eq_true,
            ↓reduceIte, List.append_nil]
      · simp only [reachable, false_and, Bool.false_eq_true, ↓reduceIte, List.append_nil]

theorem kind_unique {q : Path} {k k' : FileKind} (first : (q, k) ∈ t.entries)
    (second : (q, k') ∈ t.entries) : k = k' :=
  congrArg Prod.snd (List.inj_on_of_nodup_map t.unique first second rfl)

/-- `readdir` has one entry for a name. -/
theorem Shows.d_type_unique (shows : Shows view t) {name : String} {d d' : Option FileKind}
    (first : (name, d) ∈ view.readdir path) (second : (name, d') ∈ view.readdir path) : d = d' :=
  congrArg Prod.snd (List.inj_on_of_nodup_map (shows.once path) first second rfl)

theorem Found.down {n : Name} {q : Path} (shows : Shows view t)
    (opened : view.access path = true ∧ view.opendir path = true)
    (inside : (n.val, some FileKind.directory) ∈ view.readdir path)
    (found : Found view t subfix (path ++ [n]) q) : Found view t subfix path (n :: q) := by
  obtain ⟨regular, visible, m, last, ending⟩ := found
  refine ⟨?_, ⟨opened, ?_, visible⟩, m, ?_, ending⟩
  · rwa [List.append_assoc, List.singleton_append] at regular
  · intro d_type listed unknown
    have same := shows.d_type_unique inside listed
    rw [unknown] at same
    cases same
  · rw [List.getLast?_cons, last]
    rfl

theorem Found.leaf {n : Name} (shows : Shows view t)
    (opened : view.access path = true ∧ view.opendir path = true)
    (inside : (n.val, some FileKind.regular) ∈ view.readdir path)
    (ending : subfix <:+ n.val.toList) : Found view t subfix path [n] := by
  refine ⟨shows.kinds path n _ inside, ⟨opened, ?_, trivial⟩, n, rfl, ending⟩
  intro d_type listed unknown
  have same := shows.d_type_unique inside listed
  rw [unknown] at same
  cases same

/-- The first step of a way to a file: the file itself, or a directory. -/
theorem Found.step {n : Name} {q : Path} (shows : Shows view t)
    (found : Found view t subfix path (n :: q)) :
    (view.access path = true ∧ view.opendir path = true) ∧
      ((q = [] ∧ (n.val, some FileKind.regular) ∈ view.readdir path ∧ subfix <:+ n.val.toList) ∨
        ((n.val, some FileKind.directory) ∈ view.readdir path ∧
          Found view t subfix (path ++ [n]) q)) := by
  obtain ⟨regular, ⟨opened, known, visible⟩, m, last, ending⟩ := found
  refine ⟨opened, ?_⟩
  -- The kind that `readdir` gives for the name is the one in the tree.
  have told (k : FileKind) (stands : (path ++ [n], k) ∈ t.entries) :
      (n.val, some k) ∈ view.readdir path := by
    obtain ⟨d_type, listed⟩ := shows.all path n k opened.2 stands
    cases d_type with
    | none => exact absurd rfl (known none listed)
    | some kind =>
        rw [kind_unique stands (shows.kinds path n kind listed)]
        exact listed
  cases q with
  | nil =>
      obtain rfl := Option.some.inj last
      exact Or.inl ⟨rfl, told _ regular, ending⟩
  | cons k q =>
      have whole : path ++ n :: k :: q = path ++ [n] ++ k :: q := by
        rw [List.append_assoc, List.singleton_append]
      rw [whole] at regular
      have directory := FileTree.above regular (List.prefix_append _ _) (by
        intro same
        have lengths := congrArg List.length same
        simp only [List.length_append, List.length_cons, List.length_nil] at lengths
        omega)
      refine Or.inr ⟨told _ directory, regular, visible, m, ?_, ending⟩
      rwa [List.getLast?_cons_cons] at last

/-- What an entry of a directory adds leads through its name. -/
theorem Found.of_entry {below : Path → Text → List Text} {e : String × Option FileKind} {s : Text}
    (shows : Shows view t) (opened : view.access path = true ∧ view.opendir path = true)
    (inside : e ∈ view.readdir path)
    (lower : ∀ (n : Name) text, s ∈ below (path ++ [n]) text →
      ∃ q, Found view t subfix (path ++ [n]) q ∧ s = text ++ spelled q)
    (member : s ∈ entryFiles below subfix path text e) :
    ∃ (n : Name) (q : Path), n.val = e.1 ∧ Found view t subfix path (n :: q) ∧
      s = text ++ spelled (n :: q) := by
  obtain ⟨d_name, d_type⟩ := e
  unfold entryFiles at member
  dsimp only at member
  split at member
  · split at member
    · rename_i named
      obtain ⟨q, found, rfl⟩ := lower ⟨d_name, named⟩ _ member
      refine ⟨⟨d_name, named⟩, q, rfl, found.down shows opened inside, ?_⟩
      rw [spelled, spelled, List.flatMap_cons, List.append_assoc]
    · cases member
  · split at member
    · rename_i ending
      rw [List.mem_singleton.mp member]
      have named : d_name ≠ "." ∧ d_name ≠ ".." := by
        constructor
        · rintro rfl
          cases shows.dots path _ (Or.inl inside)
        · rintro rfl
          cases shows.dots path _ (Or.inr inside)
      refine ⟨⟨d_name, named⟩, [], rfl, .leaf shows opened inside (endsIn_iff.mp ending), ?_⟩
      rw [spelled, List.flatMap_singleton]
    · cases member
  · cases member

theorem mem_filesBelow (shows : Shows view t) (fuel : Nat) (path : Path)
    (enough : depth t < path.length + fuel) (text s : Text) :
    s ∈ filesBelow view subfix fuel path text ↔
      ∃ q, Found view t subfix path q ∧ s = text ++ spelled q := by
  induction fuel generalizing path text with
  | zero =>
      refine iff_of_false List.not_mem_nil ?_
      rintro ⟨q, found, -⟩
      have stands := length_le_depth found.regular
      rw [List.length_append] at stands
      omega
  | succ fuel ih =>
      have down (n : Name) : depth t < (path ++ [n]).length + fuel := by
        rw [List.length_append, List.length_singleton]
        omega
      rw [filesBelow]
      constructor
      · intro member
        split at member
        case isFalse => cases member
        case isTrue opened =>
          obtain ⟨e, inside, member⟩ := List.mem_flatMap.mp member
          obtain ⟨n, q, -, found, same⟩ := Found.of_entry shows opened inside
            (fun n text below => (ih _ (down n) text).mp below) member
          exact ⟨n :: q, found, same⟩
      · rintro ⟨q, found, rfl⟩
        cases q with
        | nil =>
            obtain ⟨n, last, -⟩ := found.ending
            cases last
        | cons n q =>
            obtain ⟨opened, either⟩ := found.step shows
            rw [if_pos opened, List.mem_flatMap]
            rcases either with ⟨rfl, inside, ending⟩ | ⟨inside, found⟩
            · refine ⟨_, inside, ?_⟩
              have here : entryFiles (filesBelow view subfix fuel) subfix path text
                  (n.val, some .regular) = [text ++ '/' :: n.val.toList] :=
                if_pos (endsIn_iff.mpr ending)
              rw [here, spelled, List.flatMap_singleton]
              exact List.mem_cons_self
            · refine ⟨_, inside, ?_⟩
              have here : entryFiles (filesBelow view subfix fuel) subfix path text
                  (n.val, some .directory) =
                    filesBelow view subfix fuel (path ++ [n]) (text ++ '/' :: n.val.toList) :=
                dif_pos n.property
              rw [here, ih _ (down n)]
              refine ⟨q, found, ?_⟩
              rw [spelled, spelled, List.flatMap_cons, List.append_assoc]

/-- The names on the way to a file have no slash in them. -/
theorem Found.slashless {q : Path} (shows : Shows view t) (found : Found view t subfix path q) :
    ∀ n ∈ q, '/' ∉ n.val.toList :=
  fun n inside => shows.slashless _ found.regular n (List.mem_append_right path inside)

theorem nodup_filesBelow (shows : Shows view t) (fuel : Nat) (path : Path)
    (enough : depth t < path.length + fuel) (text : Text) :
    (filesBelow view subfix fuel path text).Nodup := by
  induction fuel generalizing path text with
  | zero => exact List.nodup_nil
  | succ fuel ih =>
      have down (n : Name) : depth t < (path ++ [n]).length + fuel := by
        rw [List.length_append, List.length_singleton]
        omega
      rw [filesBelow]
      split
      case isFalse => exact List.nodup_nil
      case isTrue opened =>
        refine List.nodup_flatMap.mpr ⟨fun e inside => ?_, ?_⟩
        · unfold entryFiles
          split
          · split
            · rename_i named
              exact ih _ (down ⟨e.1, named⟩) _
            · exact List.nodup_nil
          · split
            · exact List.nodup_singleton _
            · exact List.nodup_nil
          · exact List.nodup_nil
        · refine (List.pairwise_map.mp (shows.once path)).imp_of_mem ?_
          intro e e' inside inside' other s member member'
          have lower (n : Name) (text s : Text)
              (below : s ∈ filesBelow view subfix fuel (path ++ [n]) text) :=
            (mem_filesBelow shows fuel (path ++ [n]) (down n) text s).mp below
          obtain ⟨n, q, name, found, same⟩ := Found.of_entry shows opened inside
            (fun n text => lower n text s) member
          obtain ⟨n', q', name', found', same'⟩ := Found.of_entry shows opened inside'
            (fun n text => lower n text s) member'
          have equal := spelled_injective (found.slashless shows) (found'.slashless shows)
            (List.append_cancel_left (same.symm.trans same'))
          refine other ?_
          rw [← name, ← name', (List.cons.inj equal).1]

/-- Exactly the regular files with the ending that can be come to are appended, each of them
once. -/
theorem ListAllFile_lists (shows : Shows view t) (subfix : Text) (path : Path) (text : Text)
    (files : List Text) (fuel : Nat) (enough : depth t < fuel) :
    ∃ found, ListAllFile view subfix fuel files path text = some (files ++ found) ∧
      found.Nodup ∧
      ∀ s, s ∈ found ↔ ∃ q, Found view t subfix path q ∧ s = text ++ spelled q := by
  have deep : depth t < path.length + fuel := Nat.lt_of_lt_of_le enough (Nat.le_add_left _ _)
  exact ⟨_, ListAllFile_eq shows fuel path deep (Nat.zero_lt_of_lt enough) files text,
    nodup_filesBelow shows fuel path deep text, mem_filesBelow shows fuel path deep text⟩

/-! ### A file system that tells the kinds -/

/-- Every directory can be opened, and every kind is given. -/
def openView (t : FileTree Name) : View where
  access path := t.lstat path ≠ none
  opendir path := t.opendir path
  readdir path := (".", some .directory) :: ("..", some .directory) ::
    t.entries.filterMap fun e => (FileTree.nameIn path e.1).map fun n => (n.val, some e.2)

theorem mem_openView {n : Name} {d_type : Option FileKind} :
    (n.val, d_type) ∈ (openView t).readdir path ↔
      ∃ k, d_type = some k ∧ (path ++ [n], k) ∈ t.entries := by
  have apart (k : FileKind) : (n.val, d_type) ≠ (".", some k) ∧ (n.val, d_type) ≠ ("..", some k) :=
    ⟨fun same => n.property.1 (congrArg Prod.fst same),
      fun same => n.property.2 (congrArg Prod.fst same)⟩
  rw [openView, List.mem_cons, List.mem_cons, or_iff_right (apart _).1, or_iff_right (apart _).2,
    List.mem_filterMap]
  constructor
  · rintro ⟨⟨q, k⟩, inside, here⟩
    obtain ⟨m, named, same⟩ := Option.map_eq_some_iff.mp here
    cases Subtype.ext (congrArg Prod.fst same : m.val = n.val)
    obtain rfl : q = path ++ [n] := FileTree.nameIn_eq_some.mp named
    exact ⟨k, (congrArg Prod.snd same).symm, inside⟩
  · rintro ⟨k, rfl, inside⟩
    exact ⟨(path ++ [n], k), inside, by rw [FileTree.nameIn_eq_some.mpr rfl, Option.map_some]⟩

theorem openView_shows (slashless : ∀ e ∈ t.entries, ∀ n ∈ e.1, '/' ∉ n.val.toList) :
    Shows (openView t) t where
  once path := by
    have names : ((t.entries.filterMap fun e => (FileTree.nameIn path e.1).map fun n =>
        (n.val, some e.2)).map Prod.fst) =
          ((t.entries.map Prod.fst).filterMap (FileTree.nameIn path)).map Subtype.val := by
      rw [List.map_filterMap, List.filterMap_map, List.map_filterMap]
      refine List.filterMap_congr fun e _ => ?_
      rw [Option.map_map, Function.comp_apply]
      rfl
    have apart : ((t.entries.map Prod.fst).filterMap (FileTree.nameIn path)).Nodup := by
      refine t.unique.filterMap ?_
      intro q q' n here here'
      rw [FileTree.nameIn_eq_some.mp here, FileTree.nameIn_eq_some.mp here']
    rw [openView, List.map_cons, List.map_cons, names]
    refine List.nodup_cons.mpr ⟨?_, List.nodup_cons.mpr ⟨?_, ?_⟩⟩
    · rw [List.mem_cons, not_or]
      refine ⟨by decide, fun inside => ?_⟩
      obtain ⟨n, -, same⟩ := List.mem_map.mp inside
      exact n.property.1 same
    · intro inside
      obtain ⟨n, -, same⟩ := List.mem_map.mp inside
      exact n.property.2 same
    · exact apart.map Subtype.val_injective
  kinds path n k listed := by
    obtain ⟨k', same, inside⟩ := mem_openView.mp listed
    cases same
    exact inside
  all path n k _ inside := ⟨some k, mem_openView.mpr ⟨k, rfl, inside⟩⟩
  dots path k listed := by
    have apart (n : Name) : n.val ≠ "." ∧ n.val ≠ ".." := n.property
    rcases listed with listed | listed <;>
    · rw [openView, List.mem_cons, List.mem_cons, List.mem_filterMap] at listed
      rcases listed with here | here | ⟨e, -, here⟩
      · exact Option.some.inj (congrArg Prod.snd here)
      · exact Option.some.inj (congrArg Prod.snd here)
      · obtain ⟨n, -, same⟩ := Option.map_eq_some_iff.mp here
        have dot := congrArg Prod.fst same
        first | exact absurd dot (apart n).1 | exact absurd dot (apart n).2
  slashless := slashless

/-- A file in a directory. -/
theorem ListAllFile_lists_entry :
    ∃ found, ListAllFile (openView (holding .regular)) "a".toList 3 [] [] "/conf".toList =
        some ([] ++ found) ∧ found.Nodup ∧
      ∀ s, s ∈ found ↔ ∃ q, Found (openView (holding .regular)) (holding .regular) "a".toList [] q ∧
        s = "/conf".toList ++ spelled q :=
  ListAllFile_lists (openView_shows (by decide)) "a".toList [] "/conf".toList [] 3 (by decide)

end CorReactor.FSUtil
