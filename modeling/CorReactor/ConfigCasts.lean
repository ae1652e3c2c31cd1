import CorReactor.Config
import Mathlib.Data.Char
import Mathlib.Data.Finmap
import Mathlib.Data.Finset.Sort
import Mathlib.Data.List.Lex

set_option autoImplicit false

/-! `LexicalCast` between containers and YAML texts, over what yaml-cpp and the cast of the
innermost type do. -/

namespace CorReactor.Lexical

abbrev Text := Name

/-- A node of yaml-cpp, as far as the casts look at it. -/
inductive Node
  | null
  | scalar (value : Text)
  | sequence (items : List Node)
  | map (entries : List (Node × Node))

/-- `Scalar()`, empty for other nodes. -/
def Node.Scalar : Node → Text
  | .scalar value => value
  | .null | .sequence _ | .map _ => []

/-- yaml-cpp. `none` is an exception; the last two are what it does for an index into a map and for
the pairs of a sequence. -/
structure YamlCpp where
  Load : Text → Option Node
  print : Node → Text
  indexedMap : List (Node × Node) → Option (List Text)
  iteratedSequence : List Node → Option (List (Text × Text))

namespace YamlCpp

variable (y : YamlCpp)

/-- The texts of `node[i]`. -/
def indexed : Node → Option (List Text)
  | .sequence items => some (items.map y.print)
  | .map entries => y.indexedMap entries
  | .null | .scalar _ => some []

/-- The keys of a node and the texts of its values. -/
def iterated : Node → Option (List (Text × Text))
  | .map entries => some (entries.map fun it => (it.1.Scalar, y.print it.2))
  | .sequence items => y.iteratedSequence items
  | .null | .scalar _ => some []

/-- `ss << node` for a new node: where nothing was put in, nothing is written. -/
def stream : Node → Text
  | .null => []
  | .scalar value => y.print (.scalar value)
  | .sequence items => y.print (.sequence items)
  | .map entries => y.print (.map entries)

/-- The node is loaded from what is written for it. -/
structure Keeps (node : Node) : Prop where
  streamed : y.Load (y.stream node) = some node
  printed : y.Load (y.print node) = some node

end YamlCpp

structure LexicalCast (T : Type) where
  toStr : T → Option Text
  fromStr : Text → Option T

section Casts

variable (y : YamlCpp) {T : Type} (cast : LexicalCast T)

/-- `YAML::Load(LexicalCast<T, std::string>()(i))`. -/
def element (i : T) : Option Node := (cast.toStr i).bind y.Load

/-- A new node behind `push_back`. -/
def sequenceOf (items : List Node) : Node := if items.isEmpty then .null else .sequence items

/-- A new node behind `node[key] = value` for different keys. -/
def mapOf (entries : List (Node × Node)) : Node := if entries.isEmpty then .null else .map entries

/-- The node that is written for the elements. -/
def itemsNode (elements : List T) : Option Node := (elements.mapM (element y cast)).map sequenceOf

def readItems (node : Node) : Option (List T) :=
  (y.indexed node).bind fun texts => texts.mapM cast.fromStr

/-- The node that is written for the entries. -/
def entriesNode (entries : List (Text × T)) : Option Node :=
  (entries.mapM fun i => (element y cast i.2).map fun value => (Node.scalar i.1, value)).map mapOf

def readEntries (node : Node) : Option (List (Text × T)) :=
  (y.iterated node).bind fun texts =>
    texts.mapM fun it => (cast.fromStr it.2).map fun value => (it.1, value)

/-- A cast of a container, by the node of a container and what is read from a node. -/
def through {V : Type} (root : V → Option Node) (read : Node → Option V) : LexicalCast V :=
  ⟨fun v => (root v).map y.stream, fun text => (y.Load text).bind read⟩

def vector : LexicalCast (List T) := through y (itemsNode y cast) (readItems y cast)

def list : LexicalCast (List T) := through y (itemsNode y cast) (readItems y cast)

/-- Both kinds of sets, by the order of iteration. -/
def finset [DecidableEq T] (order : Finset T → List T) : LexicalCast (Finset T) :=
  through y (fun v => itemsNode y cast (order v)) fun node =>
    (readItems y cast node).map fun items => items.foldl (fun vec i => insert i vec) ∅

def set [LinearOrder T] : LexicalCast (Finset T) := finset y cast fun v => v.sort (· ≤ ·)

def unorderedSet [DecidableEq T] (hashed : Finset T → List T) : LexicalCast (Finset T) :=
  finset y cast hashed

/-- `vec.insert(pair)`, which keeps the value of a key that is there. -/
def insertNew (vec : Finmap fun _ : Text => T) (i : Text × T) : Finmap fun _ : Text => T :=
  if i.1 ∈ vec then vec else vec.insert i.1 i.2

/-- Both kinds of maps, by the order of iteration. -/
def finmap (order : (Finmap fun _ : Text => T) → List (Text × T)) :
    LexicalCast (Finmap fun _ : Text => T) :=
  through y (fun v => entriesNode y cast (order v)) fun node =>
    (readEntries y cast node).map fun entries => entries.foldl insertNew ∅

/-- The entries of a `std::map`. -/
def byKey (v : Finmap fun _ : Text => T) : List (Text × T) :=
  (v.keys.sort (· ≤ ·)).filterMap fun key => (v.lookup key).map fun value => (key, value)

def map : LexicalCast (Finmap fun _ : Text => T) := finmap y cast byKey

def unorderedMap (hashed : (Finmap fun _ : Text => T) → List (Text × T)) :
    LexicalCast (Finmap fun _ : Text => T) := finmap y cast hashed

end Casts

/-! ### Types -/

/-- The types that are put together from an innermost one. -/
inductive Kind
  | leaf
  | vector (k : Kind)
  | list (k : Kind)
  | set
  | unorderedSet
  | map (k : Kind)
  | unorderedMap (k : Kind)

def Kind.Value (α : Type) : Kind → Type
  | leaf => α
  | vector k | list k => List (k.Value α)
  | set | unorderedSet => Finset α
  | map k | unorderedMap k => Finmap fun _ : Text => k.Value α

/-- The list has the entries of the map, each of them once. -/
structure Lists {T : Type} (v : Finmap fun _ : Text => T) (entries : List (Text × T)) : Prop where
  nodup : (entries.map Prod.fst).Nodup
  mem : ∀ i, i ∈ entries ↔ v.lookup i.1 = some i.2

/-- The orders of iteration of the hashed containers. -/
structure Hashing (α : Type) where
  set : Finset α → List α
  map : (T : Type) → (Finmap fun _ : Text => T) → List (Text × T)
  set_lists : ∀ v x, x ∈ set v ↔ x ∈ v
  map_lists : ∀ T v, Lists v (map T v)

namespace Kind

section Cast

variable {α : Type} [LinearOrder α] (y : YamlCpp) (innermost : LexicalCast α) (hashing : Hashing α)

def cast : (k : Kind) → LexicalCast (k.Value α)
  | leaf => innermost
  | vector k => Lexical.vector y k.cast
  | list k => Lexical.list y k.cast
  | set => Lexical.set y innermost
  | unorderedSet => Lexical.unorderedSet y innermost hashing.set
  | map k => Lexical.map y k.cast
  | unorderedMap k => Lexical.unorderedMap y k.cast (hashing.map _)

/-- Every node that is written for the value or for a container in it is kept. -/
def Kept : (k : Kind) → k.Value α → Prop
  | leaf, _ => True
  | vector k, (v : List (k.Value α)) | list k, (v : List (k.Value α)) =>
      (∀ x ∈ v, Kept k x) ∧
        ∀ node, itemsNode y (k.cast y innermost hashing) v = some node → y.Keeps node
  | set, (v : Finset α) =>
      ∀ node, itemsNode y innermost (v.sort (· ≤ ·)) = some node → y.Keeps node
  | unorderedSet, (v : Finset α) =>
      ∀ node, itemsNode y innermost (hashing.set v) = some node → y.Keeps node
  | map k, (v : Finmap fun _ => k.Value α) =>
      (∀ key x, v.lookup key = some x → Kept k x) ∧
        ∀ node, entriesNode y (k.cast y innermost hashing) (byKey v) = some node → y.Keeps node
  | unorderedMap k, (v : Finmap fun _ => k.Value α) =>
      (∀ key x, v.lookup key = some x → Kept k x) ∧
        ∀ node, entriesNode y (k.cast y innermost hashing) (hashing.map _ v) = some node →
          y.Keeps node

end Cast

/-- All innermost values in the value are of this kind. -/
def All {α : Type} (p : α → Prop) : (k : Kind) → k.Value α → Prop
  | leaf, v => p v
  | vector k, (v : List (k.Value α)) | list k, (v : List (k.Value α)) => ∀ x ∈ v, All p k x
  | set, (v : Finset α) | unorderedSet, (v : Finset α) => ∀ x ∈ v, p x
  | map k, (v : Finmap fun _ => k.Value α) | unorderedMap k, (v : Finmap fun _ => k.Value α) =>
      ∀ key x, v.lookup key = some x → All p k x

end Kind

section Returning

variable (y : YamlCpp) {T : Type} (cast : LexicalCast T) (x : T)

def RoundTrips : Prop := (cast.toStr x).bind cast.fromStr = some x

/-- The value comes back from the text of the node that its own text is loaded as. -/
def Returns : Prop :=
  ((element y cast x).bind fun node => cast.fromStr (y.print node)) = some x

instance [DecidableEq T] : Decidable (Returns y cast x) := inferInstanceAs (Decidable (_ = _))

end Returning

/-! ### Texts and nodes -/

section Through

variable {y : YamlCpp} {T V : Type} {cast : LexicalCast T} {read : Node → Option V}

theorem returns_through (root : V → Option Node) (v : V)
    (kept : ∀ node, root v = some node → y.Keeps node) :
    Returns y (through y root read) v ↔ (root v).bind read = some v := by
  cases written : root v with
  | none => simp only [Returns, element, through, written, Option.map_none, Option.bind_none]
  | some node =>
      obtain ⟨streamed, printed⟩ := kept node written
      simp only [Returns, element, through, written, Option.map_some, Option.bind_some, streamed,
        printed]

/-- The text of a container is the one of its node. -/
theorem trips_through (root : V → Option Node) (v : V)
    (kept : ∀ node, root v = some node → y.Keeps node) :
    RoundTrips (through y root read) v ↔ Returns y (through y root read) v := by
  rw [returns_through root v kept]
  cases written : root v with
  | none => simp only [RoundTrips, through, written, Option.map_none, Option.bind_none]
  | some node =>
      simp only [RoundTrips, through, written, Option.map_some, Option.bind_some,
        (kept node written).streamed]

/-- Elements that go there and back one by one. -/
theorem mapM_inverse {U : Type} {f : T → Option U} {g : U → Option T} (l : List T) :
    ((l.mapM f).bind fun r => r.mapM g) = some l ↔ ∀ x ∈ l, (f x).bind g = some x := by
  induction l with
  | nil => simp only [List.mapM_nil, Option.pure_def, Option.bind_some, List.not_mem_nil,
      false_implies, implies_true]
  | cons x l ih =>
      simp only [List.mapM_cons, Option.pure_def, Option.bind_eq_bind, List.mem_cons,
        forall_eq_or_imp]
      rw [← ih]
      cases first : f x with
      | none => simp only [Option.bind_none, reduceCtorEq, false_and]
      | some b =>
          cases rest : l.mapM f with
          | none => simp only [Option.bind_none, Option.bind_some, reduceCtorEq, and_false]
          | some r =>
              simp only [Option.bind_some, List.mapM_cons, Option.pure_def, Option.bind_eq_bind]
              cases back : g b with
              | none => simp only [Option.bind_none, reduceCtorEq, false_and]
              | some x' =>
                  cases later : r.mapM g with
                  | none => simp only [Option.bind_none, Option.bind_some, reduceCtorEq, and_false]
                  | some l' =>
                      simp only [Option.bind_some, Option.some.injEq, List.cons.injEq]

theorem readItems_sequenceOf (items : List Node) :
    readItems y cast (sequenceOf items) = items.mapM fun node => cast.fromStr (y.print node) := by
  cases items with
  | nil => rfl
  | cons node items =>
      change ((node :: items).map y.print).mapM cast.fromStr = _
      rw [List.mapM_map]
      rfl

/-- What is read from the node of some elements. -/
theorem items_read (l : List T) : (itemsNode y cast l).bind (readItems y cast) = some l ↔
    ∀ x ∈ l, Returns y cast x := by
  rw [itemsNode, Option.bind_map]
  simp only [Function.comp_def, readItems_sequenceOf]
  exact mapM_inverse l

theorem readEntries_mapOf (entries : List (Text × Node)) :
    readEntries y cast (mapOf (entries.map fun e => (.scalar e.1, e.2))) =
      entries.mapM fun e => (cast.fromStr (y.print e.2)).map fun value => (e.1, value) := by
  cases entries with
  | nil => rfl
  | cons e entries =>
      have pairs : y.iterated (mapOf ((e :: entries).map fun e => (.scalar e.1, e.2))) =
          some ((e :: entries).map fun e => (e.1, y.print e.2)) := by
        refine congrArg some ?_
        rw [List.map_map]
        rfl
      rw [readEntries, pairs, Option.bind_some, List.mapM_map]
      rfl

theorem mapM_map_result {U W : Type} {f : T → Option U} {g : U → W} (l : List T) :
    (l.mapM fun x => (f x).map g) = (l.mapM f).map (List.map g) := by
  induction l with
  | nil => rfl
  | cons x l ih =>
      rw [List.mapM_cons, List.mapM_cons, ih]
      cases f x with
      | none => rfl
      | some b => cases l.mapM f <;> rfl

theorem entriesNode_eq (l : List (Text × T)) : entriesNode y cast l =
    (l.mapM fun i => (element y cast i.2).map fun n => (i.1, n)).map fun entries =>
      mapOf (entries.map fun e => (.scalar e.1, e.2)) := by
  have each : (fun i : Text × T => (element y cast i.2).map fun value =>
      (Node.scalar i.1, value)) = fun i => ((element y cast i.2).map fun n => (i.1, n)).map
        fun e => (.scalar e.1, e.2) := by
    funext i
    rw [Option.map_map]
    rfl
  rw [entriesNode, each, mapM_map_result, Option.map_map]
  rfl

theorem entries_read (l : List (Text × T)) : (entriesNode y cast l).bind (readEntries y cast) =
    some l ↔ ∀ i ∈ l, Returns y cast i.2 := by
  rw [entriesNode_eq, Option.bind_map]
  simp only [Function.comp_def, readEntries_mapOf]
  rw [mapM_inverse]
  refine forall₂_congr fun i _ => ?_
  rw [Returns]
  cases element y cast i.2 with
  | none => simp only [Option.map_none, Option.bind_none, reduceCtorEq]
  | some n =>
      simp only [Option.map_some, Option.bind_some]
      cases cast.fromStr (y.print n) with
      | none => simp only [Option.map_none, reduceCtorEq]
      | some x => simp only [Option.map_some, Option.some.injEq, Prod.ext_iff, true_and]

/-! ### Containers -/

theorem mem_foldl_insert [DecidableEq T] (l : List T) (s : Finset T) (x : T) :
    x ∈ l.foldl (fun vec i => insert i vec) s ↔ x ∈ l ∨ x ∈ s := by
  induction l generalizing s with
  | nil => simp only [List.foldl_nil, List.not_mem_nil, false_or]
  | cons i l ih =>
      rw [List.foldl_cons, ih, Finset.mem_insert, List.mem_cons]
      tauto

/-- Where the keys are different ones, all entries are taken up. -/
theorem lookup_foldl_insertNew {l : List (Text × T)} {m : Finmap fun _ : Text => T}
    (nodup : (l.map Prod.fst).Nodup) (fresh : ∀ i ∈ l, i.1 ∉ m) (key : Text) (x : T) :
    (l.foldl insertNew m).lookup key = some x ↔ (key, x) ∈ l ∨ m.lookup key = some x := by
  induction l generalizing m with
  | nil => simp only [List.foldl_nil, List.not_mem_nil, false_or]
  | cons i l ih =>
      obtain ⟨other, nodup⟩ := List.nodup_cons.mp (List.map_cons ▸ nodup)
      have absent := fresh i List.mem_cons_self
      have taken : insertNew m i = m.insert i.1 i.2 := if_neg absent
      rw [List.foldl_cons, taken, ih nodup]
      · by_cases same : key = i.1
        · subst same
          have none_here : m.lookup i.1 = none := Finmap.lookup_eq_none.mpr absent
          rw [Finmap.lookup_insert, none_here, List.mem_cons, Prod.ext_iff]
          simp only [true_and, Option.some.injEq, reduceCtorEq, or_false]
          have no_later : (i.1, x) ∉ l := fun inside =>
            other (List.mem_map.mpr ⟨_, inside, rfl⟩)
          simp only [no_later, false_or, or_false]
          exact eq_comm
        · have differs : (key, x) ≠ i := fun eq => same (congrArg Prod.fst eq)
          rw [Finmap.lookup_insert_of_ne m same, List.mem_cons]
          simp only [differs, false_or]
      · intro f inside
        rw [Finmap.mem_insert, not_or]
        refine ⟨fun same => other ?_, fresh f (List.mem_cons_of_mem i inside)⟩
        rw [← same]
        exact List.mem_map_of_mem inside

theorem Lists.foldl_insertNew {v : Finmap fun _ : Text => T} {l : List (Text × T)}
    (lists : Lists v l) : l.foldl insertNew ∅ = v := by
  refine Finmap.ext_lookup fun key => Option.ext fun x => ?_
  rw [lookup_foldl_insertNew lists.nodup fun i _ => Finmap.notMem_empty, Finmap.lookup_empty,
    lists.mem]
  simp only [reduceCtorEq, or_false]

/-- Other entries under the same keys make another map. -/
theorem Lists.eq_of_foldl {v : Finmap fun _ : Text => T} {l l' : List (Text × T)}
    (lists : Lists v l) (keys : l'.map Prod.fst = l.map Prod.fst)
    (same : l'.foldl insertNew ∅ = v) : l' = l := by
  have length : l'.length = l.length := by
    rw [← List.length_map (f := Prod.fst), keys, List.length_map]
  refine List.ext_getElem length fun i less less' => ?_
  have key : l'[i].1 = l[i].1 := by
    have at_i := congrArg (·[i]?) keys
    simp only [List.getElem?_map, List.getElem?_eq_getElem less, List.getElem?_eq_getElem less',
      Option.map_some, Option.some.injEq] at at_i
    exact at_i
  have nodup : (l'.map Prod.fst).Nodup := keys ▸ lists.nodup
  have first := (lookup_foldl_insertNew nodup (fun i _ => Finmap.notMem_empty) l'[i].1 l'[i].2).mpr
    (Or.inl (List.getElem_mem less))
  have second := (lists.mem l[i]).mp (List.getElem_mem less')
  rw [same, key, second] at first
  exact Prod.ext key (Option.some.inj first).symm

theorem byKey_lists (v : Finmap fun _ : Text => T) : Lists v (byKey v) := by
  constructor
  · rw [byKey, List.map_filterMap]
    refine List.Nodup.filterMap ?_ (Finset.sort_nodup _ _)
    intro key key' i first second
    simp only [Option.map_map, Option.mem_def, Option.map_eq_some_iff] at first second
    obtain ⟨x, -, rfl⟩ := first
    obtain ⟨x', -, same⟩ := second
    exact same.symm
  · intro i
    simp only [byKey, List.mem_filterMap, Finset.mem_sort, Finmap.mem_keys, Option.map_eq_some_iff]
    constructor
    · rintro ⟨key, -, x, found, rfl⟩
      exact found
    · intro found
      exact ⟨i.1, Finmap.mem_of_lookup_eq_some found, i.2, found, rfl⟩

theorem keys_mapM {U W : Type} {f : Text × U → Option W} {l : List (Text × U)}
    {r : List (Text × W)} (mapped : (l.mapM fun e => (f e).map fun b => (e.1, b)) = some r) :
    r.map Prod.fst = l.map Prod.fst := by
  induction l generalizing r with
  | nil =>
      cases mapped
      rfl
  | cons e l ih =>
      rw [List.mapM_cons] at mapped
      obtain ⟨b, first, mapped⟩ := Option.bind_eq_some_iff.mp mapped
      obtain ⟨rest, later, mapped⟩ := Option.bind_eq_some_iff.mp mapped
      obtain ⟨w, -, rfl⟩ := Option.map_eq_some_iff.mp first
      cases mapped
      rw [List.map_cons, List.map_cons, ih later]

/-- The keys of what is read are those of what was written. -/
theorem keys_read {l l' : List (Text × T)}
    (read : (entriesNode y cast l).bind (readEntries y cast) = some l') :
    l'.map Prod.fst = l.map Prod.fst := by
  rw [entriesNode_eq, Option.bind_map] at read
  simp only [Function.comp_def, readEntries_mapOf] at read
  obtain ⟨entries, written, read⟩ := Option.bind_eq_some_iff.mp read
  exact (keys_mapM read).trans (keys_mapM written)

end Through

section Containers

variable {y : YamlCpp} {T : Type} {cast : LexicalCast T}

theorem vector_returns {v : List T} (kept : ∀ node, itemsNode y cast v = some node → y.Keeps node) :
    Returns y (vector y cast) v ↔ ∀ x ∈ v, Returns y cast x :=
  (returns_through (itemsNode y cast) v kept).trans (items_read v)

theorem finset_returns [DecidableEq T] {order : Finset T → List T} {v : Finset T}
    (kept : ∀ node, itemsNode y cast (order v) = some node → y.Keeps node)
    (lists : ∀ x, x ∈ order v ↔ x ∈ v) (each : ∀ x ∈ v, Returns y cast x) :
    Returns y (finset y cast order) v := by
  refine (returns_through (fun v => itemsNode y cast (order v)) v kept).mpr ?_
  have read := (items_read (order v)).mpr fun x inside => each x ((lists x).mp inside)
  have together : ((itemsNode y cast (order v)).bind (readItems y cast)).map
      (fun items => items.foldl (fun vec i => insert i vec) ∅) = some v := by
    rw [read, Option.map_some]
    refine congrArg some (Finset.ext fun x => ?_)
    rw [mem_foldl_insert, lists]
    simp only [Finset.notMem_empty, or_false]
  rw [← together, Option.map_bind]
  rfl

theorem finmap_returns {order : (Finmap fun _ : Text => T) → List (Text × T)}
    {v : Finmap fun _ : Text => T}
    (kept : ∀ node, entriesNode y cast (order v) = some node → y.Keeps node)
    (lists : Lists v (order v)) :
    Returns y (finmap y cast order) v ↔
      ∀ key x, v.lookup key = some x → Returns y cast x := by
  refine (returns_through (fun v => entriesNode y cast (order v)) v kept).trans ?_
  have split : ((entriesNode y cast (order v)).bind fun node =>
      (readEntries y cast node).map fun entries => entries.foldl insertNew ∅) =
        ((entriesNode y cast (order v)).bind (readEntries y cast)).map
          fun entries => entries.foldl insertNew ∅ := by
    rw [Option.map_bind]
    rfl
  have values : (∀ key x, v.lookup key = some x → Returns y cast x) ↔
      ∀ i ∈ order v, Returns y cast i.2 := by
    refine ⟨fun each i inside => each i.1 i.2 ((lists.mem i).mp inside), fun each key x found => ?_⟩
    exact each (key, x) ((lists.mem (key, x)).mpr found)
  rw [split, values, ← entries_read, Option.map_eq_some_iff]
  constructor
  · rintro ⟨l, read, same⟩
    rw [read, lists.eq_of_foldl (keys_read read) same]
  · intro read
    exact ⟨_, read, lists.foldl_insertNew⟩

end Containers

/-! ### All types -/

namespace Kind

variable {α : Type} [LinearOrder α] {y : YamlCpp} {innermost : LexicalCast α} {hashing : Hashing α}

/-- No set is part of the type. -/
def Setless : Kind → Prop
  | leaf => True
  | vector k | list k | map k | unorderedMap k => k.Setless
  | set | unorderedSet => False

theorem returns_iff (k : Kind) (v : k.Value α) (kept : k.Kept y innermost hashing v) :
    (k.All (Returns y innermost) v → Returns y (k.cast y innermost hashing) v) ∧
      (k.Setless → Returns y (k.cast y innermost hashing) v → k.All (Returns y innermost) v) := by
  induction k with
  | leaf => exact ⟨id, fun _ => id⟩
  | vector k ih | list k ih =>
      have each := vector_returns kept.2
      refine ⟨fun all => each.mpr fun x inside => ?_, fun setless returns x inside => ?_⟩
      · exact (ih x (kept.1 x inside)).1 (all x inside)
      · exact (ih x (kept.1 x inside)).2 setless (each.mp returns x inside)
  | set =>
      refine ⟨fun all => finset_returns kept (fun x => ?_) all, False.elim⟩
      exact Finset.mem_sort _
  | unorderedSet => exact ⟨finset_returns kept (hashing.set_lists v), False.elim⟩
  | map k ih =>
      have each := finmap_returns kept.2 (byKey_lists v)
      refine ⟨fun all => each.mpr fun key x found => ?_, fun setless returns key x found => ?_⟩
      · exact (ih x (kept.1 key x found)).1 (all key x found)
      · exact (ih x (kept.1 key x found)).2 setless (each.mp returns key x found)
  | unorderedMap k ih =>
      have each := finmap_returns kept.2 (hashing.map_lists _ v)
      refine ⟨fun all => each.mpr fun key x found => ?_, fun setless returns key x found => ?_⟩
      · exact (ih x (kept.1 key x found)).1 (all key x found)
      · exact (ih x (kept.1 key x found)).2 setless (each.mp returns key x found)

theorem trips_iff_returns (k : Kind) (v : k.Value α) (container : k ≠ leaf)
    (kept : k.Kept y innermost hashing v) :
    RoundTrips (k.cast y innermost hashing) v ↔ Returns y (k.cast y innermost hashing) v := by
  cases k with
  | leaf => exact absurd rfl container
  | vector k | list k => exact trips_through (itemsNode y _) v kept.2
  | set | unorderedSet => exact trips_through (fun v => itemsNode y _ _) v kept
  | map k | unorderedMap k => exact trips_through (fun v => entriesNode y _ _) v kept.2

end Kind

/-! ### A map of vectors -/

def pair : Node := .sequence [.scalar ['1'], .scalar ['2']]

/-- yaml-cpp on `k: [1, 2]` and its parts. -/
def blockStyle : YamlCpp where
  Load text :=
    some (if text = "k:\n  - 1\n  - 2".toList then .map [(.scalar ['k'], pair)]
      else if text = "- 1\n- 2".toList then pair
      else .scalar text)
  print
    | .scalar value => value
    | .sequence [.scalar a, .scalar b] => "- ".toList ++ a ++ "\n- ".toList ++ b
    | .map [(.scalar k, .sequence [.scalar a, .scalar b])] =>
        k ++ ":\n  - ".toList ++ a ++ "\n  - ".toList ++ b
    | _ => ['~']
  indexedMap _ := none
  iteratedSequence _ := none

/-- `boost::lexical_cast` of numbers. -/
def numbers : LexicalCast Nat where
  toStr n := some (Nat.toDigits 10 n)
  fromStr text :=
    if text ≠ [] ∧ text.all Char.isDigit then some (Nat.ofDigitChars 10 text 0) else none

def sortedHashing : Hashing Nat where
  set v := v.sort (· ≤ ·)
  map _ v := byKey v
  set_lists _ _ := Finset.mem_sort _
  map_lists _ v := byKey_lists v

/-- A map with one vector in it. -/
def single : Finmap fun _ : Text => List Nat := .singleton ['k'] [1, 2]

theorem byKey_single : byKey single = [(['k'], [1, 2])] := by
  rw [byKey, single, Finmap.keys_singleton, Finset.sort_singleton]
  simp only [List.filterMap_cons, Finmap.lookup_singleton_eq, Option.map_some, List.filterMap_nil]

theorem lookup_single {key : Text} {x : List Nat} (here : single.lookup key = some x) :
    x = [1, 2] := by
  have same := (Finmap.mem_singleton _ _ _).mp (Finmap.mem_of_lookup_eq_some here)
  rw [same, single, Finmap.lookup_singleton_eq] at here
  exact (Option.some.inj here).symm

theorem single_kept : (Kind.map (.vector .leaf)).Kept blockStyle numbers sortedHashing single := by
  refine ⟨fun key x here => ?_, fun node here => ?_⟩
  · rw [lookup_single here]
    have written : itemsNode blockStyle numbers [1, 2] = some pair := rfl
    refine ⟨fun _ _ => trivial, fun node here => ?_⟩
    obtain rfl := Option.some.inj (written.symm.trans here)
    exact ⟨rfl, rfl⟩
  · change entriesNode blockStyle (vector blockStyle numbers) (byKey single) = some node at here
    rw [byKey_single] at here
    have written : entriesNode blockStyle (vector blockStyle numbers) [(['k'], [1, 2])] =
        some (.map [(.scalar ['k'], pair)]) := rfl
    obtain rfl := Option.some.inj (written.symm.trans here)
    exact ⟨rfl, rfl⟩

end CorReactor.Lexical
