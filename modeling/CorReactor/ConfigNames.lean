import CorReactor.Config

set_option autoImplicit false

/-! Which registered names `LoadFromYaml` reaches. -/

namespace CorReactor

open Config

theorem onlyOf_iff {chars name : Name} : onlyOf chars name = true ↔ ∀ c ∈ name, c ∈ chars := by
  simp only [onlyOf, List.all_eq_true, decide_eq_true_eq]

/-- A property of all characters of a list, checked one by one. -/
theorem forall_of_all {chars : Name} {P : Char → Prop} [DecidablePred P]
    (all : chars.all (fun c => decide (P c)) = true) : ∀ c ∈ chars, P c := by
  intro c member
  exact of_decide_eq_true (List.all_eq_true.mp all c member)

theorem member_or_nine {name : Name} (component : onlyOf componentChars name = true) :
    onlyOf memberChars name = true ∨ '9' ∈ name := by
  by_cases nine : '9' ∈ name
  · exact Or.inr nine
  · refine Or.inl (onlyOf_iff.mpr ?_)
    intro c member
    have cases_of : ∀ c ∈ componentChars, c = '9' ∨ c ∈ memberChars :=
      forall_of_all (by decide)
    rcases cases_of c (onlyOf_iff.mp component c member) with rfl | ok
    · exact absurd member nine
    · exact ok

theorem no_nine {name : Name} (valid : onlyOf memberChars name = true) : '9' ∉ name := by
  intro nine
  have inside := onlyOf_iff.mp valid '9' nine
  revert inside
  decide

/-- Lower-casing changes nothing in the accepted names. -/
theorem map_tolower {chars name : Name} (lower : ∀ c ∈ chars, tolower c = c)
    (valid : onlyOf chars name = true) : name.map tolower = name := by
  rw [List.map_congr_left fun c member => lower c (onlyOf_iff.mp valid c member), List.map_id']

theorem memberChars_lower : ∀ c ∈ memberChars, tolower c = c := forall_of_all (by decide)

theorem createChars_lower : ∀ c ∈ createChars, tolower c = c := forall_of_all (by decide)

theorem extend_valid {path key : Name} (valid : onlyOf memberChars path = true)
    (component : onlyOf memberChars key = true) : onlyOf memberChars (extend path key) = true := by
  unfold extend
  split
  · exact component
  · simp only [onlyOf, List.all_append, List.all_cons, Bool.and_eq_true] at valid component ⊢
    exact ⟨valid, by decide, component⟩

/-- The prefix that the recursion has at the end of the components. -/
theorem foldl_extend {start : Name} (started : start ≠ []) {path : List Name}
    (some_component : path ≠ []) :
    path.foldl extend start = start ++ '.' :: dotted path := by
  induction path generalizing start with
  | nil => exact absurd rfl some_component
  | cons key rest ih =>
      have first : extend start key = start ++ '.' :: key := by
        unfold extend
        rw [if_neg (by simpa using started)]
      rw [List.foldl_cons, first]
      cases rest with
      | nil => rw [List.foldl_nil, dotted, List.intercalate_singleton]
      | cons key' rest =>
          rw [ih (by simp) (by simp)]
          simp only [dotted, List.intercalate_cons_cons, List.append_assoc, List.cons_append,
            List.nil_append]

theorem foldl_extend_dotted {path : List Name} (components : ∀ c ∈ path, c ≠ [])
    (some_component : path ≠ []) : path.foldl extend [] = dotted path := by
  cases path with
  | nil => exact absurd rfl some_component
  | cons key rest =>
      rw [List.foldl_cons]
      change rest.foldl extend key = _
      cases rest with
      | nil => exact List.intercalate_singleton.symm
      | cons key' rest =>
          rw [foldl_extend (components key List.mem_cons_self) (by simp)]
          simp only [dotted, List.intercalate_cons_cons, List.append_assoc, List.cons_append,
            List.nil_append]

theorem mem_dotted {path : List Name} {key : Name} {c : Char} (member : key ∈ path)
    (inside : c ∈ key) : c ∈ dotted path := by
  induction path with
  | nil => cases member
  | cons first rest ih =>
      cases rest with
      | nil =>
          rw [dotted, List.intercalate_singleton, ← List.mem_singleton.mp member]
          exact inside
      | cons second rest =>
          rw [dotted, List.intercalate_cons_cons]
          rcases List.mem_cons.mp member with rfl | later
          · exact List.mem_append_left _ (List.mem_append_left _ inside)
          · exact List.mem_append_right _ (ih later)

theorem mem_listEntries {path : Name} {entries : List (Yaml × Yaml)} {key node : Yaml}
    (member : (key, node) ∈ entries) {i : Name × Yaml}
    (listed : i ∈ listAllMember (extend path key.Scalar) node) : i ∈ listEntries path entries := by
  induction entries with
  | nil => cases member
  | cons entry rest ih =>
      obtain ⟨key', node'⟩ := entry
      rw [listEntries]
      rcases List.mem_cons.mp member with same | later
      · cases same
        exact List.mem_append_left _ listed
      · exact List.mem_append_right _ (ih later)

theorem mem_listAllMember_self {path : Name} (valid : onlyOf memberChars path = true)
    (node : Yaml) : (path, node) ∈ listAllMember path node := by
  unfold listAllMember
  simp only [valid, Bool.not_true, Bool.false_eq_true, ↓reduceIte]
  exact List.mem_cons_self

/-- A scalar is listed under the components that lead to it, if they are all accepted. -/
theorem mem_listAllMember {node : Yaml} {path : List Name} {value : Name}
    (at_path : node.ScalarAt path value) {start : Name} (valid : onlyOf memberChars start = true)
    (components : ∀ c ∈ path, onlyOf memberChars c = true) :
    (path.foldl extend start, .scalar value) ∈ listAllMember start node := by
  induction at_path generalizing start with
  | here value => exact mem_listAllMember_self valid (.scalar value)
  | there member deeper ih =>
      rw [List.foldl_cons]
      unfold listAllMember
      simp only [valid, Bool.not_true, Bool.false_eq_true, ↓reduceIte]
      apply List.mem_cons_of_mem
      apply mem_listEntries member
      apply ih
      · exact extend_valid valid (components _ List.mem_cons_self)
      · exact fun c later => components c (List.mem_cons_of_mem _ later)

mutual

/-- Whatever is listed has an accepted name. -/
theorem listAllMember_valid (path : Name) (node : Yaml) :
    ∀ i ∈ listAllMember path node, onlyOf memberChars i.1 = true := by
  intro i member
  by_cases valid : onlyOf memberChars path = true
  · cases node with
    | scalar value | other printed =>
        unfold listAllMember at member
        simp only [valid, Bool.not_true, Bool.false_eq_true, ↓reduceIte, List.mem_singleton]
          at member
        rw [member]
        exact valid
    | map entries printed =>
        unfold listAllMember at member
        simp only [valid, Bool.not_true, Bool.false_eq_true, ↓reduceIte] at member
        rcases List.mem_cons.mp member with rfl | later
        · exact valid
        · exact listEntries_valid path entries i later
  · unfold listAllMember at member
    rw [(Bool.not_eq_true _).mp valid] at member
    cases member

theorem listEntries_valid (path : Name) (entries : List (Yaml × Yaml)) :
    ∀ i ∈ listEntries path entries, onlyOf memberChars i.1 = true := by
  intro i member
  cases entries with
  | nil =>
      rw [listEntries] at member
      cases member
  | cons entry rest =>
      obtain ⟨key, node⟩ := entry
      rw [listEntries] at member
      rcases List.mem_append.mp member with here | later
      · exact listAllMember_valid (extend path key.Scalar) node i here
      · exact listEntries_valid path rest i later

end

theorem loadOne_some {datas : ConfigVarMap} {i : Name × Yaml} {var : ConfigVarBase} {value : Name}
    (called : loadOne datas i = some (var, value)) : datas.find (i.1.map tolower) = some var := by
  unfold loadOne at called
  split at called
  · cases called
  · obtain ⟨found, looked, same⟩ := Option.map_eq_some_iff.mp called
    split at same <;> cases same <;> exact looked

/-- Two registered names with one variable are the same name. -/
theorem find_injective {datas : ConfigVarMap} {name name' : Name} {var : ConfigVarBase}
    (found : datas.find name = some var) (found' : datas.find name' = some var) : name = name' := by
  obtain ⟨made, valid⟩ := datas.named name var found
  obtain ⟨made', valid'⟩ := datas.named name' var found'
  have same := congrArg ConfigVarBase.m_name (made.symm.trans made')
  simp only [ConfigVarBase.new] at same
  rwa [map_tolower createChars_lower valid, map_tolower createChars_lower valid'] at same

/-- `LoadFromYaml` hands the scalar at a registered name's path to its variable exactly when
there is no 9 in the name. -/
theorem loadFromYaml_iff {datas : ConfigVarMap} {root : Yaml} {path : List Name} {value : Name}
    {var : ConfigVarBase} (components : ∀ c ∈ path, c ≠ [] ∧ onlyOf componentChars c = true)
    (some_component : path ≠ []) (registered : datas.find (dotted path) = some var)
    (at_path : root.ScalarAt path value) :
    (var, value) ∈ LoadFromYaml datas root ↔ '9' ∉ dotted path := by
  have spelled := foldl_extend_dotted (fun c member => (components c member).1) some_component
  constructor
  · intro called
    obtain ⟨i, listed, loaded⟩ := List.mem_filterMap.mp called
    have valid := listAllMember_valid [] root i listed
    have same := find_injective (loadOne_some loaded) registered
    rw [map_tolower memberChars_lower valid] at same
    rw [← same]
    exact no_nine valid
  · intro nine
    have accepted : ∀ c ∈ path, onlyOf memberChars c = true := by
      intro c member
      refine (member_or_nine (components c member).2).resolve_right ?_
      intro inside
      exact nine (mem_dotted member inside)
    have listed := mem_listAllMember at_path (show onlyOf memberChars [] = true by decide) accepted
    rw [spelled] at listed
    refine List.mem_filterMap.mpr ⟨_, listed, ?_⟩
    have valid := listAllMember_valid [] root _ listed
    have not_empty : (dotted path).isEmpty = false := by
      obtain ⟨first, here⟩ := List.exists_mem_of_ne_nil path some_component
      obtain ⟨x, inside⟩ := List.exists_mem_of_ne_nil first (components first here).1
      rw [List.isEmpty_eq_false_iff]
      exact List.ne_nil_of_mem (mem_dotted here inside)
    unfold loadOne
    simp only [not_empty, Bool.false_eq_true, ↓reduceIte, LookupBase,
      map_tolower memberChars_lower valid, registered, Option.map_some]

/-- One variable, registered. -/
def oneVar (name : Name) (valid : onlyOf createChars name = true) : ConfigVarMap where
  find := fun other => if other = name then some (.new name) else none
  named := by
    intro other var found
    split at found
    case isTrue same =>
      cases found
      exact ⟨by rw [same], by rw [same, valid]⟩
    case isFalse => cases found

/-- A path of two components, with another entry beside it. -/
theorem loadFromYaml_two :
    (ConfigVarBase.new "http.size_2".toList, "70".toList) ∈
      LoadFromYaml (oneVar "http.size_2".toList (by decide))
        (.map [(.scalar "HTTP".toList, .other []),
          (.scalar "http".toList, .map [(.scalar "size_2".toList, .scalar "70".toList)] [])] []) :=
  (loadFromYaml_iff (show ∀ c ∈ ["http".toList, "size_2".toList], c ≠ [] ∧
      onlyOf componentChars c = true by decide) (by decide) rfl
    (.there (List.mem_cons_of_mem _ List.mem_cons_self)
      (.there List.mem_cons_self (.here _)))).mpr (by decide)

/-- The variable a9 is never loaded. -/
theorem loadFromYaml_nine :
    onlyOf createChars "a9".toList = true ∧
    (oneVar "a9".toList (by decide)).find "a9".toList = some (.new "a9".toList) ∧
    Yaml.ScalarAt (.map [(.scalar "a9".toList, .scalar "5".toList)] []) ["a9".toList] "5".toList ∧
    LoadFromYaml (oneVar "a9".toList (by decide))
      (.map [(.scalar "a9".toList, .scalar "5".toList)] []) = [] :=
  ⟨by decide, rfl, .there List.mem_cons_self (.here _), by decide⟩

end CorReactor
