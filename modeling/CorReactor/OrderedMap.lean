import Mathlib.Data.List.Pairwise
import Mathlib.Order.Lattice

set_option autoImplicit false

/-! An ordered map with a comparator, kept as the list of its entries in order. -/

namespace OrderedMap

variable {κ β : Type} (lt : κ → κ → Bool)

/-- `m[k] = v`: an entry with an equivalent key keeps its key. -/
def set : List (κ × β) → κ → β → List (κ × β)
  | [], k, v => [(k, v)]
  | e :: rest, k, v =>
      if lt e.1 k then e :: set rest k v
      else if lt k e.1 then (k, v) :: e :: rest
      else (e.1, v) :: rest

def equiv (k l : κ) : Bool := !lt k l && !lt l k

/-- Without the entry under an equivalent key. -/
def erase (m : List (κ × β)) (k : κ) : List (κ × β) := m.filter fun e => !equiv lt e.1 k

/-- The value under an equivalent key. -/
def find? (m : List (κ × β)) (k : κ) : Option β := (m.find? fun e => equiv lt e.1 k).map Prod.snd

/-- Strictly increasing keys. -/
def Sorted (m : List (κ × β)) : Prop := m.Pairwise fun a b => lt a.1 b.1 = true

variable {lt}

/-- The comparator is the order of what it looks at in the keys. -/
def Compares {ω : Type} [LinearOrder ω] (lt : κ → κ → Bool) (view : κ → ω) : Prop :=
  ∀ k l, lt k l = true ↔ view k < view l

variable {ω : Type} [LinearOrder ω] {view : κ → ω} {m : List (κ × β)} {k l : κ} {v : β}

theorem Compares.equiv_iff (compares : Compares lt view) :
    equiv lt k l = true ↔ view k = view l := by
  have not_less : ∀ k l, (!lt k l) = true ↔ view l ≤ view k := by
    intro k l
    rw [Bool.not_eq_true', ← Bool.not_eq_true, compares k l, not_lt]
  rw [equiv, Bool.and_eq_true_iff, not_less, not_less]
  exact ⟨fun both => le_antisymm both.2 both.1, fun same => ⟨same.ge, same.le⟩⟩

theorem mem_keys_set {e : κ × β} (member : e ∈ set lt m k v) :
    e.1 = k ∨ ∃ f ∈ m, f.1 = e.1 := by
  induction m with
  | nil =>
      rw [List.mem_singleton.mp member]
      exact Or.inl rfl
  | cons f rest ih =>
      unfold set at member
      split at member
      · rcases List.mem_cons.mp member with rfl | later
        · exact Or.inr ⟨e, List.mem_cons_self, rfl⟩
        · rcases ih later with same | ⟨g, inside, same⟩
          · exact Or.inl same
          · exact Or.inr ⟨g, List.mem_cons_of_mem _ inside, same⟩
      · split at member
        · rcases List.mem_cons.mp member with rfl | later
          · exact Or.inl rfl
          · exact Or.inr ⟨e, later, rfl⟩
        · rcases List.mem_cons.mp member with rfl | later
          · exact Or.inr ⟨f, List.mem_cons_self, rfl⟩
          · exact Or.inr ⟨e, List.mem_cons_of_mem _ later, rfl⟩

theorem set_sorted (compares : Compares lt view) (sorted : Sorted lt m) :
    Sorted lt (set lt m k v) := by
  induction m with
  | nil => exact List.pairwise_singleton _ _
  | cons e rest ih =>
      obtain ⟨below, tail⟩ := List.pairwise_cons.mp sorted
      unfold set
      split
      case isTrue less =>
        refine List.pairwise_cons.mpr ⟨?_, ih tail⟩
        intro f member
        rcases mem_keys_set member with same | ⟨g, inside, same⟩
        · rw [same]
          exact less
        · rw [← same]
          exact below g inside
      case isFalse above =>
        split
        case isTrue less =>
          refine List.pairwise_cons.mpr ⟨?_, sorted⟩
          intro f member
          rcases List.mem_cons.mp member with rfl | inside
          · exact less
          · have further := (compares _ _).mp (below f inside)
            exact (compares _ _).mpr (((compares _ _).mp less).trans further)
        case isFalse => exact List.pairwise_cons.mpr ⟨below, tail⟩

/-- An assignment leaves the other keys alone. -/
theorem mem_set_of_ne (compares : Compares lt view) {e : κ × β} (other : view e.1 ≠ view k) :
    e ∈ set lt m k v ↔ e ∈ m := by
  have differs : e ≠ (k, v) := by
    rintro rfl
    exact other rfl
  induction m with
  | nil =>
      unfold set
      simp only [List.mem_singleton, differs, List.not_mem_nil]
  | cons f rest ih =>
      unfold set
      split
      case isTrue =>
        rw [List.mem_cons, List.mem_cons]
        exact or_congr_right ih
      case isFalse above =>
        split
        case isTrue => rw [List.mem_cons, or_iff_right differs]
        case isFalse below =>
          have equal : view f.1 = view k :=
            le_antisymm (not_lt.mp fun less => below ((compares _ _).mpr less))
              (not_lt.mp fun less => above ((compares _ _).mpr less))
          have not_old : e ≠ f := by
            rintro rfl
            exact other equal
          have not_new : e ≠ (f.1, v) := by
            rintro rfl
            exact other equal
          rw [List.mem_cons, List.mem_cons, or_iff_right not_new, or_iff_right not_old]

/-- A key that is not there becomes an entry. -/
theorem mem_set_of_fresh (compares : Compares lt view) {e : κ × β}
    (fresh : ∀ f ∈ m, view f.1 ≠ view k) : e ∈ set lt m k v ↔ e = (k, v) ∨ e ∈ m := by
  induction m with
  | nil =>
      unfold set
      rw [List.mem_singleton, or_iff_left List.not_mem_nil]
  | cons f rest ih =>
      unfold set
      split
      case isTrue =>
        rw [List.mem_cons, List.mem_cons,
          ih fun g member => fresh g (List.mem_cons_of_mem _ member), or_left_comm]
      case isFalse above =>
        split
        case isTrue => rw [List.mem_cons]
        case isFalse below =>
          have equal : view f.1 = view k :=
            le_antisymm (not_lt.mp fun less => below ((compares _ _).mpr less))
              (not_lt.mp fun less => above ((compares _ _).mpr less))
          exact absurd equal (fresh f List.mem_cons_self)

/-- Entries with keys that are not there, one after the other. -/
theorem mem_foldl_set (compares : Compares lt view) {l : List (κ × β)}
    (distinct : l.Pairwise fun a b => view a.1 ≠ view b.1)
    (fresh : ∀ h ∈ l, ∀ f ∈ m, view f.1 ≠ view h.1) (e : κ × β) :
    e ∈ l.foldl (fun m h => set lt m h.1 h.2) m ↔ e ∈ l ∨ e ∈ m := by
  induction l generalizing m with
  | nil => rw [List.foldl_nil, or_iff_right List.not_mem_nil]
  | cons h l ih =>
      obtain ⟨apart, distinct⟩ := List.pairwise_cons.mp distinct
      have first : ∀ f, f ∈ set lt m h.1 h.2 ↔ f = h ∨ f ∈ m :=
        fun f => mem_set_of_fresh compares (fresh h List.mem_cons_self)
      rw [List.foldl_cons, ih distinct, first, List.mem_cons, or_left_comm, or_assoc]
      intro g later f member
      rcases (first f).mp member with rfl | inside
      · exact apart g later
      · exact fresh g (List.mem_cons_of_mem _ later) f inside

theorem find?_cons_of_ne (compares : Compares lt view) {e : κ × β} (rest : List (κ × β))
    (differs : view e.1 ≠ view l) : find? lt (e :: rest) l = find? lt rest l := by
  have apart : equiv lt e.1 l = false :=
    (Bool.not_eq_true _).mp fun same => differs (compares.equiv_iff.mp same)
  simp only [find?, List.find?_cons, apart]

theorem find?_cons_of_eq (compares : Compares lt view) {e : κ × β} (rest : List (κ × β))
    (same : view e.1 = view l) : find? lt (e :: rest) l = some e.2 := by
  simp only [find?, List.find?_cons, compares.equiv_iff.mpr same, Option.map_some]

/-- A lookup after an assignment. -/
theorem find?_set (compares : Compares lt view) :
    find? lt (set lt m k v) l = if view l = view k then some v else find? lt m l := by
  have skip : ∀ (e : κ × β) rest, view e.1 ≠ view l → find? lt (e :: rest) l = find? lt rest l :=
    fun e rest differs => find?_cons_of_ne compares rest differs
  have here : ∀ (e : κ × β) rest, view e.1 = view l → find? lt (e :: rest) l = some e.2 :=
    fun e rest same => find?_cons_of_eq compares rest same
  induction m with
  | nil =>
      unfold set
      split
      case isTrue same => exact here _ _ same.symm
      case isFalse differs => exact skip _ _ (Ne.symm differs)
  | cons e rest ih =>
      unfold set
      split
      case isTrue less =>
        have apart := ((compares _ _).mp less).ne
        by_cases found : view e.1 = view l
        · rw [here _ _ found, if_neg (fun same => apart (found.trans same)), here _ _ found]
        · rw [skip _ _ found, ih, skip _ _ found]
      case isFalse above =>
        split
        case isTrue less =>
          by_cases same : view l = view k
          · rw [here _ _ same.symm, if_pos same]
          · rw [skip _ _ (Ne.symm same), if_neg same]
        case isFalse below =>
          have equal : view e.1 = view k :=
            le_antisymm (not_lt.mp fun less => below ((compares _ _).mpr less))
              (not_lt.mp fun less => above ((compares _ _).mpr less))
          by_cases same : view l = view k
          · rw [if_pos same]
            exact here (e.1, v) rest (equal.trans same.symm)
          · have differs : view e.1 ≠ view l := fun found => same (found.symm.trans equal)
            rw [skip (e.1, v) _ differs, if_neg same, skip _ _ differs]

theorem erase_sorted (sorted : Sorted lt m) : Sorted lt (erase lt m k) :=
  sorted.sublist List.filter_sublist

/-- A lookup after an erasure. -/
theorem find?_erase (compares : Compares lt view) :
    find? lt (erase lt m k) l = if view l = view k then none else find? lt m l := by
  induction m with
  | nil =>
      have nothing : find? lt ([] : List (κ × β)) l = none := rfl
      rw [erase, List.filter_nil, nothing, ite_self]
  | cons e rest ih =>
      unfold erase at ih ⊢
      cases erased : equiv lt e.1 k with
      | true =>
          have same := compares.equiv_iff.mp erased
          rw [List.filter_cons_of_neg (by simp [erased]), ih]
          by_cases asked : view l = view k
          · rw [if_pos asked, if_pos asked]
          · have differs : view e.1 ≠ view l := by
              rw [same]
              exact Ne.symm asked
            rw [if_neg asked, if_neg asked, find?_cons_of_ne compares rest differs]
      | false =>
          have kept : view e.1 ≠ view k := by
            intro same
            rw [compares.equiv_iff.mpr same] at erased
            cases erased
          rw [List.filter_cons_of_pos (by simp [erased])]
          by_cases found : view e.1 = view l
          · rw [find?_cons_of_eq compares _ found, find?_cons_of_eq compares _ found, if_neg]
            exact fun same => kept (found.trans same)
          · rw [find?_cons_of_ne compares _ found, find?_cons_of_ne compares _ found, ih]

theorem find?_foldl_set (compares : Compares lt view) {l : List (κ × β)}
    (others : ∀ h ∈ l, view k ≠ view h.1) :
    find? lt (l.foldl (fun m h => set lt m h.1 h.2) m) k = find? lt m k := by
  induction l generalizing m with
  | nil => rfl
  | cons h l ih =>
      rw [List.foldl_cons, ih fun g later => others g (List.mem_cons_of_mem _ later),
        find?_set compares, if_neg (others h List.mem_cons_self)]

end OrderedMap
