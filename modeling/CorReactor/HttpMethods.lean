import CorReactor.HttpTraces

set_option autoImplicit false

/-! Which tokens `on_request_method` takes for a method. -/

namespace CorReactor.Http

open HttpRequestParser

/-- What `c_str()` shows of a string. -/
def cString (s : Bytes) : Bytes := s.takeWhile (· ≠ 0)

def stringToHttpMethod (m : Bytes) : HttpMethod :=
  match HTTP_METHOD_MAP.find? fun x => cString x.2 == cString m with
  | some x => x.1
  | none => .INVALID_METHOD

/-- The token is the name of a method. -/
def Registered (token : Bytes) : Prop := token ∈ HTTP_METHOD_MAP.map Prod.snd

instance (token : Bytes) : Decidable (Registered token) := by
  unfold Registered
  infer_instance

/-! ### The table -/

theorem methods_begin : ∀ x ∈ HTTP_METHOD_MAP, ∀ y ∈ HTTP_METHOD_MAP, x.2 <+: y.2 → x = y := by
  decide

theorem methods_text : ∀ x ∈ HTTP_METHOD_MAP, x.2 ≠ [] ∧ ∀ c ∈ x.2, c ≠ 0 := by
  decide +kernel

theorem methods_read : ∀ x ∈ HTTP_METHOD_MAP, stringToHttpMethod x.2 = x.1 := by
  decide

theorem methods_valid : ∀ x ∈ HTTP_METHOD_MAP, x.1 ≠ .INVALID_METHOD := by
  decide

/-! ### Names in memory -/

variable {m : Memory} {p : Nat}

theorem strncmpEq_iff {x y : Nat → UInt8} {i n : Nat} (text : ∀ j < n, x (i + j) ≠ 0) :
    strncmpEq x y i n = true ↔ ∀ j < n, x (i + j) = y (i + j) := by
  induction n generalizing i with
  | zero => simp only [strncmpEq, Nat.not_lt_zero, false_implies, implies_true]
  | succ n ih =>
      have first := text 0 (Nat.succ_pos n)
      have later : ∀ j < n, x (i + 1 + j) ≠ 0 := by
        intro j less
        have at_j := text (1 + j) (by omega)
        rwa [← Nat.add_assoc] at at_j
      rw [Nat.add_zero] at first
      have unequal : (x i == 0) = false := beq_eq_false_iff_ne.mpr first
      rw [strncmpEq, unequal, Bool.false_or, Bool.and_eq_true, beq_iff_eq, ih later]
      constructor
      · intro both j less
        cases j with
        | zero => exact both.1
        | succ j =>
            have same := both.2 j (Nat.lt_of_succ_lt_succ less)
            rwa [Nat.add_assoc, Nat.add_comm 1 j] at same
      · intro all
        refine ⟨all 0 (Nat.succ_pos n), ?_⟩
        intro j less
        have same := all (j + 1) (Nat.succ_lt_succ less)
        rwa [Nat.add_comm j 1, ← Nat.add_assoc] at same

/-- A comparison with a name looks whether it stands there. -/
theorem strncmpEq_name {x : HttpMethod × Bytes} (listed : x ∈ HTTP_METHOD_MAP) :
    strncmpEq (literal x.2) (fun i => m.byte (p + i)) 0 x.2.length = true ↔ m.Holds p x.2 := by
  have text : ∀ j < x.2.length, literal x.2 (0 + j) ≠ 0 := by
    intro j less
    rw [Nat.zero_add, literal, List.getElem?_eq_getElem less, Option.getD_some]
    exact (methods_text x listed).2 _ (List.getElem_mem less)
  rw [strncmpEq_iff text, Memory.holds_iff]
  simp only [Nat.zero_add]
  exact forall₂_congr fun _ _ => eq_comm

/-- Of two words at one offset one is the beginning of the other. -/
theorem Memory.Holds.begins {u v : Bytes} (first : m.Holds p u) (second : m.Holds p v)
    (le : u.length ≤ v.length) : u <+: v := by
  rw [← first, ← second, List.prefix_iff_eq_take]
  simp only [Memory.read, List.length_map, List.length_range, ← List.map_take,
    List.take_range, Nat.min_eq_left le]

/-- At most one name stands at an offset. -/
theorem name_unique {x y : HttpMethod × Bytes} (listed : x ∈ HTTP_METHOD_MAP)
    (listed' : y ∈ HTTP_METHOD_MAP) (there : m.Holds p x.2) (there' : m.Holds p y.2) : x = y := by
  rcases Nat.le_total x.2.length y.2.length with le | le
  · exact methods_begin x listed y listed' (there.begins there' le)
  · exact (methods_begin y listed' x listed (there'.begins there le)).symm

theorem charsToHttpMethod_of_holds {x : HttpMethod × Bytes} (listed : x ∈ HTTP_METHOD_MAP)
    (there : m.Holds p x.2) : charsToHttpMethod m p = x.1 := by
  unfold charsToHttpMethod
  cases found : HTTP_METHOD_MAP.find? fun x =>
      strncmpEq (literal x.2) (fun i => m.byte (p + i)) 0 x.2.length with
  | none =>
      have unequal := List.find?_eq_none.mp found x listed
      exact absurd ((strncmpEq_name listed).mpr there) unequal
  | some y =>
      have listed' := List.mem_of_find?_eq_some found
      have equal := List.find?_some found
      have there' := (strncmpEq_name listed').mp equal
      rw [name_unique listed listed' there there']

theorem charsToHttpMethod_of_none (absent : ∀ x ∈ HTTP_METHOD_MAP, ¬ m.Holds p x.2) :
    charsToHttpMethod m p = .INVALID_METHOD := by
  unfold charsToHttpMethod
  have found : (HTTP_METHOD_MAP.find? fun x =>
      strncmpEq (literal x.2) (fun i => m.byte (p + i)) 0 x.2.length) = none := by
    refine List.find?_eq_none.mpr fun x listed equal => ?_
    exact absent x listed ((strncmpEq_name listed).mp equal)
  rw [found]

/-! ### Tokens -/

/-- What the grammar takes for a method. -/
structure IsMethod (token : Bytes) : Prop where
  length : 1 ≤ token.length ∧ token.length ≤ 20
  chars : ∀ c ∈ token, (Http11.upper c || Http11.digit c) = true

/-- What the callback makes of the token of `n` bytes at offset `p`, in any parser. -/
def Recognises (m : Memory) (p n : Nat) : Prop :=
  ∀ {State : Type} (parser : HttpRequestParser State), parser.onRequestMethod m p n =
    some (if Registered (m.read p n) then
      { parser with
        m_data := { parser.m_data with m_method := stringToHttpMethod (m.read p n) } }
    else { parser with m_error := 1000 })

/-- A name in front of other bytes of the token, or made up of bytes behind it too, is taken for
the method. -/
theorem not_recognises {n : Nat} (unregistered : ¬ Registered (m.read p n))
    {x : HttpMethod × Bytes} (listed : x ∈ HTTP_METHOD_MAP) (there : m.Holds p x.2) :
    ¬ Recognises m p n := by
  intro recognises
  have set := recognises (⟨⟨none, 0, 0, 0, 0, 0, 0, 0, false, false⟩, .new, 0⟩ :
    HttpRequestParser Unit)
  have method := charsToHttpMethod_of_holds listed there
  rw [if_neg unregistered, onRequestMethod, method] at set
  split at set
  · exact absurd (by assumption) (methods_valid x listed)
  · have code := congrArg (Option.map fun parser => parser.m_error) set
    simp at code

/-- A token is recognised exactly where it is registered, or no registered name begins it or is
begun by it together with the bytes behind. -/
theorem onRequestMethod_exact_iff {n : Nat} (token : IsMethod (m.read p n)) :
    Recognises m p n ↔
      Registered (m.read p n) ∨ ∀ x ∈ HTTP_METHOD_MAP, ¬ m.Holds p x.2 := by
  have length : (m.read p n).length = n := by
    rw [Memory.read, List.length_map, List.length_range]
  have short : n < 2 ^ 63 := by
    have most := token.length.2
    omega
  constructor
  · intro recognises
    by_cases registered : Registered (m.read p n)
    · exact Or.inl registered
    · exact Or.inr fun x listed there => not_recognises registered listed there recognises
  · intro either State parser
    unfold onRequestMethod
    by_cases registered : Registered (m.read p n)
    · obtain ⟨x, listed, same⟩ := List.mem_map.mp registered
      have there : m.Holds p x.2 := by
        rw [Memory.Holds, same, length]
      have method := charsToHttpMethod_of_holds listed there
      rw [if_pos registered, method, ← same, methods_read x listed]
      split
      · exact absurd (by assumption) (methods_valid x listed)
      · rfl
    · have absent := either.resolve_left registered
      rw [if_neg registered, charsToHttpMethod_of_none absent, string_of_lt short]
      rfl

/-- `GET` in front of a blank, and a token that no name begins. -/
theorem recognises_get :
    Recognises ⟨bytes "GET / HTTP/1.1", fun _ => 0⟩ 0 3 ∧
      Recognises ⟨bytes "OPTION / HTTP/1.1", fun _ => 0⟩ 0 6 :=
  ⟨(onRequestMethod_exact_iff ⟨by decide, by decide +kernel⟩).mpr (Or.inl (by decide +kernel)),
    (onRequestMethod_exact_iff ⟨by decide, by decide +kernel⟩).mpr (Or.inr (by
      unfold Memory.Holds
      decide))⟩

/-- `GETX` is taken for `GET`. -/
theorem not_recognises_getx :
    IsMethod ((⟨bytes "GETX / HTTP/1.1", fun _ => 0⟩ : Memory).read 0 4) ∧
      charsToHttpMethod ⟨bytes "GETX / HTTP/1.1", fun _ => 0⟩ 0 = .GET ∧
      stringToHttpMethod (bytes "GETX") = .INVALID_METHOD ∧
      ¬ Recognises ⟨bytes "GETX / HTTP/1.1", fun _ => 0⟩ 0 4 := by
  refine ⟨⟨by decide, by decide +kernel⟩, by decide +kernel, by decide +kernel, ?_⟩
  have listed : (HttpMethod.GET, bytes "GET") ∈ HTTP_METHOD_MAP := by decide
  refine not_recognises (by decide) listed ?_
  unfold Memory.Holds
  decide

end CorReactor.Http
