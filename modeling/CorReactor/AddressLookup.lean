import Mathlib.Data.List.TakeWhile
import CorReactor.Http
import CorReactor.Socket

set_option autoImplicit false

/-! `Address::Lookup`, and how it takes the host apart. The brackets are 91 and 93, and the colon
is 58. -/

namespace CorReactor.Address

open Http (Bytes)

/-- `memchr(s + first, c, count)` in a string, as an offset. -/
def memchr (s : Bytes) (first : Nat) (c : UInt8) (count : Nat) : Option Nat :=
  (((s.drop first).take count).findIdx? (· == c)).map (first + ·)

/-- `s.substr(pos, n)`. -/
def substr (s : Bytes) (pos n : Nat) : Bytes := (s.drop pos).take n

/-- What a function of C reads behind a pointer into `c_str()`. -/
def text (s : Bytes) (pos : Nat) : Bytes := (s.drop pos).takeWhile (· ≠ 0)

structure Hints where
  ai_family : Int
  ai_socktype : Int
  ai_protocol : Int
  deriving DecidableEq

/-- The arguments of `getaddrinfo`. -/
structure Query where
  node : Bytes
  service : Option Bytes
  hints : Hints
  deriving DecidableEq

/-- The branch for `[node]:service`, with the service as an offset. -/
def bracketed (host : Bytes) : Bytes × Option Nat :=
  if host.head? = some 91 then
    match memchr host 1 93 (host.length - 1) with
    | some endipv6 =>
        (substr host 1 (endipv6 - 1),
          if (host ++ [0])[endipv6 + 1]? = some 58 then some (endipv6 + 2) else none)
    | none => ([], none)
  else ([], none)

/-- The branch for `node:service`. The service stays behind where there is a second colon. -/
def separated (host : Bytes) (node : Bytes) : Bytes × Option Nat :=
  match memchr host 0 58 host.length with
  | some service =>
      if memchr host (service + 1) 58 (host.length - service - 1) = none then
        (substr host 0 service, some (service + 1))
      else (node, some service)
  | none => (node, none)

def query (host : Bytes) (hints : Hints) : Query :=
  let found := bracketed host
  let found := if found.1.isEmpty then separated host found.1 else found
  let node := if found.1.isEmpty then host else found.1
  ⟨text node 0, found.2.map (text host), hints⟩

/-- `Lookup` over a `getaddrinfo` that may fail: whether it succeeds, and `result` afterwards, with
the names that `Create` makes addresses of. -/
def Lookup (getaddrinfo : Query → Option (List Sockaddr)) (result : List Sockaddr) (host : Bytes)
    (family type protocol : Int) : Bool × List Sockaddr :=
  match getaddrinfo (query host ⟨family, type, protocol⟩) with
  | none => (false, result)
  | some results => (true, result ++ results)

/-- The host is split as its form says. -/
structure Splits (host : Bytes) (asked : Query) : Prop where
  address : ∀ n, n ≠ [] → 93 ∉ n → host = 91 :: n ++ [93] →
    asked.node = n ∧ asked.service = none
  addressService : ∀ n s, n ≠ [] → 93 ∉ n → host = 91 :: n ++ 93 :: 58 :: s →
    asked.node = n ∧ asked.service = some s
  nodeService : ∀ n s, n ≠ [] → s ≠ [] → host.head? ≠ some 91 → 58 ∉ n → 58 ∉ s →
    host = n ++ 58 :: s → asked.node = n ∧ asked.service = some s
  whole : host ≠ [] → host.head? ≠ some 91 → host.count 58 ≠ 1 →
    asked.node = host ∧ asked.service = none

/-! ### Searches -/

variable {front rest : Bytes} {c : UInt8} {count : Nat}

theorem memchr_found (before : Bytes) (absent : c ∉ front) (within : front.length < count) :
    memchr (before ++ (front ++ c :: rest)) before.length c count =
      some (before.length + front.length) := by
  have cut : (front ++ c :: rest).take count =
      front ++ c :: rest.take (count - front.length - 1) := by
    rw [List.take_append, List.take_of_length_le (Nat.le_of_lt within)]
    obtain ⟨more, rfl⟩ : ∃ more, count = front.length + (more + 1) :=
      ⟨count - front.length - 1, by omega⟩
    rw [Nat.add_sub_cancel_left, List.take_succ_cons, Nat.add_sub_cancel]
  have nowhere : front.findIdx? (· == c) = none := by
    rw [List.findIdx?_eq_none_iff]
    intro d inside
    exact beq_eq_false_iff_ne.mpr fun same => absent (same ▸ inside)
  unfold memchr
  rw [List.drop_left, cut, List.findIdx?_append, nowhere, List.findIdx?_cons]
  simp

theorem memchr_none {s : Bytes} {first : Nat} (absent : c ∉ s.drop first) :
    memchr s first c count = none := by
  unfold memchr
  rw [Option.map_eq_none_iff, List.findIdx?_eq_none_iff]
  intro d inside
  exact beq_eq_false_iff_ne.mpr fun same => absent (same ▸ List.mem_of_mem_take inside)

theorem text_append (before behind : Bytes) (plain : 0 ∉ before ++ behind) :
    text (before ++ behind) before.length = behind := by
  unfold text
  rw [List.drop_left, List.takeWhile_eq_self_iff]
  intro d inside
  exact decide_eq_true fun zero => plain (zero ▸ List.mem_append_right before inside)

theorem text_zero {s : Bytes} (plain : 0 ∉ s) : text s 0 = s := text_append [] s plain

/-! ### The two branches -/

variable {n s node : Bytes}

theorem bracketed_of_bracket (closed : 93 ∉ n) :
    bracketed (91 :: n ++ 93 :: rest) =
      (n, if rest.head? = some 58 then some (n.length + 3) else none) := by
  have found : memchr (91 :: n ++ 93 :: rest) 1 93 ((91 :: n ++ 93 :: rest).length - 1) =
      some (1 + n.length) := by
    refine memchr_found [91] closed ?_
    simp only [List.cons_append, List.length_cons, List.length_append]
    omega
  have inside : substr (91 :: n ++ 93 :: rest) 1 (1 + n.length - 1) = n := by
    unfold substr
    rw [Nat.add_sub_cancel_left, List.cons_append, List.drop_succ_cons, List.drop_zero,
      List.take_left]
  have behind : (91 :: n ++ 93 :: rest ++ [0])[1 + n.length + 1]? = some 58 ↔
      rest.head? = some 58 := by
    have front : 1 + n.length + 1 = (91 :: n ++ [93]).length := by
      simp only [List.cons_append, List.length_cons, List.length_append, List.length_nil]
      omega
    have split : 91 :: n ++ 93 :: rest ++ [0] = (91 :: n ++ [93]) ++ (rest ++ [0]) := by
      simp only [List.append_assoc, List.cons_append, List.nil_append]
    rw [split, front, List.getElem?_append_right (Nat.le_refl _), Nat.sub_self]
    cases rest with
    | nil => decide
    | cons c rest => exact Iff.rfl
  unfold bracketed
  rw [if_pos (by rfl), found]
  simp only [inside, behind]
  rw [show 1 + n.length + 2 = n.length + 3 by omega]

theorem bracketed_of_plain {host : Bytes} (plain : host.head? ≠ some 91) :
    bracketed host = ([], none) := by
  unfold bracketed
  rw [if_neg plain]

theorem separated_of_none {host : Bytes} (absent : 58 ∉ host) :
    separated host node = (node, none) := by
  have nowhere : memchr host 0 58 host.length = none := memchr_none absent
  unfold separated
  rw [nowhere]

theorem separated_of_colon (first : 58 ∉ n) :
    separated (n ++ 58 :: s) node =
      if 58 ∈ s then (node, some n.length) else (n, some (n.length + 1)) := by
  have found : memchr (n ++ 58 :: s) 0 58 (n ++ 58 :: s).length = some n.length := by
    have within : n.length < (n ++ 58 :: s).length := by
      rw [List.length_append, List.length_cons]
      omega
    have searched :
        memchr ([] ++ (n ++ 58 :: s)) ([] : Bytes).length 58 (n ++ 58 :: s).length = _ :=
      memchr_found [] first within
    rw [List.nil_append, List.length_nil, Nat.zero_add] at searched
    exact searched
  have count : (n ++ 58 :: s).length - n.length - 1 = s.length := by
    rw [List.length_append, List.length_cons]
    omega
  have split : n ++ 58 :: s = (n ++ [58]) ++ s := by
    rw [List.append_assoc, List.singleton_append]
  have length : n.length + 1 = (n ++ [58]).length := by
    rw [List.length_append, List.length_singleton]
  unfold separated
  rw [found]
  dsimp only
  rw [count]
  by_cases again : 58 ∈ s
  · obtain ⟨front, rest, rfl, absent⟩ := List.eq_append_cons_of_mem again
    have second : memchr (n ++ 58 :: (front ++ 58 :: rest)) (n.length + 1) 58
        (front ++ 58 :: rest).length ≠ none := by
      rw [split, length, memchr_found _ absent (by simp)]
      exact Option.some_ne_none _
    rw [if_neg second, if_pos again]
  · have last : memchr (n ++ 58 :: s) (n.length + 1) 58 s.length = none := by
      refine memchr_none ?_
      rw [split, length, List.drop_left]
      exact again
    rw [if_pos last, if_neg again]
    unfold substr
    rw [List.drop_zero, List.take_left]

/-! ### The query -/

variable {host : Bytes} {hints : Hints}

theorem query_of_bracket (some_node : n ≠ []) (closed : 93 ∉ n)
    (plain : 0 ∉ 91 :: n ++ 93 :: rest) :
    query (91 :: n ++ 93 :: rest) hints =
      ⟨n, if rest.head? = some 58 then some rest.tail else none, hints⟩ := by
  have node : text n 0 = n := by
    refine text_zero fun zero => plain ?_
    exact List.mem_append_left _ (List.mem_cons_of_mem 91 zero)
  unfold query
  rw [bracketed_of_bracket closed]
  simp only [List.isEmpty_iff, some_node, ↓reduceIte, node, Query.mk.injEq, true_and, and_true]
  cases rest with
  | nil => rfl
  | cons c rest =>
      by_cases colon : c = 58
      · subst colon
        have split : 91 :: n ++ 93 :: 58 :: rest = (91 :: n ++ [93, 58]) ++ rest := by
          rw [List.append_assoc]
          rfl
        have length : n.length + 3 = (91 :: n ++ [93, 58]).length := by
          rw [List.length_append, List.length_cons]
          rfl
        have service : text (91 :: n ++ 93 :: 58 :: rest) (n.length + 3) = rest := by
          rw [split] at plain ⊢
          rw [length, text_append _ _ plain]
        simp only [List.head?_cons, ↓reduceIte, Option.map_some, List.tail_cons, service]
      · simp only [List.head?_cons, Option.some.injEq, colon, ↓reduceIte, Option.map_none]

theorem query_of_none (outside : host.head? ≠ some 91) (absent : 58 ∉ host) (plain : 0 ∉ host) :
    query host hints = ⟨host, none, hints⟩ := by
  unfold query
  rw [bracketed_of_plain outside]
  simp only [List.isEmpty_nil, ↓reduceIte, separated_of_none absent, Option.map_none,
    text_zero plain]

theorem query_of_colon (outside : (n ++ 58 :: s).head? ≠ some 91) (some_node : n ≠ [])
    (first : 58 ∉ n) (last : 58 ∉ s) (plain : 0 ∉ n ++ 58 :: s) :
    query (n ++ 58 :: s) hints = ⟨n, some s, hints⟩ := by
  have node : text n 0 = n := text_zero fun zero => plain (List.mem_append_left _ zero)
  have service : text (n ++ 58 :: s) (n.length + 1) = s := by
    have split : n ++ 58 :: s = (n ++ [58]) ++ s := by
      rw [List.append_assoc, List.singleton_append]
    have length : n.length + 1 = (n ++ [58]).length := by
      rw [List.length_append, List.length_singleton]
    rw [split] at plain ⊢
    rw [length, text_append _ _ plain]
  unfold query
  rw [bracketed_of_plain outside]
  simp only [List.isEmpty_nil, ↓reduceIte, separated_of_colon first, last, List.isEmpty_iff,
    some_node, node, service, Option.map_some]

/-- With a second colon the service is what the first one begins. -/
theorem query_of_colons (outside : (n ++ 58 :: s).head? ≠ some 91) (first : 58 ∉ n)
    (again : 58 ∈ s) (plain : 0 ∉ n ++ 58 :: s) :
    query (n ++ 58 :: s) hints = ⟨n ++ 58 :: s, some (58 :: s), hints⟩ := by
  unfold query
  rw [bracketed_of_plain outside]
  simp only [List.isEmpty_nil, ↓reduceIte, separated_of_colon first, again, Option.map_some,
    text_zero plain, text_append n _ plain]

/-- The host is split as its form says, unless it has two colons and no bracket. -/
theorem splits_iff (hints : Hints) (plain : 0 ∉ host) :
    Splits host (query host hints) ↔ host.head? = some 91 ∨ host.count 58 < 2 := by
  constructor
  · intro splits
    by_contra wrong
    obtain ⟨outside, colons⟩ := not_or.mp wrong
    have two : 2 ≤ host.count 58 := Nat.le_of_not_lt colons
    obtain ⟨n, s, rfl, first⟩ :=
      List.eq_append_cons_of_mem (List.count_pos_iff.mp (by omega : 0 < host.count 58))
    have again : 58 ∈ s := by
      rw [List.count_append, List.count_eq_zero.mpr first, List.count_cons_self] at two
      exact List.count_pos_iff.mp (by omega)
    have none_asked := (splits.whole (by simp) outside (by omega)).2
    rw [query_of_colons outside first again plain] at none_asked
    cases none_asked
  · intro form
    refine ⟨?_, ?_, ?_, ?_⟩
    · rintro n some_node closed rfl
      rw [query_of_bracket some_node closed plain]
      exact ⟨rfl, rfl⟩
    · rintro n s some_node closed rfl
      rw [query_of_bracket some_node closed plain]
      exact ⟨rfl, rfl⟩
    · rintro n s some_node - outside first last rfl
      rw [query_of_colon outside some_node first last plain]
      exact ⟨rfl, rfl⟩
    · intro _ outside count
      have few := form.resolve_left outside
      have absent : 58 ∉ host := List.count_eq_zero.mp (by omega)
      rw [query_of_none outside absent plain]
      exact ⟨rfl, rfl⟩

/-- The address of the test program. -/
theorem splits_port :
    Splits (Http.bytes "0.0.0.0:8033") (query (Http.bytes "0.0.0.0:8033") ⟨2, 0, 0⟩) :=
  (splits_iff ⟨2, 0, 0⟩ (by decide)).mpr (Or.inr (by decide))

/-- An IPv6 literal comes with a service that is no service. -/
theorem splits_literal :
    query (Http.bytes "::1") ⟨10, 0, 0⟩ =
        ⟨Http.bytes "::1", some (Http.bytes "::1"), ⟨10, 0, 0⟩⟩ ∧
      query (Http.bytes "fe80::1") ⟨10, 0, 0⟩ =
        ⟨Http.bytes "fe80::1", some (Http.bytes "::1"), ⟨10, 0, 0⟩⟩ ∧
      ¬ Splits (Http.bytes "fe80::1") (query (Http.bytes "fe80::1") ⟨10, 0, 0⟩) := by
  have asked : query (Http.bytes "fe80::1") ⟨10, 0, 0⟩ =
      ⟨Http.bytes "fe80::1", some (Http.bytes "::1"), ⟨10, 0, 0⟩⟩ := by decide
  refine ⟨by decide, asked, ?_⟩
  intro splits
  have none_asked := (splits.whole (by decide) (by decide) (by decide)).2
  rw [asked] at none_asked
  cases none_asked

end CorReactor.Address
