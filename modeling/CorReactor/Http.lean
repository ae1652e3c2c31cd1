import CorReactor.OrderedMap
import Mathlib.Data.List.Lex
import Mathlib.Data.UInt

set_option autoImplicit false

/-! `HttpMethod`, `HttpRequest` and its `dump`. -/

namespace CorReactor.Http

abbrev Bytes := List UInt8

def bytes (s : String) : Bytes := s.toList.map fun c => c.toNat.toUInt8

inductive HttpMethod
  | DELETE | GET | HEAD | POST | PUT
  | CONNECT | OPTIONS | TRACE
  | COPY | LOCK | MKCOL | MOVE | PROPFIND | PROPPATCH | SEARCH | UNLOCK | BIND | REBIND | UNBIND
  | ACL
  | REPORT | MKACTIVITY | CHECKOUT | MERGE
  | MSEARCH | NOTIFY | SUBSCRIBE | UNSUBSCRIBE
  | PATCH | PURGE
  | MKCALENDAR
  | LINK | UNLINK
  | SOURCE
  | INVALID_METHOD
  deriving DecidableEq

/-- `HTTP_METHOD_MAP`: the methods and their strings, as the preprocessor spells them. -/
def HTTP_METHOD_MAP : List (HttpMethod × Bytes) :=
  [(.DELETE, bytes "DELETE"), (.GET, bytes "GET"), (.HEAD, bytes "HEAD"), (.POST, bytes "POST"),
    (.PUT, bytes "PUT"), (.CONNECT, bytes "CONNECT"), (.OPTIONS, bytes "OPTIONS"),
    (.TRACE, bytes "TRACE"), (.COPY, bytes "COPY"), (.LOCK, bytes "LOCK"),
    (.MKCOL, bytes "MKCOL"), (.MOVE, bytes "MOVE"), (.PROPFIND, bytes "PROPFIND"),
    (.PROPPATCH, bytes "PROPPATCH"), (.SEARCH, bytes "SEARCH"), (.UNLOCK, bytes "UNLOCK"),
    (.BIND, bytes "BIND"), (.REBIND, bytes "REBIND"), (.UNBIND, bytes "UNBIND"),
    (.ACL, bytes "ACL"), (.REPORT, bytes "REPORT"), (.MKACTIVITY, bytes "MKACTIVITY"),
    (.CHECKOUT, bytes "CHECKOUT"), (.MERGE, bytes "MERGE"), (.MSEARCH, bytes "M - SEARCH"),
    (.NOTIFY, bytes "NOTIFY"), (.SUBSCRIBE, bytes "SUBSCRIBE"),
    (.UNSUBSCRIBE, bytes "UNSUBSCRIBE"), (.PATCH, bytes "PATCH"), (.PURGE, bytes "PURGE"),
    (.MKCALENDAR, bytes "MKCALENDAR"), (.LINK, bytes "LINK"), (.UNLINK, bytes "UNLINK"),
    (.SOURCE, bytes "SOURCE")]

def httpMethodToString (m : HttpMethod) : Bytes :=
  match HTTP_METHOD_MAP.find? fun x => x.1 = m with
  | some x => x.2
  | none => bytes "<unknown>"

/-! ### Headers -/

/-- `tolower` of a byte in the C locale. -/
def lower (c : UInt8) : Nat := if 65 ≤ c.toNat ∧ c.toNat ≤ 90 then c.toNat + 32 else c.toNat

/-- `strcasecmp` of the strings with the null byte behind them. -/
def strcasecmp : Bytes → Bytes → Int
  | [], [] => 0
  | [], d :: _ => -(lower d : Int)
  | c :: _, [] => lower c
  | c :: s, d :: t =>
      if lower c ≠ lower d then (lower c : Int) - lower d
      else if c = 0 then 0
      else strcasecmp s t

def caseInsensitiveLess (lhs rhs : Bytes) : Bool := strcasecmp lhs rhs < 0

/-- What `strcasecmp` looks at. -/
def folded (s : Bytes) : List Nat := (s.takeWhile (· ≠ 0)).map lower

theorem lower_eq_zero {c : UInt8} : lower c = 0 ↔ c = 0 := by
  unfold lower
  rw [← UInt8.toNat_inj]
  change _ ↔ c.toNat = 0
  split <;> omega

theorem folded_cons {c : UInt8} {s : Bytes} (some_byte : c ≠ 0) :
    folded (c :: s) = lower c :: folded s := by
  simp only [folded, List.takeWhile_cons, ne_eq, some_byte, not_false_eq_true, decide_true,
    ↓reduceIte, List.map_cons]

theorem folded_zero {s : Bytes} : folded (0 :: s) = [] := rfl

theorem strcasecmp_compares (s t : Bytes) :
    (strcasecmp s t < 0 ↔ folded s < folded t) ∧ (strcasecmp s t = 0 ↔ folded s = folded t) := by
  induction s generalizing t with
  | nil =>
      cases t with
      | nil => simp only [strcasecmp, lt_self_iff_false, and_self]
      | cons d t =>
          by_cases zero : d = 0
          · subst zero
            simp [strcasecmp, folded, lower]
          · have positive : lower d ≠ 0 := fun none_left => zero (lower_eq_zero.mp none_left)
            rw [strcasecmp, folded_cons zero]
            simp [folded]
            omega
  | cons c s ih =>
      cases t with
      | nil =>
          by_cases zero : c = 0
          · subst zero
            simp [strcasecmp, folded, lower]
          · have positive : lower c ≠ 0 := fun none_left => zero (lower_eq_zero.mp none_left)
            rw [strcasecmp, folded_cons zero]
            simp [folded]
            omega
      | cons d t =>
          rw [strcasecmp]
          by_cases left : c = 0
          · subst left
            by_cases right : d = 0
            · subst right
              simp [folded, lower]
            · have positive : lower d ≠ 0 := fun none_left => right (lower_eq_zero.mp none_left)
              rw [folded_zero, folded_cons right, lower_eq_zero.mpr rfl, if_pos positive.symm]
              simp
              omega
          · have some_left : lower c ≠ 0 := fun none_left => left (lower_eq_zero.mp none_left)
            by_cases right : d = 0
            · subst right
              rw [folded_zero, folded_cons left, lower_eq_zero.mpr rfl, if_pos some_left]
              simp
              omega
            · rw [folded_cons left, folded_cons right, List.cons_lt_cons_iff, List.cons_eq_cons]
              by_cases same : lower c = lower d
              · rw [if_neg (not_not_intro same), if_neg left, (ih t).1, (ih t).2]
                simp only [same, lt_self_iff_false, true_and, false_or]
              · rw [if_pos same]
                simp only [same, false_and, or_false]
                have casts : (lower c : Int) < lower d ↔ lower c < lower d := Int.ofNat_lt
                constructor
                · rw [← casts]
                  omega
                · refine iff_of_false ?_ id
                  omega

/-- `std::map<std::string, std::string, CaseInsensitiveLess>`. -/
structure MapType where
  entries : List (Bytes × Bytes)
  sorted : OrderedMap.Sorted caseInsensitiveLess entries

theorem caseInsensitiveLess_compares : OrderedMap.Compares caseInsensitiveLess folded := by
  intro s t
  rw [caseInsensitiveLess, decide_eq_true_iff]
  exact (strcasecmp_compares s t).1

namespace MapType

def empty : MapType := ⟨[], List.Pairwise.nil⟩

def set (m : MapType) (key val : Bytes) : MapType :=
  ⟨OrderedMap.set caseInsensitiveLess m.entries key val,
    OrderedMap.set_sorted caseInsensitiveLess_compares m.sorted⟩

def erase (m : MapType) (key : Bytes) : MapType :=
  ⟨OrderedMap.erase caseInsensitiveLess m.entries key, OrderedMap.erase_sorted m.sorted⟩

def find? (m : MapType) (key : Bytes) : Option Bytes :=
  OrderedMap.find? caseInsensitiveLess m.entries key

end MapType

/-! ### Requests -/

structure HttpRequest where
  m_method : HttpMethod
  m_version : UInt8
  m_close : Bool
  m_websocket : Bool
  m_path : Bytes
  m_query : Bytes
  m_fragment : Bytes
  m_body : Bytes
  m_headers : MapType
  m_params : MapType
  m_cookies : MapType

namespace HttpRequest

/-- `HttpRequest(0x11, true)`. -/
def new : HttpRequest := ⟨.GET, 0x11, true, false, bytes "/", [], [], [], .empty, .empty, .empty⟩

def setHeader (r : HttpRequest) (key val : Bytes) : HttpRequest :=
  { r with m_headers := r.m_headers.set key val }

/-- `os << n`. -/
def decimal (n : Nat) : Bytes := (Nat.toDigits 10 n).map fun c => c.toNat.toUInt8

/-- The line of a header. -/
def headerLine (key val : Bytes) : Bytes := key ++ bytes ":" ++ val ++ bytes "\r\n"

/-- The headers that `dump` writes one by one. -/
def dumped (r : HttpRequest) : List (Bytes × Bytes) :=
  r.m_headers.entries.filter fun i => !(!r.m_websocket && strcasecmp i.1 (bytes "connection") == 0)

def dump (r : HttpRequest) : Bytes :=
  httpMethodToString r.m_method ++ bytes " " ++ r.m_path ++
    (if r.m_query = [] then [] else bytes "?") ++ r.m_query ++
    (if r.m_fragment = [] then [] else bytes "#") ++ r.m_fragment ++
    bytes " HTTP/" ++ decimal (r.m_version >>> 4).toNat ++ bytes "." ++
    decimal (r.m_version &&& 0x0F).toNat ++ bytes "\r\n" ++
    (if r.m_websocket then []
      else bytes "connection: " ++ bytes (if r.m_close then "close" else "keep-alive") ++
        bytes "\r\n") ++
    r.dumped.flatMap (fun i => headerLine i.1 i.2) ++
    (if r.m_body = [] then bytes "\r\n"
      else bytes "content-length: " ++ decimal r.m_body.length ++ bytes "\r\n\r\n" ++ r.m_body)

end HttpRequest

end CorReactor.Http
