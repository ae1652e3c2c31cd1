import CorReactor.Http

set_option autoImplicit false

/-! The three maps of `HttpRequest` and their accessors. -/

namespace CorReactor.Http

/-! ### One map -/

namespace MapType

/-- `it == m.end() ? def : it->second`. -/
def get (m : MapType) (key default_ : Bytes) : Bytes := (m.find? key).getD default_

/-- Whether the key is there, and `*val` afterwards; `none` is a null pointer. -/
def has (m : MapType) (key : Bytes) (val : Option Bytes) : Bool × Option Bytes :=
  match m.find? key with
  | none => (false, val)
  | some found => (true, val.map fun _ => found)

section Conversion

variable {T : Type} (lexical_cast : Bytes → Option T)

/-- The result and `val`; `none` is an exception of the conversion. -/
def checkGetAs (m : MapType) (key : Bytes) (default_ : T) : Bool × T :=
  match m.find? key with
  | none => (false, default_)
  | some found =>
      match lexical_cast found with
      | some v => (true, v)
      | none => (false, default_)

def getAs (m : MapType) (key : Bytes) (default_ : T) : T :=
  match m.find? key with
  | none => default_
  | some found =>
      match lexical_cast found with
      | some v => v
      | none => default_

/-- The conversion of the value, where there is one and it converts. -/
def converted (m : MapType) (key : Bytes) : Option T := (m.find? key).bind lexical_cast

variable {lexical_cast} {m : MapType} {key : Bytes}

theorem checkGetAs_eq (default_ : T) : m.checkGetAs lexical_cast key default_ =
    ((m.converted lexical_cast key).isSome, (m.converted lexical_cast key).getD default_) := by
  unfold checkGetAs converted
  cases m.find? key with
  | none => rfl
  | some found =>
      rw [Option.bind_some]
      cases converts : lexical_cast found <;> simp only [converts] <;> rfl

theorem getAs_eq (default_ : T) :
    m.getAs lexical_cast key default_ = (m.converted lexical_cast key).getD default_ := by
  unfold getAs converted
  cases m.find? key with
  | none => rfl
  | some found =>
      rw [Option.bind_some]
      cases converts : lexical_cast found <;> simp only [converts] <;> rfl

end Conversion

theorem find?_set (m : MapType) (key val asked : Bytes) :
    (m.set key val).find? asked =
      if folded asked = folded key then some val else m.find? asked := by
  have written := OrderedMap.find?_set caseInsensitiveLess_compares (m := m.entries) (k := key)
    (l := asked) (v := val)
  by_cases same : folded asked = folded key
  · rw [if_pos same] at written ⊢
    exact written
  · rw [if_neg same] at written ⊢
    exact written

theorem find?_erase (m : MapType) (key asked : Bytes) :
    (m.erase key).find? asked =
      if folded asked = folded key then none else m.find? asked := by
  have erased := OrderedMap.find?_erase caseInsensitiveLess_compares (m := m.entries) (k := key)
    (l := asked)
  by_cases same : folded asked = folded key
  · rw [if_pos same] at erased ⊢
    exact erased
  · rw [if_neg same] at erased ⊢
    exact erased

end MapType

/-! ### The accessors -/

namespace HttpRequest

section Maps

variable (r : HttpRequest) (key : Bytes)

def setParam (val : Bytes) : HttpRequest := { r with m_params := r.m_params.set key val }
def setCookie (val : Bytes) : HttpRequest := { r with m_cookies := r.m_cookies.set key val }
def delHeader : HttpRequest := { r with m_headers := r.m_headers.erase key }
def delParam : HttpRequest := { r with m_params := r.m_params.erase key }
def delCookie : HttpRequest := { r with m_cookies := r.m_cookies.erase key }

def getHeader (default_ : Bytes) : Bytes := r.m_headers.get key default_
def getParam (default_ : Bytes) : Bytes := r.m_params.get key default_
def getCookie (default_ : Bytes) : Bytes := r.m_cookies.get key default_

def hasHeader (val : Option Bytes) : Bool × Option Bytes := r.m_headers.has key val
def hasParam (val : Option Bytes) : Bool × Option Bytes := r.m_params.has key val
def hasCookie (val : Option Bytes) : Bool × Option Bytes := r.m_cookies.has key val

variable {T : Type} (lexical_cast : Bytes → Option T) (default_ : T)

def checkGetHeaderAs : Bool × T := r.m_headers.checkGetAs lexical_cast key default_
def getHeaderAs : T := r.m_headers.getAs lexical_cast key default_
-- The templates for parameters and cookies look into `m_headers` too.
def checkGetParamAs : Bool × T := r.m_headers.checkGetAs lexical_cast key default_
def getParamAs : T := r.m_headers.getAs lexical_cast key default_
def checkGetCookieAs : Bool × T := r.m_headers.checkGetAs lexical_cast key default_
def getCookieAs : T := r.m_headers.getAs lexical_cast key default_

end Maps

end HttpRequest

/-- One of the maps. -/
inductive Part
  | Header
  | Param
  | Cookie
  deriving DecidableEq

/-- The accessors of a map. -/
structure Accessors (T : Type) where
  has : Option Bytes → Bool × Option Bytes
  get : Bytes → Bytes
  checkGetAs : T → Bool × T
  getAs : T → T

namespace HttpRequest

section Parts

variable (r : HttpRequest)

def map : Part → MapType
  | .Header => r.m_headers
  | .Param => r.m_params
  | .Cookie => r.m_cookies

variable {T : Type} (lexical_cast : Bytes → Option T) (key : Bytes)

/-- The accessors under a key. -/
def accessors : Part → Accessors T
  | .Header => ⟨r.hasHeader key, r.getHeader key, r.checkGetHeaderAs key lexical_cast,
      r.getHeaderAs key lexical_cast⟩
  | .Param => ⟨r.hasParam key, r.getParam key, r.checkGetParamAs key lexical_cast,
      r.getParamAs key lexical_cast⟩
  | .Cookie => ⟨r.hasCookie key, r.getCookie key, r.checkGetCookieAs key lexical_cast,
      r.getCookieAs key lexical_cast⟩

end Parts

end HttpRequest

/-! ### Histories -/

inductive MapCall
  | set (part : Part) (key val : Bytes)
  | del (part : Part) (key : Bytes)

namespace MapCall

def part : MapCall → Part
  | set part _ _ | del part _ => part

def exec (r : HttpRequest) : MapCall → HttpRequest
  | set .Header key val => r.setHeader key val
  | set .Param key val => r.setParam key val
  | set .Cookie key val => r.setCookie key val
  | del .Header key => r.delHeader key
  | del .Param key => r.delParam key
  | del .Cookie key => r.delCookie key

/-- Three functions from keys up to case to values, whatever stores them. -/
abbrev Store := Part → List Nat → Option Bytes

def update (store : Store) : MapCall → Store
  | set part key val => fun p k => if p = part ∧ k = folded key then some val else store p k
  | del part key => fun p k => if p = part ∧ k = folded key then none else store p k

end MapCall

/-- The request after the calls. -/
def runCalls (calls : List MapCall) : HttpRequest := calls.foldl MapCall.exec .new

/-- What is stored after the calls. -/
def stored (calls : List MapCall) : MapCall.Store :=
  calls.foldl MapCall.update fun _ _ => none

/-- The maps of a request hold what is stored. -/
def Holding (r : HttpRequest) (store : MapCall.Store) : Prop :=
  ∀ part key, (r.map part).find? key = store part (folded key)

theorem Holding.exec {r : HttpRequest} {store : MapCall.Store} (holding : Holding r store)
    (call : MapCall) : Holding (call.exec r) (call.update store) := by
  intro part asked
  have before := holding part asked
  cases call with
  | set changed key val =>
      have written := (r.map changed).find?_set key val asked
      by_cases same : part = changed
      · subst same
        rw [MapCall.update]
        simp only [true_and]
        rw [← before, ← written]
        cases part <;> rfl
      · rw [MapCall.update]
        simp only [same, false_and, ↓reduceIte]
        rw [← before]
        cases part <;> cases changed <;> first | rfl | exact absurd rfl same
  | del changed key =>
      have erased := (r.map changed).find?_erase key asked
      by_cases same : part = changed
      · subst same
        rw [MapCall.update]
        simp only [true_and]
        rw [← before, ← erased]
        cases part <;> rfl
      · rw [MapCall.update]
        simp only [same, false_and, ↓reduceIte]
        rw [← before]
        cases part <;> cases changed <;> first | rfl | exact absurd rfl same

theorem runCalls_holding (calls : List MapCall) : Holding (runCalls calls) (stored calls) := by
  induction calls using List.reverseRecOn with
  | nil =>
      intro part key
      cases part <;> rfl
  | append_singleton calls call ih =>
      unfold runCalls stored
      rw [List.foldl_append, List.foldl_append]
      exact ih.exec call

/-- A call leaves the other maps alone. -/
theorem exec_map {part : Part} (call : MapCall) (other : call.part ≠ part) (r : HttpRequest) :
    (call.exec r).map part = r.map part := by
  cases call with
  | set changed key val => cases part <;> cases changed <;> first | rfl | exact absurd rfl other
  | del changed key => cases part <;> cases changed <;> first | rfl | exact absurd rfl other

/-! ### Agreement -/

section Agreement

variable {T : Type} (lexical_cast : Bytes → Option T)

/-- The conversion of what is stored. -/
def converts (calls : List MapCall) (part : Part) (key : Bytes) : Option T :=
  (stored calls part (folded key)).bind lexical_cast

/-- The conversions succeed where the key is found and its value converts, and give the
conversion then. -/
def Agreeing (accessors : Accessors T) : Prop :=
  let value := if (accessors.has none).1 then lexical_cast (accessors.get []) else none
  ∀ default_, accessors.checkGetAs default_ = (value.isSome, value.getD default_) ∧
    accessors.getAs default_ = value.getD default_

variable {lexical_cast} {r : HttpRequest} {key : Bytes}

theorem converts_eq (calls : List MapCall) (part : Part) (key : Bytes) :
    ((runCalls calls).map part).converted lexical_cast key =
      converts lexical_cast calls part key := by
  unfold MapType.converted converts
  rw [runCalls_holding calls part key]

theorem accessors_eq (part : Part) : r.accessors lexical_cast key part =
    ⟨(r.map part).has key, (r.map part).get key,
      fun default_ => (((r.map .Header).converted lexical_cast key).isSome,
        ((r.map .Header).converted lexical_cast key).getD default_),
      fun default_ => ((r.map .Header).converted lexical_cast key).getD default_⟩ := by
  have checked : r.m_headers.checkGetAs lexical_cast key = _ := funext MapType.checkGetAs_eq
  have given : r.m_headers.getAs lexical_cast key = _ := funext MapType.getAs_eq
  rw [HttpRequest.map, ← checked, ← given]
  cases part <;> rfl

/-- A value is known by what the conversions give. -/
theorem eq_of_results {a b : Option T}
    (same : ∀ default_, (a.isSome, a.getD default_) = (b.isSome, b.getD default_)) : a = b := by
  cases a with
  | none =>
      cases b with
      | none => rfl
      | some v => cases congrArg Prod.fst (same v)
  | some u =>
      have both := same u
      cases b with
      | none => cases congrArg Prod.fst both
      | some v => exact congrArg some (congrArg Prod.snd both)

theorem agreeing_iff (part : Part) : Agreeing lexical_cast (r.accessors lexical_cast key part) ↔
    (r.map .Header).converted lexical_cast key = (r.map part).converted lexical_cast key := by
  have value : (if ((r.map part).has key none).1 then lexical_cast ((r.map part).get key [])
      else none) = (r.map part).converted lexical_cast key := by
    unfold MapType.has MapType.get MapType.converted
    cases (r.map part).find? key <;> rfl
  rw [accessors_eq, Agreeing]
  dsimp only
  rw [value]
  constructor
  · intro agreeing
    exact eq_of_results fun default_ => (agreeing default_).1
  · intro same default_
    rw [same]
    exact ⟨rfl, rfl⟩

theorem accessors_exec_iff {part : Part} (call : MapCall) (other : call.part ≠ part) :
    (call.exec r).accessors lexical_cast key part = r.accessors lexical_cast key part ↔
      ((call.exec r).map .Header).converted lexical_cast key =
        (r.map .Header).converted lexical_cast key := by
  rw [accessors_eq, accessors_eq, exec_map call other]
  constructor
  · intro same
    refine eq_of_results fun default_ => ?_
    exact congrFun (congrArg Accessors.checkGetAs same) default_
  · intro same
    rw [same]

/-- After any calls the conversions of a map agree with its lookups exactly where the headers give
the same conversion under the key. A call on one map is seen through the accessors of another one
exactly where it changes the conversion of the header under the key. -/
theorem runCalls_accessors_iff (lexical_cast : Bytes → Option T) (calls : List MapCall)
    (key : Bytes) :
    (∀ part, Agreeing lexical_cast ((runCalls calls).accessors lexical_cast key part) ↔
      converts lexical_cast calls .Header key = converts lexical_cast calls part key) ∧
    ∀ call part, call.part ≠ part →
      ((runCalls (calls ++ [call])).accessors lexical_cast key part =
          (runCalls calls).accessors lexical_cast key part ↔
        call.part ≠ .Header ∨ converts lexical_cast (calls ++ [call]) .Header key =
          converts lexical_cast calls .Header key) := by
  refine ⟨?_, ?_⟩
  · intro part
    rw [agreeing_iff, converts_eq, converts_eq]
  · intro call part other
    have next : runCalls (calls ++ [call]) = call.exec (runCalls calls) := by
      unfold runCalls
      rw [List.foldl_append]
      rfl
    rw [← converts_eq, ← converts_eq, next, accessors_exec_iff call other]
    constructor
    · exact Or.inr
    · intro either
      rcases either with elsewhere | same
      · rw [exec_map call elsewhere]
      · exact same

/-- A conversion of one number. -/
def seven (text : Bytes) : Option Nat := if text = bytes "7" then some 7 else none

/-- A header, and a parameter set behind it. -/
theorem runCalls_accessors_seven :
    Agreeing seven ((runCalls [.set .Header (bytes "Id") (bytes "7")]).accessors seven
        (bytes "id") .Header) ∧
      (runCalls ([.set .Header (bytes "Id") (bytes "7")] ++
          [.set .Param (bytes "id") (bytes "8")])).accessors seven (bytes "id") .Cookie =
        (runCalls [.set .Header (bytes "Id") (bytes "7")]).accessors seven
          (bytes "id") .Cookie := by
  have both := runCalls_accessors_iff seven [.set .Header (bytes "Id") (bytes "7")] (bytes "id")
  refine ⟨(both.1 .Header).mpr rfl, (both.2 _ .Cookie ?_).mpr (Or.inl ?_)⟩
  · decide
  · decide

/-- A parameter that is there does not convert, and a header is taken for it. -/
theorem param_not_converted :
    (runCalls [.set .Param (bytes "id") (bytes "7")]).hasParam (bytes "id") none = (true, none) ∧
      (runCalls [.set .Param (bytes "id") (bytes "7")]).checkGetParamAs (bytes "id") seven 0 =
        (false, 0) ∧
      (runCalls [.set .Header (bytes "id") (bytes "7")]).getParamAs (bytes "id") seven 0 = 7 ∧
      ¬ Agreeing seven ((runCalls [.set .Param (bytes "id") (bytes "7")]).accessors seven
        (bytes "id") .Param) := by
  refine ⟨by decide, by decide, by decide, ?_⟩
  rw [agreeing_iff, converts_eq, converts_eq]
  decide

end Agreement

end CorReactor.Http
