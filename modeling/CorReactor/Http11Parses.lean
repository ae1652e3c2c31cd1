import CorReactor.Http11Grammar
import CorReactor.RagelParses

set_option autoImplicit false

/-! What the machine of the grammar parses, with the actions of each byte. -/

namespace CorReactor.Http11

open Ragel Ragel.Expr
open CorReactor.Http (Bytes bytes)

variable {c : UInt8} {w path query_ fragment_ : Bytes}

theorem forall_bytes {p : UInt8 → Prop} (all : ∀ n < 256, p (UInt8.ofNat n)) (c : UInt8) : p c := by
  rw [← @UInt8.ofNat_toNat c]
  exact all c.toNat (UInt8.toNat_lt c)

/-- What one part reads, the next one does not begin with. -/
theorem apart_of {e f : Grammar} {tr : List (List Action)} {waiting : List Action}
    {stuck : UInt8 → Prop} (parses : e.Parses w tr waiting stuck)
    (disjoint : ∀ n < 256, e.reads (UInt8.ofNat n) = true → f.begins (UInt8.ofNat n) = false) :
    ∀ x ∈ w, f.begins x = false :=
  fun x member => forall_bytes (p := fun x => e.reads x = true → f.begins x = false) disjoint x
    (parses.reads x member)

/-- The same for a part that begins with one byte only. -/
theorem apart_of_single {e f : Grammar} {tr : List (List Action)} {waiting : List Action}
    {stuck : UInt8 → Prop} {b : UInt8} (parses : e.Parses w tr waiting stuck)
    (begins : ∀ x, f.begins x = true → x = b) (outside : e.reads b = false) :
    ∀ x ∈ w, f.begins x = false := by
  intro x member
  have read := parses.reads x member
  rw [← Bool.not_eq_true]
  intro first
  rw [begins x first, outside] at read
  cases read

/-- The action on the first byte of a word. -/
def marks (a : Action) : Bytes → List (List Action)
  | [] => []
  | _ :: w => [a] :: List.replicate w.length []

/-! ### URI -/

/-- A word of the path, which nothing but a path is read from. -/
theorem relativePart_parses (accepted : ((pathAbsolute false).machine 0).accepts path = true) :
    (relativePart false).Parses path (List.replicate path.length []) []
      (fun x => x = 32 ∨ x = 35 ∨ x = 63) := by
  have accepts : ((relativePart false).machine 0).accepts path = true := by
    refine Machine.accepts_alt_right (Machine.accepts_alt_left ?_)
    rw [machine_silent rfl _ 0]
    exact accepted
  refine (Parses.silent rfl accepts).mono ?_
  rintro x (rfl | rfl | rfl) <;> decide

/-- A query, with what the bytes behind it are. -/
theorem query_parses (accepted : ((query false).machine 0).accepts (c :: w) = true) :
    (query false).Parses (c :: w) ([] :: List.replicate w.length []) [.queryString]
      (fun x => x = 32 ∨ x = 35) := by
  have inner : (Expr.machine (.star (oneOf [pchar false, lit "/", lit "?"])) 0).accepts (c :: w) =
      true := Machine.accepts_leave.symm.trans accepted
  refine (Parses.leave (Parses.silent rfl inner) List.not_mem_nil).mono ?_
  rintro x (rfl | rfl) <;> decide

theorem fragment_parses (accepted : ((fragment false).machine 0).accepts (c :: w) = true) :
    (fragment false).Parses (c :: w) (marks .mark (c :: w)) [.fragment] (fun x => x = 32) := by
  have inner : (Expr.machine (.star (oneOf [pchar false, lit "/", lit "?"])) 0).accepts (c :: w) =
      true := by
    rw [machine_silent rfl 0 1]
    exact (Machine.accepts_enter.symm.trans Machine.accepts_leave.symm).trans accepted
  refine (Parses.marked rfl inner).mono ?_
  rintro x rfl
  decide

/-- The actions in the target, up to its last byte, and those behind it. -/
def targetTrace (path query : Bytes) : List (List Action) :=
  marks .mark path ++ if query = [] then [] else [.requestPath] :: marks .startQuery query

def targetLast (query : Bytes) : List Action :=
  [if query = [] then .requestPath else .queryString, .requestUri]

/-- `("?" query)?`. -/
theorem queryPart_parses (accepted : ((query false).machine 0).accepts (c :: w) = true) :
    (opt (seq [.leave (lit "?") .startQuery, query false])).Parses (63 :: c :: w)
      ([] :: marks .startQuery (c :: w)) [.queryString] (fun x => x = 32 ∨ x = 35) := by
  have mark : (lit "?" : Grammar).Parses [63] [[]] [] (fun _ => True) := Parses.chars rfl
  have started := (mark.leave (a := .startQuery) List.not_mem_nil).mono
    (q := (· = c)) (fun _ _ => trivial)
  have both := started.cat (Or.inl ⟨rfl, rfl⟩) (query_parses accepted) (Or.inr rfl)
  exact both.altLeft rfl

theorem queryPart_begins (x : UInt8)
    (first : (opt (seq [.leave (lit "?") .startQuery, query false]) : Grammar).begins x = true) :
    x = 63 := by
  change ((x == 63) || false || false) = true at first
  simpa using first

theorem target_parses (absolute : ((pathAbsolute false).machine 0).accepts (c :: w) = true)
    (accepted : ((query false).machine 0).accepts query_ = true) :
    (target false (relativePart false)).Parses
      (c :: w ++ if query_ = [] then [] else 63 :: query_) (targetTrace (c :: w) query_)
      (targetLast query_) (fun x => x = 32 ∨ x = 35) := by
  have path := (relativePart_parses absolute).leave (a := .requestPath) List.not_mem_nil
  have apart : ∀ x ∈ c :: w,
      (opt (seq [.leave (lit "?") .startQuery, query false])).begins x = false :=
    apart_of_single path queryPart_begins (by decide)
  cases query_ with
  | nil =>
      have empty := (Parses.optEmpty (A := Action)
        (e := seq [.leave (lit "?") .startQuery, query false]) rfl).mono
        (q := fun x => x = 32 ∨ x = 35) (by rintro x (rfl | rfl) <;> rfl)
      have both := (path.mono (q := fun x => x = 32 ∨ x = 35)
        (by rintro x (rfl | rfl) <;> simp)).catEmpty (Or.inr apart) empty (Or.inr rfl)
      simp only [↓reduceIte, List.append_nil, targetTrace, targetLast]
      exact both.enter.leave (by decide)
  | cons d v =>
      have both := (path.mono (q := (· = 63)) (by rintro x rfl; simp)).cat (Or.inr apart)
        (queryPart_parses accepted) (Or.inr rfl)
      exact both.enter.leave (by decide)

/-- The request target, as it is written. -/
def uriText (path query fragment : Bytes) : Bytes :=
  (path ++ if query = [] then [] else 63 :: query) ++
    if fragment = [] then [] else 35 :: fragment

def uriTrace (path query fragment : Bytes) : List (List Action) :=
  targetTrace path query ++
    if fragment = [] then [] else targetLast query :: marks .mark fragment

def uriLast (query fragment : Bytes) : List Action :=
  if fragment = [] then targetLast query else [.fragment]

/-- `("#" fragment)?`. -/
theorem fragmentPart_parses (accepted : ((fragment false).machine 0).accepts (c :: w) = true) :
    (fragmentPart false).Parses (35 :: c :: w) ([] :: marks .mark (c :: w)) [.fragment]
      (fun x => x = 32) := by
  have mark : (lit "#" : Grammar).Parses [35] [[]] [] (· = c) :=
    (Parses.chars rfl).mono fun _ _ => trivial
  have both := mark.cat (Or.inl ⟨rfl, rfl⟩) (fragment_parses accepted) (Or.inl rfl)
  exact both.altLeft rfl

theorem exists_of_absolute (absolute : ((pathAbsolute false).machine 0).accepts path = true) :
    ∃ w, path = 47 :: w := by
  cases path with
  | nil => cases absolute
  | cons c w =>
      obtain ⟨as, t, step, -⟩ := Machine.acceptsFrom_cons absolute
      have begins : (pathAbsolute false).begins c = true := by
        rw [← Bool.not_eq_false]
        intro outside
        rw [step_start _ _ outside] at step
        cases step
      change ((c == 47) || false) = true at begins
      have slash : c = 47 := by simpa using begins
      exact ⟨w, by rw [slash]⟩

theorem fragmentPart_begins (x : UInt8) (first : (fragmentPart false).begins x = true) :
    x = 35 := by
  change ((x == 35) || false || false) = true at first
  simpa using first

theorem uriReference_parses (absolute : ((pathAbsolute false).machine 0).accepts path = true)
    (asked : ((query false).machine 0).accepts query_ = true)
    (located : ((fragment false).machine 0).accepts fragment_ = true) :
    (uriReference false).Parses (uriText path query_ fragment_) (uriTrace path query_ fragment_)
      (uriLast query_ fragment_) (fun x => x = 32) := by
  obtain ⟨w, rfl⟩ := exists_of_absolute absolute
  have target := target_parses absolute asked
  have apart : ∀ x ∈ 47 :: w ++ (if query_ = [] then [] else 63 :: query_),
      (fragmentPart false).begins x = false :=
    apart_of_single target fragmentPart_begins (by decide)
  cases fragment_ with
  | nil =>
      have empty : (fragmentPart false).Parses [] [] [] (fun x => x = 32) :=
        (Parses.optEmpty rfl).mono (by rintro x rfl; rfl)
      have both := (target.mono (fun _ => Or.inl)).catEmpty (Or.inr apart) empty (Or.inr rfl)
      simp only [uriText, uriTrace, uriLast, ↓reduceIte, List.append_nil] at both ⊢
      exact both.altRight (by decide)
  | cons d v =>
      have both := (target.mono (q := (· = 35)) (fun _ => Or.inr)).cat (Or.inr apart)
        (fragmentPart_parses located) (Or.inr rfl)
      exact both.altRight (by decide)

/-! ### Header lines -/

def control (c : UInt8) : Bool := c < 32 || c == 127

/-- A character of a token. `HTTP_CTL` is to be the control characters. -/
def tokenChar (c : UInt8) : Bool := token c && !control c

/-- A header line, with or without a blank in front of the value. -/
structure Line where
  name : Bytes
  blank : Bool
  value : Bytes

namespace Line

def text (l : Line) : Bytes :=
  l.name ++ 58 :: ((if l.blank then [32] else []) ++ l.value ++ [13, 10])

/-- The actions up to the end of the value. -/
def valueTrace (l : Line) : List (List Action) :=
  (if l.blank then [[.startValue]] else []) ++ marks .startValue l.value

def valueLast (l : Line) : List Action :=
  if l.value = [] then [.startValue, .writeValue] else [.writeValue]

def trace (l : Line) : List (List Action) :=
  marks .startField l.name ++ [.writeField] :: (l.valueTrace ++ [l.valueLast, []])

structure WellFormed (l : Line) : Prop where
  name : l.name ≠ []
  tokens : ∀ c ∈ l.name, tokenChar c = true
  value : ∀ c ∈ l.value, control c = false
  first : ∀ c ∈ l.value.head?, c ≠ 32
  blank : l.blank = true → l.value ≠ []

end Line

theorem fieldName_parses (tokens : ∀ x ∈ c :: w, tokenChar x = true) :
    fieldName.Parses (c :: w) (marks .startField (c :: w)) [.writeField] (fun x => x = 58) := by
  have each : ∀ x ∈ c :: w, token x = true :=
    fun x member => (Bool.and_eq_true_iff.mp (tokens x member)).1
  have accepted : (Expr.machine (plus (.chars token) : Grammar) 0).accepts (c :: w) = true := by
    refine Machine.accepts_cat (u := [c]) (Machine.accepts_chars (each c List.mem_cons_self)) ?_
    exact Machine.accepts_star fun x member =>
      Machine.accepts_chars (each x (List.mem_cons_of_mem _ member))
  refine (Parses.marked rfl accepted).mono ?_
  rintro x rfl
  decide

theorem content_accepts {v : Bytes} (plain : ∀ x ∈ v, control x = false) :
    (Expr.machine (.star content : Grammar) 0).accepts v = true := by
  refine Machine.accepts_star fun x member => Machine.accepts_alt_left (Machine.accepts_chars ?_)
  have free := plain x member
  revert free
  refine forall_bytes (p := fun x => control x = false →
    minus (fun _ => true) httpCtl x = true) ?_ x
  decide +kernel

theorem fieldValue_parses (plain : ∀ x ∈ c :: w, control x = false) :
    fieldValue.Parses (c :: w) (marks .startValue (c :: w)) [.writeValue] (fun _ => False) :=
  (Parses.marked rfl (content_accepts plain)).mono fun _ => False.elim

/-- An empty value. -/
theorem fieldValue_empty : fieldValue.Parses [] [] [.startValue, .writeValue] (fun _ => False) := by
  have empty := (Parses.silent (A := Action) (e := .star content) (w := []) rfl rfl).mono
    (q := fun _ => False) fun _ => False.elim
  exact empty.enterEmpty.leave (by decide)

theorem crlf_round : crlf.Round [13, 10] [[], []] := by
  intro n
  exact ⟨[[], []], ⟨13, [], 10, [], [], [], rfl, rfl, _, _, .cons rfl rfl (.nil _), rfl, rfl,
    fun x => rfl⟩, rfl⟩

/-- A colon, blanks and a value. -/
theorem value_parses {l : Line} (formed : l.WellFormed) :
    (seq [.star lws, fieldValue]).Parses ((if l.blank then [32] else []) ++ l.value) l.valueTrace
      l.valueLast (fun _ => False) := by
  obtain ⟨name, blank, value⟩ := l
  obtain ⟨-, -, plain, first, some_value⟩ := formed
  dsimp only at plain first some_value
  have nothing : (.star lws : Grammar).Parses [] [] [] (fun x => lws.reads x = false) :=
    Parses.silent rfl rfl
  cases value with
  | nil =>
      cases blank with
      | true => exact absurd rfl (some_value rfl)
      | false =>
          exact (nothing.mono fun _ => False.elim).catEmpty (Or.inr (List.forall_mem_nil _))
            fieldValue_empty (Or.inl rfl)
  | cons c v =>
      have unread : lws.reads c = false := by
        have free := plain c List.mem_cons_self
        have other := first c rfl
        revert free other
        refine forall_bytes (p := fun x => control x = false → x ≠ 32 → lws.reads x = false) ?_ c
        decide +kernel
      have stops : ∀ x, x = c → lws.reads x = false := by
        rintro x rfl
        exact unread
      cases blank with
      | false =>
          exact (nothing.mono stops).cat (Or.inr (List.forall_mem_nil _))
            (fieldValue_parses plain) (Or.inl rfl)
      | true =>
          have one : (.star lws : Grammar).Parses [32] [[]] [] (· = c) :=
            (Parses.silent rfl (by decide)).mono stops
          refine Parses.overlap (nothing.mono fun _ => False.elim) one (fieldValue_parses ?_)
            (fieldValue_parses plain)
          intro x member
          rcases List.mem_cons.mp member with rfl | inside
          · rfl
          · exact plain x inside

theorem colon_parses {l : Line} (formed : l.WellFormed) :
    (seq [lit ":", .star lws, fieldValue]).Parses
      (58 :: ((if l.blank then [32] else []) ++ l.value)) ([] :: l.valueTrace) l.valueLast
      (fun _ => False) := by
  have colon : (lit ":" : Grammar).Parses [58] [[]] [] (fun _ => True) := Parses.chars rfl
  have value := value_parses formed
  generalize (if l.blank then [32] else []) ++ l.value = rest at value ⊢
  cases rest with
  | nil =>
      have none_read : l.valueTrace = [] := by
        have raw := value 0
        obtain ⟨raw, left, ⟨t, run, -, -⟩, trace, -⟩ := value 0
        cases run
        exact trace.symm
      rw [none_read] at value ⊢
      exact (colon.mono fun _ => False.elim).catEmpty (Or.inl ⟨rfl, rfl⟩) value (Or.inl rfl)
  | cons c v =>
      have some_read : ∃ as tr, l.valueTrace = as :: tr := by
        obtain ⟨raw, left, ⟨t, run, -, -⟩, trace, -⟩ := value 0
        cases run
        exact ⟨_, _, trace.symm⟩
      obtain ⟨as, tr, read⟩ := some_read
      rw [read] at value ⊢
      exact (colon.mono fun _ _ => trivial).cat (Or.inl ⟨rfl, rfl⟩) value (Or.inl rfl)

theorem messageHeader_round {l : Line} (formed : l.WellFormed) :
    messageHeader.Round l.text l.trace := by
  have colon := colon_parses formed
  obtain ⟨name, blank, value⟩ := l
  obtain ⟨some_name, tokens, plain, -, -⟩ := formed
  dsimp only at some_name tokens plain colon
  obtain ⟨c, w, rfl⟩ := List.exists_cons_of_ne_nil some_name
  have free : ∀ x ∈ c :: w, control x = false := by
    intro x member
    have both := (Bool.and_eq_true_iff.mp (tokens x member)).2
    exact (Bool.not_eq_true' _).mp both
  have apart : ∀ x ∈ c :: w, (seq [lit ":", .star lws, fieldValue]).begins x = false := by
    intro x member
    have named := tokens x member
    revert named
    refine forall_bytes (p := fun x => tokenChar x = true →
      (seq [lit ":", .star lws, fieldValue]).begins x = false) ?_ x
    decide +kernel
  have line := (fieldName_parses tokens).cat (Or.inr apart) colon (Or.inr rfl)
  have unended : ∀ x ∈ c :: w ++ 58 :: ((if blank then [32] else []) ++ value),
      crlf.begins x = false := by
    have each : ∀ x ∈ c :: w ++ 58 :: ((if blank then [32] else []) ++ value),
        control x = false := by
      intro x member
      rcases List.mem_append.mp member with inside | inside
      · exact free x inside
      · rcases List.mem_cons.mp inside with rfl | inside
        · rfl
        · rcases List.mem_append.mp inside with here | here
          · split at here
            · cases List.mem_singleton.mp here
              rfl
            · cases here
          · exact plain x here
    intro x member
    have plain_x := each x member
    revert plain_x
    refine forall_bytes (p := fun x => control x = false → crlf.begins x = false) ?_ x
    decide +kernel
  have line : (seq [fieldName, lit ":", .star lws, fieldValue]).Parses
      (c :: (w ++ 58 :: ((if blank then [32] else []) ++ value)))
      ([.startField] :: (List.replicate w.length [] ++ [.writeField] ::
        Line.valueTrace ⟨c :: w, blank, value⟩)) (Line.valueLast ⟨c :: w, blank, value⟩)
      (fun _ => False) := line
  have round : messageHeader.Round _ _ := Round.guard line unended rfl crlf_round (Or.inr rfl)
  simpa only [Line.text, Line.trace, marks, List.append_assoc, List.cons_append, List.append_nil,
    List.nil_append] using round

/-- A line feed goes into a header as well: `token` has it. -/
theorem messageHeader_opens : messageHeader.Reads [13, 10] [[.startField], []] := by
  intro n
  refine ⟨[[(n, .startField)], []], _, .cons rfl rfl (.cons rfl rfl (.nil _)), ?_⟩
  simp only [List.map_cons, inOrder_single, inOrder_nil, List.map_nil]

/-! ### Requests -/

theorem method_parses (named : (method.machine 0).accepts (c :: w) = true) :
    method.Parses (c :: w) (marks .mark (c :: w)) [.requestMethod] (fun x => x = 32) := by
  have inner := Machine.accepts_enter.symm.trans (Machine.accepts_leave.symm.trans named)
  rw [machine_silent rfl _ 0] at inner
  refine (Parses.marked rfl inner).mono ?_
  rintro x rfl
  decide

theorem httpVersion_parses (versioned : (httpVersion.machine 0).accepts (c :: w) = true) :
    httpVersion.Parses (c :: w) (marks .mark (c :: w)) [.httpVersion] (fun x => x = 13) := by
  have inner := Machine.accepts_enter.symm.trans (Machine.accepts_leave.symm.trans versioned)
  rw [machine_silent rfl _ 0] at inner
  refine (Parses.marked rfl inner).mono ?_
  rintro x rfl
  decide

/-- A request up to the last byte of its headers. -/
def requestText (name uri version : Bytes) (lines : List Line) : Bytes :=
  name ++ 32 :: (uri ++ 32 :: (version ++ 13 :: 10 :: (lines.flatMap Line.text ++ [13])))

def requestTrace (name path query fragment version : Bytes) (lines : List Line) :
    List (List Action) :=
  marks .mark name ++ [.requestMethod] :: (uriTrace path query fragment ++ uriLast query fragment ::
    (marks .mark version ++ [.httpVersion] :: [] :: (lines.flatMap Line.trace ++ [[.startField]])))

theorem headers_complete {lines : List Line} (formed : ∀ l ∈ lines, l.WellFormed) :
    (cat (.star messageHeader) crlf).Completes (lines.flatMap Line.text ++ [13])
      (lines.flatMap Line.trace ++ [[.startField]]) 10 [] := by
  have rounds := Completes.rounds (e := messageHeader) (f := crlf)
    (lines.map fun l => (l.text, l.trace)) rfl rfl ?_ ?_ messageHeader_opens crlf_round
  · simpa only [List.flatMap_map] using rounds
  · intro r member
    obtain ⟨l, inside, rfl⟩ := List.mem_map.mp member
    exact messageHeader_round (formed l inside)
  · intro r member c head
    obtain ⟨l, inside, rfl⟩ := List.mem_map.mp member
    obtain ⟨d, w, named⟩ := List.exists_cons_of_ne_nil (formed l inside).name
    have first : d = c := by
      simpa only [Line.text, named, List.cons_append, List.head?_cons, Option.mem_some_iff]
        using head
    have plain := (formed l inside).tokens d (by rw [named]; exact List.mem_cons_self)
    rw [first] at plain
    revert plain
    refine forall_bytes (p := fun x => tokenChar x = true → crlf.begins x = false) ?_ c
    decide +kernel

theorem blank_begins (f : Grammar) (x : UInt8)
    (first : (Expr.cat (lit " ") f).begins x = true) : x = 32 := by
  change ((x == 32) || (false && f.begins x)) = true at first
  simpa using first

theorem request_completes {name version : Bytes} {lines : List Line}
    (named : (method.machine 0).accepts name = true)
    (absolute : ((pathAbsolute false).machine 0).accepts path = true)
    (asked : ((query false).machine 0).accepts query_ = true)
    (located : ((fragment false).machine 0).accepts fragment_ = true)
    (versioned : (httpVersion.machine 0).accepts version = true) (some_line : lines ≠ [])
    (formed : ∀ l ∈ lines, l.WellFormed) :
    (main false).Completes (requestText name (uriText path query_ fragment_) version lines)
      (requestTrace name path query_ fragment_ version lines) 10 [.done] := by
  obtain ⟨n, name, rfl⟩ : ∃ n w, name = n :: w := by
    cases name with
    | nil => cases named
    | cons n w => exact ⟨n, w, rfl⟩
  obtain ⟨v, version, rfl⟩ : ∃ v w, version = v :: w := by
    cases version with
    | nil => cases versioned
    | cons v w => exact ⟨v, w, rfl⟩
  obtain ⟨l, lines, rfl⟩ := List.exists_cons_of_ne_nil some_line
  obtain ⟨h, key, key_eq⟩ := List.exists_cons_of_ne_nil (formed l List.mem_cons_self).name
  obtain ⟨p, path, rfl⟩ : ∃ p w, path = p :: w := ⟨47, exists_of_absolute absolute⟩
  obtain ⟨T, text⟩ : ∃ T, (l :: lines).flatMap Line.text ++ [13] = h :: T := by
    rw [List.flatMap_cons, Line.text, key_eq]
    exact ⟨_, rfl⟩
  obtain ⟨S, trace⟩ : ∃ S, (l :: lines).flatMap Line.trace ++ [[.startField]] =
      [.startField] :: S := by
    rw [List.flatMap_cons, Line.trace, key_eq]
    exact ⟨_, rfl⟩
  have headers := headers_complete formed
  rw [text, trace] at headers
  have blank : (lit " " : Grammar).Parses [32] [[]] [] (fun _ => True) := Parses.chars rfl
  have uri_ := uriReference_parses absolute asked located
  have ended : Completes _ (13 :: 10 :: h :: T) ([] :: [] :: [.startField] :: S) 10 [] :=
    Completes.behind crlf_round rfl rfl headers
  have versioned_ := Completes.cat (httpVersion_parses versioned)
    (Or.inr (apart_of (httpVersion_parses versioned) (by decide +kernel))) rfl ended (Or.inr rfl)
  have spaced := Completes.cat (blank.mono fun _ _ => trivial)
    (Or.inl ⟨rfl, rfl⟩) rfl versioned_ (Or.inl rfl)
  have located_ := Completes.cat uri_
    (Or.inr (apart_of_single uri_ (blank_begins _) (by decide))) rfl spaced (Or.inr rfl)
  have spaced' := Completes.cat (blank.mono fun _ _ => trivial)
    (Or.inl ⟨rfl, rfl⟩) rfl located_ (Or.inl rfl)
  have named_ := Completes.cat (method_parses named)
    (Or.inr (apart_of_single (method_parses named) (blank_begins _) (by decide))) rfl
    spaced' (Or.inr rfl)
  have whole : (request false).Completes _ _ 10 [] := named_
  have other : (socketRequest false).begins n = false :=
    apart_of (method_parses named) (by decide +kernel) n List.mem_cons_self
  rw [requestText, requestTrace, text, trace, ← List.append_nil (uriLast query_ fragment_)]
  exact (whole.altLeft other).finish

end CorReactor.Http11
