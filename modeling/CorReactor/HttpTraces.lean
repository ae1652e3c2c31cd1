import CorReactor.HttpParserRuns
import CorReactor.Http11Parses
import Mathlib.Data.List.Find

set_option autoImplicit false

/-! What the actions of a request's bytes do to the request of the parser. -/

namespace CorReactor.Http

open Http11 (Action marks Line)

namespace Memory

variable {m : Memory} {p : Nat} {u v w rest : Bytes}

/-- The word stands at the offset. -/
def Holds (m : Memory) (p : Nat) (w : Bytes) : Prop := m.read p w.length = w

theorem holds_iff : m.Holds p w ↔ ∀ i < w.length, m.byte (p + i) = literal w i := by
  rw [Holds, List.ext_getElem_iff]
  constructor
  · rintro ⟨-, same⟩ i less
    have at_i := same i (by simpa only [read, List.length_map, List.length_range] using less) less
    simp only [read, List.getElem_map, List.getElem_range] at at_i
    rw [at_i, literal, List.getElem?_eq_getElem less, Option.getD_some]
  · intro same
    refine ⟨by simp only [read, List.length_map, List.length_range], ?_⟩
    intro i _ less
    simp only [read, List.getElem_map, List.getElem_range]
    rw [same i less, literal, List.getElem?_eq_getElem less, Option.getD_some]

theorem holds_buffer : m.Holds 0 m.buffer := by
  refine holds_iff.mpr fun i less => ?_
  rw [Nat.zero_add, byte, literal, List.getElem?_eq_getElem less, Option.getD_some,
    Option.getD_some]

theorem holds_append : m.Holds p (u ++ v) ↔ m.Holds p u ∧ m.Holds (p + u.length) v := by
  have split : m.read p (u ++ v).length = m.read p u.length ++ m.read (p + u.length) v.length := by
    rw [List.length_append, read, List.range_add, List.map_append, List.map_map]
    refine congrArg _ (List.map_congr_left fun i _ => ?_)
    rw [Function.comp_apply, Nat.add_assoc]
  have lengths : (m.read p u.length).length = u.length := by
    rw [read, List.length_map, List.length_range]
  rw [Holds, split]
  exact ⟨fun same => List.append_inj same lengths, fun both => congrArg₂ _ both.1 both.2⟩

theorem holds_cons {c : UInt8} : m.Holds p (c :: w) ↔ m.byte p = c ∧ m.Holds (p + 1) w := by
  rw [← List.singleton_append, holds_append]
  refine and_congr_left fun _ => ?_
  rw [Holds, List.length_singleton, read, List.range_one, List.map_singleton, Nat.add_zero,
    List.cons.injEq, and_iff_left rfl]

theorem Holds.string (holds : m.Holds p w) (short : w.length < 2 ^ 63) :
    m.string p w.length = some w := by
  rw [Memory.string, if_pos short, holds]

end Memory

/-! ### Texts in memory -/

theorem strncmpEq_congr {x x' y y' : Nat → UInt8} {i n : Nat}
    (left : ∀ j < n, x (i + j) = x' (i + j)) (right : ∀ j < n, y (i + j) = y' (i + j)) :
    strncmpEq x y i n = strncmpEq x' y' i n := by
  induction n generalizing i with
  | zero => rfl
  | succ n ih =>
      have later : ∀ {z z' : Nat → UInt8}, (∀ j < n + 1, z (i + j) = z' (i + j)) →
          ∀ j < n, z (i + 1 + j) = z' (i + 1 + j) := by
        intro z z' same j less
        have at_j := same (1 + j) (by omega)
        rwa [← Nat.add_assoc] at at_j
      have first_left := left 0 (Nat.succ_pos n)
      have first_right := right 0 (Nat.succ_pos n)
      rw [Nat.add_zero] at first_left first_right
      rw [strncmpEq, strncmpEq, ih (later left) (later right), first_left, first_right]

theorem strncmpEq_false_mono {x y : Nat → UInt8} {i n k : Nat} (le : n ≤ k)
    (differs : strncmpEq x y i n = false) : strncmpEq x y i k = false := by
  induction n generalizing i k with
  | zero => cases differs
  | succ n ih =>
      obtain ⟨k, rfl⟩ : ∃ j, k = j + 1 := ⟨k - 1, by omega⟩
      rw [strncmpEq] at differs ⊢
      rcases Bool.and_eq_false_iff.mp differs with here | later
      · rw [here, Bool.false_and]
      · obtain ⟨some_byte, later⟩ := Bool.or_eq_false_iff.mp later
        rw [some_byte, ih (Nat.le_of_succ_le_succ le) later, Bool.false_or, Bool.and_false]

theorem httpMethodToString_mem {method : HttpMethod} (registered : method ≠ .INVALID_METHOD) :
    (method, httpMethodToString method) ∈ HTTP_METHOD_MAP := by
  have listed : (HTTP_METHOD_MAP.find? fun x => x.1 = method).isSome = true := by
    cases method <;> first | rfl | exact absurd rfl registered
  obtain ⟨x, found⟩ := Option.isSome_iff_exists.mp listed
  have same : x.1 = method := by simpa using List.find?_some found
  have text : httpMethodToString method = x.2 := by
    unfold httpMethodToString
    rw [found]
  rw [text, ← same]
  exact List.mem_of_find?_eq_some found

/-- Compared with a name and a blank, the table gives the name's own entry. -/
theorem methods_found : ∀ e ∈ HTTP_METHOD_MAP, HTTP_METHOD_MAP.find? (fun x =>
    strncmpEq (literal x.2) (literal (e.2 ++ [32])) 0 x.2.length) = some e := by
  decide

/-- No name goes on behind another name and a blank. -/
theorem methods_apart : ∀ e ∈ HTTP_METHOD_MAP, ∀ x ∈ HTTP_METHOD_MAP,
    x.2.length ≤ (e.2 ++ [32]).length ∨
      strncmpEq (literal x.2) (literal (e.2 ++ [32])) 0 (e.2 ++ [32]).length = false := by
  decide

/-- The method whose name stands in front of a blank. -/
theorem charsToHttpMethod_eq {m : Memory} {p : Nat} {method : HttpMethod}
    (registered : method ≠ .INVALID_METHOD)
    (there : m.Holds p (httpMethodToString method ++ [32])) : charsToHttpMethod m p = method := by
  have listed := httpMethodToString_mem registered
  have known := methods_apart _ listed
  have found := methods_found _ listed
  have same : HTTP_METHOD_MAP.find? (fun x =>
      strncmpEq (literal x.2) (fun i => m.byte (p + i)) 0 x.2.length) =
        some (method, httpMethodToString method) := by
    rw [← found]
    refine List.find?_congr fun x member => ?_
    have bytes_eq := Memory.holds_iff.mp there
    have prefix_eq : ∀ n ≤ (httpMethodToString method ++ [32]).length,
        strncmpEq (literal x.2) (fun i => m.byte (p + i)) 0 n =
          strncmpEq (literal x.2) (literal (httpMethodToString method ++ [32])) 0 n := by
      intro n le
      refine strncmpEq_congr (fun _ _ => rfl) fun j less => ?_
      rw [Nat.zero_add]
      exact bytes_eq j (Nat.lt_of_lt_of_le less le)
    by_cases short : x.2.length ≤ (httpMethodToString method ++ [32]).length
    · exact prefix_eq _ short
    · have differs := (known x member).resolve_left short
      have long := Nat.le_of_lt (Nat.lt_of_not_le short)
      rw [strncmpEq_false_mono long differs,
        strncmpEq_false_mono long ((prefix_eq _ (Nat.le_refl _)).trans differs)]
  rw [charsToHttpMethod, same]

namespace HttpRequestParser

open Ragel (inOrder)

variable {State : Type} {memory : Memory} {p q : Nat} {a : Action} {w : Bytes}
  {tr tr' : List (List Action)} {parser next after : HttpRequestParser State}
  {f g : HttpRequest → HttpRequest}

/-- The actions of the bytes from offset `p` on, none of which breaks the loop. -/
def play (memory : Memory) : Nat → List (List Action) → HttpRequestParser State →
    Option (HttpRequestParser State)
  | _, [], parser => some parser
  | p, as :: rest, parser =>
      match perform memory p as parser with
      | some (parser, false) => play memory (p + 1) rest parser
      | _ => none

theorem play_append :
    play memory p (tr ++ tr') parser =
      (play memory p tr parser).bind (play memory (p + tr.length) tr') := by
  induction tr generalizing p parser with
  | nil => rfl
  | cons as tr ih =>
      rw [List.cons_append, play, play, List.length_cons]
      split
      · rw [ih, Nat.add_right_comm, Nat.add_assoc]
      · rfl

theorem play_quiet {n : Nat} :
    play memory p (List.replicate n []) parser = some parser := by
  induction n generalizing p with
  | zero => rfl
  | succ n ih => exact ih

theorem play_marks (memory : Memory) (parser : HttpRequestParser State) (some_byte : w ≠ [])
    (acted : parser.act memory p a = some next)
    (unbroken : a ≠ .done) : play memory p (marks a w) parser = some next := by
  obtain ⟨c, v, rfl⟩ := List.exists_cons_of_ne_nil some_byte
  have performed : perform memory p [a] parser = some (next, false) := by
    rw [perform, acted, Option.bind_some, if_neg unbroken, perform]
  rw [marks, play, performed]
  exact play_quiet

theorem length_marks : (marks a w).length = w.length := by
  cases w with
  | nil => rfl
  | cons c w => rw [marks, List.length_cons, List.length_replicate, List.length_cons]

/-- The loop reads a word with these actions. -/
theorem scan_of_reads {M : ActionMachine} {s t : M.State} {raw : List (List (Nat × Action))}
    {parser after : HttpRequestParser M.State} (reads : M.Reads s w raw t)
    (played : play memory p (raw.map inOrder) parser = some after) (rest : Bytes) :
    scan M memory s p (w ++ rest) parser = scan M memory t (p + w.length) rest after := by
  induction reads generalizing p parser with
  | nil =>
      cases played
      rfl
  | @cons _ _ _ c w _ _ step _ _ ih =>
      rw [List.map_cons, play] at played
      split at played
      case h_1 next performed =>
        rw [List.cons_append, scan, step]
        dsimp only
        rw [performed, Option.bind_some]
        dsimp only
        rw [if_neg Bool.false_ne_true, ih played, List.length_cons, Nat.add_assoc,
          Nat.add_comm 1]
      case h_2 => cases played

/-- The loop is broken by the byte that completes a word. -/
theorem scan_of_completes {M : ActionMachine} {c : UInt8} {raw : List (List (Nat × Action))}
    {last : List (Nat × Action)} {parser next after : HttpRequestParser M.State}
    (completes : M.Completes w raw c last)
    (played : play memory p (raw.map inOrder) parser = some next)
    (performed : perform memory (p + w.length) (inOrder last) next = some (after, true))
    (rest : Bytes) :
    ∃ u, scan M memory M.start p (w ++ c :: rest) parser =
        some (some u, p + w.length + 1, after) ∧ (M.final u).isSome = true := by
  obtain ⟨t, u, reads, step, final⟩ := completes
  refine ⟨u, ?_, final⟩
  rw [scan_of_reads reads played, scan, step]
  dsimp only
  rw [performed, Option.bind_some]
  dsimp only
  rw [if_pos rfl]

/-! ### Effects -/

/-- The actions have this effect on the request, whatever the offsets of the parser are. -/
def Does (memory : Memory) (State : Type) (p : Nat) (tr : List (List Action))
    (f : HttpRequest → HttpRequest) : Prop :=
  ∀ parser : HttpRequestParser State, ∃ after, play memory p tr parser = some after ∧
    after.m_data = f parser.m_data ∧ after.m_error = parser.m_error

theorem Does.append (first : Does memory State p tr f) (second : Does memory State q tr' g)
    (next : p + tr.length = q) : Does memory State p (tr ++ tr') (fun r => g (f r)) := by
  subst next
  intro parser
  obtain ⟨next, played, data, error⟩ := first parser
  obtain ⟨after, played', data', error'⟩ := second next
  refine ⟨after, ?_, ?_, error'.trans error⟩
  · rw [play_append, played, Option.bind_some, played']
  · rw [data', data]

theorem does_nothing (memory : Memory) (State : Type) (p : Nat) : Does memory State p [[]] id :=
  fun parser => ⟨parser, rfl, rfl, rfl⟩

theorem sizeSub_add {k n : Nat} : sizeSub (k + n) k = n := by
  rw [sizeSub_of_le (Nat.le_add_right k n), Nat.add_sub_cancel_left]

/-- An action on the first byte of a word, and the actions behind the word. -/
theorem Does.word {last : List Action} (some_byte : w ≠ []) (unbroken : a ≠ .done)
    (acts : ∀ parser : HttpRequestParser State, ∃ next, parser.act memory p a = some next ∧
      ∃ after, play memory (p + w.length) [last] next = some after ∧
        after.m_data = f parser.m_data ∧ after.m_error = parser.m_error) :
    Does memory State p (marks a w ++ [last]) f := by
  intro parser
  obtain ⟨next, opened, after, closed, kept⟩ := acts parser
  refine ⟨after, ?_, kept⟩
  rw [play_append, play_marks _ _ some_byte opened unbroken, Option.bind_some, length_marks, closed]

theorem method_does (State : Type) {method : HttpMethod} (registered : method ≠ .INVALID_METHOD)
    (there : memory.Holds p (httpMethodToString method ++ [32])) :
    Does memory State p (marks .mark (httpMethodToString method) ++ [[.requestMethod]])
      (fun r => { r with m_method := method }) := by
  have some_byte : httpMethodToString method ≠ [] := by cases method <;> decide
  refine Does.word some_byte (by decide) fun parser => ⟨_, rfl, ?_⟩
  simp only [play, perform, act, onRequestMethod, charsToHttpMethod_eq registered there,
    Option.bind_some, reduceCtorEq, ↓reduceIte]
  exact ⟨_, rfl, rfl, rfl⟩

theorem fragment_does (State : Type) (some_byte : w ≠ []) (there : memory.Holds p w)
    (short : w.length < 2 ^ 63) :
    Does memory State p (marks .mark w ++ [[.fragment]]) (fun r => { r with m_fragment := w }) := by
  refine Does.word some_byte (by decide) fun parser => ⟨_, rfl, ?_⟩
  simp only [play, perform, act, onRequestFragment, sizeSub_add, there.string short,
    Option.map_some, Option.bind_some, reduceCtorEq, ↓reduceIte]
  exact ⟨_, rfl, rfl, rfl⟩

/-- The text of a version. -/
def versionText (v : UInt8) : Bytes :=
  bytes "HTTP/" ++ HttpRequest.decimal (v >>> 4).toNat ++ bytes "." ++
    HttpRequest.decimal (v &&& 0x0F).toNat

theorem version_does (State : Type) {v : UInt8} (known : v = 0x10 ∨ v = 0x11)
    (there : memory.Holds p (versionText v)) :
    Does memory State p (marks .mark (versionText v) ++ [[.httpVersion]])
      (fun r => { r with m_version := v }) := by
  have some_byte : versionText v ≠ [] := by rcases known with rfl | rfl <;> decide
  have compared : ∀ s : Bytes, strncmpEq (fun i => memory.byte (p + i)) (literal s) 0
      (versionText v).length =
        strncmpEq (literal (versionText v)) (literal s) 0 (versionText v).length := by
    intro s
    refine strncmpEq_congr (fun j less => ?_) fun _ _ => rfl
    rw [Nat.zero_add]
    exact Memory.holds_iff.mp there j less
  refine Does.word some_byte (by decide) fun parser => ⟨_, rfl, ?_⟩
  simp only [play, perform, act, onRequestVersion, sizeSub_add, compared]
  rcases known with rfl | rfl
  · have newer : strncmpEq (literal (versionText 0x10)) (literal (bytes "HTTP/1.1")) 0
        (versionText 0x10).length = false := by decide
    have older : strncmpEq (literal (versionText 0x10)) (literal (bytes "HTTP/1.0")) 0
        (versionText 0x10).length = true := by decide
    simp only [newer, older, Bool.false_eq_true, Option.bind_some, reduceCtorEq, ↓reduceIte]
    exact ⟨_, rfl, rfl, rfl⟩
  · have newer : strncmpEq (literal (versionText 0x11)) (literal (bytes "HTTP/1.1")) 0
        (versionText 0x11).length = true := by decide
    simp only [newer, Option.bind_some, reduceCtorEq, ↓reduceIte]
    exact ⟨_, rfl, rfl, rfl⟩

/-! ### The target -/

theorem target_does (State : Type) {path query : Bytes} (some_path : path ≠ [])
    (there : memory.Holds p path)
    (asked : query ≠ [] → memory.Holds (p + path.length + 1) query)
    (short : path.length < 2 ^ 63) (short_query : query.length < 2 ^ 63) :
    Does memory State p (Http11.targetTrace path query ++ [Http11.targetLast query])
      (fun r => { r with m_path := path, m_query := if query = [] then r.m_query else query }) := by
  by_cases empty : query = []
  · simp only [Http11.targetTrace, Http11.targetLast, empty, ↓reduceIte, List.append_nil]
    refine Does.word some_path (by decide) fun parser => ⟨_, rfl, ?_⟩
    simp only [play, perform, act, onRequestPath, sizeSub_add, there.string short,
      Option.map_some, Option.bind_some, reduceCtorEq, ↓reduceIte]
    exact ⟨_, rfl, rfl, rfl⟩
  · simp only [Http11.targetTrace, Http11.targetLast, empty, ↓reduceIte]
    have located : Does memory State p (marks .mark path ++ [[.requestPath]])
        (fun r => { r with m_path := path }) := by
      refine Does.word some_path (by decide) fun parser => ⟨_, rfl, ?_⟩
      simp only [play, perform, act, onRequestPath, sizeSub_add, there.string short,
        Option.map_some, Option.bind_some, reduceCtorEq, ↓reduceIte]
      exact ⟨_, rfl, rfl, rfl⟩
    have queried : Does memory State (p + path.length + 1)
        (marks .startQuery query ++ [[.queryString, .requestUri]])
        (fun r => { r with m_query := query }) := by
      refine Does.word empty (by decide) fun parser => ⟨_, rfl, ?_⟩
      simp only [play, perform, act, onRequestQuery, sizeSub_add, (asked empty).string short_query,
        Option.map_some, Option.bind_some, reduceCtorEq, ↓reduceIte]
      exact ⟨_, rfl, rfl, rfl⟩
    have offset :
        p + (marks .mark path ++ [[Action.requestPath]]).length = p + path.length + 1 := by
      rw [List.length_append, length_marks, List.length_singleton, Nat.add_assoc]
    simpa only [List.append_assoc, List.cons_append, List.nil_append]
      using located.append queried offset

/-- The target up to the blank behind it. -/
theorem uri_does (State : Type) {path query fragment : Bytes} (some_path : path ≠ [])
    (there : memory.Holds p (Http11.uriText path query fragment))
    (short : (Http11.uriText path query fragment).length < 2 ^ 63) :
    Does memory State p (Http11.uriTrace path query fragment ++ [Http11.uriLast query fragment])
      (fun r => { r with
        m_path := path
        m_query := if query = [] then r.m_query else query
        m_fragment := if fragment = [] then r.m_fragment else fragment }) := by
  rw [Http11.uriText, List.length_append, List.length_append] at short
  obtain ⟨front, back⟩ := Memory.holds_append.mp there
  obtain ⟨located, asked⟩ := Memory.holds_append.mp front
  have short_query : query.length < 2 ^ 63 := by
    split at short
    case isTrue empty => rw [empty]; decide
    case isFalse => rw [List.length_cons] at short; omega
  have target := target_does State some_path located
    (fun some_query => by
      rw [if_neg some_query] at asked
      exact (Memory.holds_cons.mp asked).2) (by omega) short_query
  by_cases empty : fragment = []
  · simpa only [Http11.uriTrace, Http11.uriLast, empty, ↓reduceIte, List.append_nil] using target
  · simp only [Http11.uriTrace, Http11.uriLast, empty, ↓reduceIte]
    rw [if_neg empty] at back short
    rw [List.length_cons] at short
    have placed := fragment_does State empty (Memory.holds_cons.mp back).2 (by omega)
    have offset : p + (Http11.targetTrace path query ++ [Http11.targetLast query]).length =
        p + (path ++ if query = [] then [] else 63 :: query).length + 1 := by
      rw [List.length_append, Http11.targetTrace, List.length_append, length_marks,
        List.length_singleton, List.length_append]
      split
      · omega
      · rw [List.length_cons, List.length_cons, length_marks]
        omega
    simpa only [List.append_assoc, List.cons_append, List.nil_append]
      using target.append placed offset

/-! ### Header lines -/

/-- The value of a line, with the name where the parser has it. -/
theorem value_does {name value : Bytes} (some_name : name ≠ []) (named : memory.Holds p name)
    (there : memory.Holds q value) (short : name.length < 2 ^ 63)
    (short_value : value.length < 2 ^ 63)
    (field_start : parser.mParser.field_start = p)
    (field_len : parser.mParser.field_len = name.length) :
    ∃ after, play memory q
        (marks .startValue value ++ [Line.valueLast ⟨name, false, value⟩, []]) parser = some after ∧
      after.m_data = parser.m_data.setHeader name value ∧ after.m_error = parser.m_error := by
  have some_length : name.length ≠ 0 := fun none_left =>
    some_name (List.length_eq_zero_iff.mp none_left)
  by_cases empty : value = []
  · subst empty
    have nothing : memory.string q 0 = some [] := Memory.Holds.string there (by decide)
    simp only [marks, Line.valueLast, ↓reduceIte, List.nil_append, play, perform, act,
      onRequestHttpField, Option.bind_some, reduceCtorEq, field_start, field_len, some_length,
      named.string short, sizeSub_of_le (Nat.le_refl q), Nat.sub_self, nothing, Option.map_some]
    exact ⟨_, rfl, rfl, rfl⟩
  · rw [play_append, play_marks _ _ empty rfl (by decide), Option.bind_some, length_marks]
    simp only [Line.valueLast, empty, ↓reduceIte, play, perform, act, onRequestHttpField,
      Option.bind_some, reduceCtorEq, field_start, field_len, some_length, named.string short,
      sizeSub_add, there.string short_value, Option.map_some]
    exact ⟨_, rfl, rfl, rfl⟩

theorem line_does (State : Type) {l : Line} (some_name : l.name ≠ [])
    (there : memory.Holds p l.text)
    (short : l.text.length < 2 ^ 63) :
    Does memory State p l.trace (fun r => r.setHeader l.name l.value) := by
  obtain ⟨name, blank, value⟩ := l
  simp only [Line.text, List.length_append, List.length_cons] at short
  obtain ⟨named, rest⟩ := Memory.holds_append.mp there
  have rest := (Memory.holds_cons.mp rest).2
  obtain ⟨front, -⟩ := Memory.holds_append.mp rest
  obtain ⟨-, valued⟩ := Memory.holds_append.mp front
  intro parser
  have opened := play_marks (p := p) (a := .startField) memory parser
    some_name rfl (by decide)
  dsimp only at some_name opened valued
  simp only [Line.trace, Line.valueTrace]
  rw [play_append, opened, Option.bind_some, length_marks]
  simp only [play, perform, act, Option.bind_some, reduceCtorEq, ↓reduceIte, sizeSub_add]
  cases blank with
  | false =>
      simp only [Bool.false_eq_true, ↓reduceIte, List.length_nil, Nat.add_zero,
        List.nil_append] at valued ⊢
      exact value_does some_name named valued (by omega) (by omega) rfl rfl
  | true =>
      simp only [↓reduceIte, List.length_singleton] at valued ⊢
      simp only [List.cons_append, List.nil_append, play, perform, act, Option.bind_some,
        reduceCtorEq, ↓reduceIte]
      exact value_does some_name named valued (by omega) (by omega) rfl rfl

/-- The headers of a list of lines. -/
def setHeaders (lines : List Line) (r : HttpRequest) : HttpRequest :=
  lines.foldl (fun r l => r.setHeader l.name l.value) r

theorem length_trace {l : Line} : l.trace.length = l.text.length := by
  obtain ⟨name, blank, value⟩ := l
  simp only [Line.trace, Line.text, Line.valueTrace, List.length_append, length_marks,
    List.length_cons, List.length_nil]
  cases blank <;> simp only [Bool.false_eq_true, ↓reduceIte, List.length_cons, List.length_nil]

theorem lines_do (State : Type) {lines : List Line} (names : ∀ l ∈ lines, l.name ≠ [])
    (there : memory.Holds p (lines.flatMap Line.text))
    (short : (lines.flatMap Line.text).length < 2 ^ 63) :
    Does memory State p (lines.flatMap Line.trace) (setHeaders lines) := by
  induction lines generalizing p with
  | nil => exact fun parser => ⟨parser, rfl, rfl, rfl⟩
  | cons l lines ih =>
      rw [List.flatMap_cons] at there short ⊢
      rw [List.length_append] at short
      obtain ⟨first, rest⟩ := Memory.holds_append.mp there
      have line := line_does State (names l List.mem_cons_self) first (by omega)
      have later := ih (fun x member => names x (List.mem_cons_of_mem _ member)) rest (by omega)
      exact line.append later (by rw [length_trace])

theorem length_targetTrace {path query : Bytes} :
    (Http11.targetTrace path query).length =
      (path ++ if query = [] then [] else 63 :: query).length := by
  rw [Http11.targetTrace, List.length_append, List.length_append, length_marks]
  split
  · rfl
  · rw [List.length_cons, List.length_cons, length_marks]

theorem length_uriTrace {path query fragment : Bytes} :
    (Http11.uriTrace path query fragment).length =
      (Http11.uriText path query fragment).length := by
  rw [Http11.uriTrace, Http11.uriText, List.length_append, length_targetTrace]
  refine Eq.trans (congrArg _ ?_) List.length_append.symm
  split
  · rfl
  · rw [List.length_cons, List.length_cons, length_marks]

/-- The whole request up to the last byte of its headers. -/
theorem request_does {method : HttpMethod} {v : UInt8} {path query fragment : Bytes}
    {lines : List Line} (registered : method ≠ .INVALID_METHOD) (known : v = 0x10 ∨ v = 0x11)
    (some_path : path ≠ []) (names : ∀ l ∈ lines, l.name ≠ [])
    (there : memory.Holds p (Http11.requestText (httpMethodToString method)
      (Http11.uriText path query fragment) (versionText v) lines))
    (short : (Http11.requestText (httpMethodToString method)
      (Http11.uriText path query fragment) (versionText v) lines).length < 2 ^ 63) :
    Does memory State p
      (Http11.requestTrace (httpMethodToString method) path query fragment (versionText v) lines)
      (fun r => setHeaders lines { r with
        m_method := method
        m_version := v
        m_path := path
        m_query := if query = [] then r.m_query else query
        m_fragment := if fragment = [] then r.m_fragment else fragment }) := by
  simp only [Http11.requestText, List.length_append, List.length_cons] at short
  obtain ⟨named, there⟩ := Memory.holds_append.mp there
  obtain ⟨blank, there⟩ := Memory.holds_cons.mp there
  obtain ⟨located, there⟩ := Memory.holds_append.mp there
  obtain ⟨-, there⟩ := Memory.holds_cons.mp there
  obtain ⟨versioned, there⟩ := Memory.holds_append.mp there
  obtain ⟨-, there⟩ := Memory.holds_cons.mp there
  obtain ⟨-, there⟩ := Memory.holds_cons.mp there
  obtain ⟨headers, -⟩ := Memory.holds_append.mp there
  have named : memory.Holds p (httpMethodToString method ++ [32]) :=
    Memory.holds_append.mpr ⟨named, Memory.holds_cons.mpr ⟨blank, rfl⟩⟩
  have first := method_does State registered named
  have second := uri_does State some_path located (by omega)
  have third := version_does State known versioned
  have fourth := lines_do State names headers (by omega)
  have fed := does_nothing memory State
    (p + (httpMethodToString method).length + 1 +
      (Http11.uriText path query fragment).length + 1 + (versionText v).length + 1)
  have last : Does memory State (p + (httpMethodToString method).length + 1 +
      (Http11.uriText path query fragment).length + 1 + (versionText v).length + 1 + 1 +
      (lines.flatMap Line.trace).length) [[.startField]] id := fun parser => ⟨_, rfl, rfl, rfl⟩
  have headers := fed.append (fourth.append last rfl) rfl
  have version := third.append headers (by simp only [List.length_append, length_marks]; rfl)
  have target := second.append version (by
    simp only [List.length_append, length_uriTrace]
    rfl)
  have whole := first.append target (by simp only [List.length_append, length_marks]; rfl)
  simpa only [Http11.requestTrace, List.append_assoc, List.cons_append, List.nil_append,
    id_eq] using whole

end HttpRequestParser

end CorReactor.Http
