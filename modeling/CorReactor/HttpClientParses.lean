import CorReactor.Http11Parses
import CorReactor.HttpClientParser
import CorReactor.RagelEndings
import Mathlib.Data.List.TakeWhile

set_option autoImplicit false

/-! The responses that the machine of the client reads, with their actions. -/

namespace CorReactor.HttpClient

open Ragel Ragel.Expr
open CorReactor.Http (Bytes bytes lower folded)
open CorReactor.Http11 (digit space)

/-! ### Header lines -/

/-- A header line with a blank in front of its value. -/
structure Field where
  name : Bytes
  value : Bytes

/-- An action on the first byte of a word. -/
def marks (a : Action) : Bytes → List (List Action)
  | [] => []
  | _ :: w => [a] :: List.replicate w.length []

namespace Field

def text (l : Field) : Bytes := l.name ++ 58 :: 32 :: (l.value ++ [13, 10])

/-- The actions of a line, with those behind its value. -/
def trace (l : Field) (last : List Action) : List (List Action) :=
  marks .startField l.name ++ [.writeField] :: [.startValue] ::
    (marks .startValue l.value ++ [last, []])

/-- Within the grammar; the value begins with no blank. -/
structure WellFormed (l : Field) : Prop where
  name : l.name ≠ []
  tokens : ∀ c ∈ l.name, token c = true
  some_value : l.value ≠ []
  value : ∀ c ∈ l.value, c ≠ 13 ∧ c ≠ 10
  first : ∀ c ∈ l.value.head?, space c = false

end Field

variable {l : Field} {w : Bytes} {c : UInt8}

theorem crlf_round : crlf.Round [13, 10] [[], []] := by
  intro n
  exact ⟨[[], []], ⟨13, [], 10, [], [], [], rfl, rfl, _, _, .cons rfl rfl (.nil _), rfl, rfl,
    fun x => rfl⟩, rfl⟩

/-- A word of a class between two actions. -/
theorem plus_parses {p : UInt8 → Bool} {a a' : Action} (each : ∀ x ∈ c :: w, p x = true) :
    (Expr.leave (.enter (plus (.chars p)) a) a').Parses (c :: w)
      ([a] :: List.replicate w.length []) [a'] (fun x => p x = false) := by
  have accepted : (Expr.machine (plus (.chars p) : Grammar) 0).accepts (c :: w) = true := by
    refine Machine.accepts_cat (u := [c]) (Machine.accepts_chars (each c List.mem_cons_self)) ?_
    exact Machine.accepts_star fun x member =>
      Machine.accepts_chars (each x (List.mem_cons_of_mem _ member))
  refine (Parses.marked rfl accepted).mono fun x other => ?_
  change (p x || p x) = false
  rw [other]
  rfl

theorem fieldValue_parses (c : UInt8) (w : Bytes) :
    fieldValue.Parses (c :: w) ([.startValue] :: List.replicate w.length []) [.writeValue]
      (fun _ => False) := by
  have accepted : (Expr.machine (.star (.chars fun _ => true) : Grammar) 0).accepts (c :: w) =
      true := Machine.accepts_star fun x _ => Machine.accepts_chars rfl
  exact (Parses.marked rfl accepted).mono fun _ => False.elim

/-- The blank may be the value's first byte. -/
theorem blank_parses {f : Grammar} {a' : Action} (unread : space c = false)
    (both : f.Parses (32 :: c :: w) ([.startValue] :: [] :: List.replicate w.length []) [a']
      (fun _ => False))
    (later : f.Parses (c :: w) ([.startValue] :: List.replicate w.length []) [a']
      (fun _ => False)) :
    (seq [.star (.chars space), f]).Parses (32 :: c :: w)
      ([.startValue] :: [.startValue] :: List.replicate w.length []) [a'] (fun _ => False) := by
  have nothing : (.star (.chars space) : Grammar).Parses [] [] [] (fun _ => False) :=
    (Parses.silent rfl rfl).mono fun _ => False.elim
  have one : (.star (.chars space) : Grammar).Parses [32] [[]] [] (· = c) := by
    refine (Parses.silent rfl (by decide)).mono ?_
    rintro x rfl
    exact unread
  exact Parses.overlap nothing one both later

theorem lit_parses (b : UInt8) : (Expr.chars (· == b) : Grammar).Parses [b] [[]] []
    (fun _ => True) := Parses.chars (beq_self_eq_true b)

theorem token_apart {e : Grammar} (tokens : ∀ x ∈ w, token x = true) :
    ∀ x ∈ w, (Expr.cat (lit ":") e).begins x = false := by
  intro x member
  have other : x ≠ 58 := by
    rintro rfl
    exact absurd (tokens 58 member) (by decide)
  change ((x == 58) || (false && e.begins x)) = false
  rw [beq_false_of_ne other]
  rfl

theorem crlf_apart (other : c ≠ 13 ∧ c ≠ 10) : crlf.begins c = false := by
  change ((c == 13) || (false && _) || (c == 10)) = false
  rw [beq_false_of_ne other.1, beq_false_of_ne other.2]
  rfl

theorem token_line (held : token c = true) : c ≠ 13 ∧ c ≠ 10 := by
  constructor <;> rintro rfl <;> exact absurd held (by decide)

theorem digit_line (decimal : digit c = true) : c ≠ 32 ∧ c ≠ 13 ∧ c ≠ 10 := by
  refine ⟨?_, ?_, ?_⟩ <;> rintro rfl <;> exact absurd decimal (by decide)

theorem digit_space (decimal : digit c = true) : space c = false := by
  rw [digit, Http11.within, Bool.and_eq_true, decide_eq_true_iff, decide_eq_true_iff,
    UInt8.le_iff_toNat_le, UInt8.le_iff_toNat_le] at decimal
  have above : ¬c ≤ 13 := by
    rw [UInt8.le_iff_toNat_le]
    exact Nat.not_le_of_lt (Nat.lt_of_lt_of_le (by decide) decimal.1)
  have other : c ≠ 32 := by
    rintro rfl
    exact absurd decimal.1 (by decide)
  rw [space, Http11.within, decide_eq_false above, Bool.and_false, Bool.false_or,
    beq_false_of_ne other]

/-- A property of the bytes of a word, by running through them. -/
theorem forall_mem_of_all {p : UInt8 → Prop} [DecidablePred p] {w : Bytes}
    (all : w.all (fun x => decide (p x)) = true) : ∀ x ∈ w, p x :=
  fun x member => of_decide_eq_true (List.all_eq_true.mp all x member)

theorem fields_ends (formed : l.WellFormed) : fields.Ends l.text (l.trace [.writeValue]) [] := by
  obtain ⟨name, value⟩ := l
  obtain ⟨some_name, tokens, some_value, plain, first⟩ := formed
  dsimp only at some_name tokens some_value plain first
  obtain ⟨c, w, rfl⟩ := List.exists_cons_of_ne_nil some_name
  obtain ⟨d, v, rfl⟩ := List.exists_cons_of_ne_nil some_value
  have value := blank_parses (first d rfl) (fieldValue_parses 32 (d :: v)) (fieldValue_parses d v)
  have colon := ((lit_parses 58).mono fun _ _ => trivial).cat (Or.inl ⟨rfl, rfl⟩) value (Or.inl rfl)
  have key : fieldName.Parses (c :: w) ([.startField] :: List.replicate w.length []) [.writeField]
      (· = 58) := (plus_parses tokens).mono (by
    rintro x rfl
    decide)
  have named := key.cat (Or.inr (token_apart tokens)) colon (Or.inr rfl)
  have unended : ∀ x ∈ c :: (w ++ 58 :: 32 :: d :: v), crlf.begins x = false := by
    intro x member
    refine crlf_apart ?_
    rcases List.mem_append.mp (List.cons_append .. ▸ member : x ∈ c :: w ++ 58 :: 32 :: d :: v)
      with inside | inside
    · exact token_line (tokens x inside)
    · rcases List.mem_cons.mp inside with rfl | inside
      · decide
      · rcases List.mem_cons.mp inside with rfl | inside
        · decide
        · exact plain x inside
  have line : (seq [fieldName, lit ":", .star (.chars space), fieldValue]).Parses
      (c :: (w ++ 58 :: 32 :: d :: v))
      ([.startField] :: (List.replicate w.length [] ++ [.writeField] :: [.startValue] ::
        [.startValue] :: List.replicate v.length [])) [.writeValue] (fun _ => False) := named
  have round : fields.Round _ _ := Round.guard line unended rfl crlf_round (Or.inr rfl)
  have ends := round.ends
  simpa only [Field.text, Field.trace, marks, List.append_assoc, List.cons_append,
    List.append_nil, List.nil_append] using ends

/-! ### The other kinds of header lines -/

theorem rejects_caseless {s : String} {name : Bytes} (some_byte : bytes s ≠ [])
    (plain : ∀ c ∈ bytes s, c ≠ 0) (tokens : ∀ c ∈ name, token c = true)
    (other : folded name ≠ folded (bytes s)) :
    ((caseless s).machine 0).accepts name = false := by
  refine Bool.eq_false_iff.mpr fun accepted => other ?_
  have some_class : (bytes s).map (fun b => fun c => lower c == lower b) ≠ [] := by
    rw [ne_eq, List.map_eq_nil_iff]
    exact some_byte
  have same : caseless s = seq (((bytes s).map fun b => fun c => lower c == lower b).map
      (Expr.chars (A := Action))) := by
    rw [caseless, List.map_map]
    rfl
  rw [same] at accepted
  have each := forall₂_of_accepts some_class accepted
  rw [List.forall₂_map_right_iff] at each
  have bytes_plain : ∀ c ∈ name, c ≠ 0 := by
    rintro c member rfl
    exact absurd (tokens 0 member) (by decide)
  have whole : ∀ {w : Bytes}, (∀ c ∈ w, c ≠ 0) → w.takeWhile (· ≠ 0) = w := fun free =>
    List.takeWhile_eq_self_iff.mpr fun c member => decide_eq_true (free c member)
  rw [folded, folded, whole bytes_plain, whole plain]
  clear same accepted some_class other plain bytes_plain tokens some_byte
  generalize bytes s = word at each ⊢
  induction each with
  | nil => rfl
  | cons held _ ih => rw [List.map_cons, List.map_cons, ih, beq_iff_eq.mp held]

/-- A kind of header whose name is another one only does what the line does. -/
theorem marked_goes {s : String} {e : Grammar} (some_byte : bytes s ≠ [])
    (plain : ∀ c ∈ bytes s, c ≠ 0) (unread : (caseless s).reads 58 = false)
    (silent : (caseless s).actions = []) (formed : l.WellFormed)
    (other : folded l.name ≠ folded (bytes s)) :
    ∃ first, (first = [] ∨ first = [.startField]) ∧
      (Expr.cat (.leave (.enter (caseless s) .startField) .writeField) (.cat (lit ":") e)).Goes
        l.text (first :: List.replicate (l.text.length - 1) []) [] := by
  have rejected := rejects_caseless some_byte plain formed.tokens other
  obtain ⟨name, value⟩ := l
  obtain ⟨c, w, rfl⟩ := List.exists_cons_of_ne_nil formed.name
  exact goes_marked silent rejected (token_apart formed.tokens) rfl unread

theorem transfer_goes (formed : l.WellFormed)
    (other : folded l.name ≠ folded (bytes "Transfer-Encoding")) :
    ∃ first, (first = [] ∨ first = [.startField]) ∧ transferEncodingChunked.Goes l.text
      (first :: List.replicate (l.text.length - 1) []) [] :=
  marked_goes (by decide) (forall_mem_of_all (by decide)) (by decide) (by decide) formed other

theorem length_goes (formed : l.WellFormed)
    (other : folded l.name ≠ folded (bytes "Content-Length")) :
    ∃ first, (first = [] ∨ first = [.startField]) ∧ contentLength.Goes l.text
      (first :: List.replicate (l.text.length - 1) []) [] :=
  marked_goes (by decide) (forall_mem_of_all (by decide)) (by decide) (by decide) formed other

theorem close_goes (formed : l.WellFormed)
    (other : folded l.name ≠ folded (bytes "Connection")) :
    connClose.Goes l.text (List.replicate l.text.length []) [] := by
  have rejected := rejects_caseless (by decide) (forall_mem_of_all (by decide)) formed.tokens other
  exact goes_word (by decide) rejected (token_apart formed.tokens) rfl (by decide)

/-- A line of a kind of its own and of the general one. -/
theorem messageHeader_ends {last W : List Action} (formed : l.WellFormed)
    (other : folded l.name ≠ folded (bytes "Transfer-Encoding"))
    (rest : (Expr.alt connClose (.alt contentLength fields)).Ends l.text (l.trace last) W) :
    messageHeader.Ends l.text (l.trace last) W := by
  obtain ⟨first, either, goes⟩ := transfer_goes formed other
  obtain ⟨name, value⟩ := l
  obtain ⟨c, w, rfl⟩ := List.exists_cons_of_ne_nil formed.name
  exact rest.altSame either goes

theorem general_ends (formed : l.WellFormed)
    (other : folded l.name ≠ folded (bytes "Content-Length")) :
    (Expr.alt contentLength fields).Ends l.text (l.trace [.writeValue]) [] := by
  obtain ⟨first, either, goes⟩ := length_goes formed other
  have ends := fields_ends formed
  obtain ⟨name, value⟩ := l
  obtain ⟨c, w, rfl⟩ := List.exists_cons_of_ne_nil formed.name
  exact ends.altSame either goes

/-- A line whose name means nothing to the machine. -/
theorem plain_ends (formed : l.WellFormed)
    (transfer : folded l.name ≠ folded (bytes "Transfer-Encoding"))
    (connection : folded l.name ≠ folded (bytes "Connection"))
    (length : folded l.name ≠ folded (bytes "Content-Length")) :
    messageHeader.Ends l.text (l.trace [.writeValue]) [] :=
  messageHeader_ends formed transfer
    ((general_ends formed length).altQuiet (close_goes formed connection))

/-! ### The lines that are added -/

def connectionLine (close : Bool) : Field :=
  ⟨bytes "connection", bytes (if close then "close" else "keep-alive")⟩

def lengthLine (digits : Bytes) : Field := ⟨bytes "content-length", digits⟩

/-- The name, the colon and the blank of a connection line. -/
theorem connection_goes {e : Grammar} {v : Bytes} {tr : List (List Action)} {W : List Action}
    (some_word : e.nullable = false) (unread : space c = false)
    (apart : e.begins 32 = false)
    (goes : e.Goes (c :: v) tr W) :
    (Expr.cat (caseless "Connection") (.cat (lit ":") (.cat (.star (.chars space)) e))).Goes
      (bytes "connection" ++ 58 :: 32 :: c :: v) (List.replicate 12 [] ++ tr) W := by
  have blank : (.star (.chars space) : Grammar).Parses [32] [[]] [] (· = c) := by
    refine (Parses.silent rfl (by decide)).mono ?_
    rintro x rfl
    exact unread
  have spaced := blank.goes (Or.inr (by
    intro x member
    rw [List.mem_singleton.mp member]
    exact apart)) some_word goes
  have colon := ((lit_parses 58).mono fun _ _ => trivial).goes
    (f := .cat (.star (.chars space)) e) (Or.inl ⟨rfl, rfl⟩) some_word spaced
  have named : (caseless "Connection").Parses (bytes "connection") (List.replicate 10 []) []
      (· = 58) := by
    refine (Parses.silent rfl (by decide)).mono ?_
    rintro x rfl
    decide
  exact named.goes (Or.inr (token_apart (forall_mem_of_all (by decide)))) rfl colon

theorem keep_goes : connClose.Goes (connectionLine false).text
    (List.replicate (connectionLine false).text.length []) [] := by
  have dies : (seq [caseless "close", .leave crlf .writeConnectionClose] : Grammar).Goes
      (bytes "keep-alive\r\n") (List.replicate 12 []) [] := goes_of_begins (by decide)
  exact connection_goes rfl (by decide) (by decide) dies

theorem shut_goes : connClose.Goes (connectionLine true).text
    (List.replicate (connectionLine true).text.length []) [.writeConnectionClose] := by
  have word : (caseless "close").Parses (bytes "close") (List.replicate 5 []) [] (· = 13) := by
    refine (Parses.silent rfl (by decide)).mono ?_
    rintro x rfl
    decide
  have ended := word.ends (f := .leave crlf .writeConnectionClose)
    (Or.inr (forall_mem_of_all (by decide))) rfl
    crlf_round.ends.leave (Or.inl rfl)
  exact connection_goes (e := seq [caseless "close", .leave crlf .writeConnectionClose]) rfl
    (by decide) (by decide) ended.goes

theorem connectionLine_formed (close : Bool) : (connectionLine close).WellFormed := by
  have some_name : bytes "connection" ≠ [] := by decide
  have tokens : ∀ c ∈ bytes "connection", token c = true := forall_mem_of_all (by decide)
  have solid : ∀ c ∈ (connectionLine close).value, space c = false := by
    cases close <;> exact forall_mem_of_all (by decide)
  have plain : ∀ c ∈ (connectionLine close).value, c ≠ 13 ∧ c ≠ 10 := by
    cases close <;> exact forall_mem_of_all (by decide)
  refine ⟨some_name, tokens, ?_, plain, fun c head => solid c (List.mem_of_mem_head? head)⟩
  cases close <;> decide

/-- What waits behind a connection line. -/
def waits (close : Bool) : List Action := if close then [.writeConnectionClose] else []

theorem connection_ends (close : Bool) :
    messageHeader.Ends (connectionLine close).text ((connectionLine close).trace [.writeValue])
      (waits close) := by
  have formed := connectionLine_formed close
  refine messageHeader_ends formed ?_ ?_
  · cases close <;> decide
  · have general := general_ends formed (by cases close <;> decide)
    cases close with
    | false => exact general.altQuiet keep_goes
    | true =>
        have both := general.alt shut_goes
        rw [← general.length, union_nils] at both
        exact both

theorem lengthLine_formed {digits : Bytes} (some_digit : digits ≠ [])
    (decimal : ∀ c ∈ digits, digit c = true) : (lengthLine digits).WellFormed := by
  have some_name : bytes "content-length" ≠ [] := by decide
  have tokens : ∀ c ∈ bytes "content-length", token c = true := forall_mem_of_all (by decide)
  refine ⟨some_name, tokens, some_digit, fun c member => (digit_line (decimal c member)).2,
    fun c head => digit_space (decimal c (List.mem_of_mem_head? head))⟩

/-- What the kind of header for lengths does on a line. -/
def lengthTrace (digits : Bytes) : List (List Action) :=
  marks .startField (bytes "content-length") ++ [.writeField] :: [] ::
    (marks .startValue digits ++ [[.writeContentLen, .writeValue], []])

theorem contentLength_ends {digits : Bytes} (some_digit : digits ≠ [])
    (decimal : ∀ c ∈ digits, digit c = true) :
    contentLength.Ends (lengthLine digits).text (lengthTrace digits) [] := by
  obtain ⟨d, v, rfl⟩ := List.exists_cons_of_ne_nil some_digit
  have number : (Expr.leave (.leave (.enter (plus (.chars digit)) .startValue) .writeContentLen)
      .writeValue : Grammar).Parses (d :: v) ([.startValue] :: List.replicate v.length [])
      [.writeContentLen, .writeValue] (fun x => x = 13) :=
    ((plus_parses decimal).leave (by decide)).mono (by
      rintro x rfl
      decide)
  have ended := number.ends (f := crlf)
    (Or.inr fun x member => crlf_apart (digit_line (decimal x member)).2) rfl crlf_round.ends
    (Or.inr rfl)
  have blank : (.star (.chars space) : Grammar).Parses [32] [[]] [] (· = d) := by
    refine (Parses.silent rfl (by decide)).mono ?_
    rintro x rfl
    exact digit_space (decimal x List.mem_cons_self)
  have spaced := blank.ends (Or.inr (by
    intro x member
    rw [List.mem_singleton.mp member]
    decide)) rfl ended (Or.inl rfl)
  have colon := ((lit_parses 58).mono fun _ _ => trivial).ends (Or.inl ⟨rfl, rfl⟩) rfl spaced
    (Or.inl rfl)
  have named : (Expr.leave (.enter (caseless "Content-Length") .startField) .writeField :
      Grammar).Parses (bytes "content-length") ([.startField] :: List.replicate 13 [])
      [.writeField] (· = 58) := by
    refine (Parses.marked (by decide) (by decide)).mono ?_
    rintro x rfl
    decide
  exact named.ends (Or.inr (token_apart (forall_mem_of_all (by decide)))) rfl colon (Or.inr rfl)

theorem lengthTrace_union (digits : Bytes) :
    List.zipWith (· ∪ ·) (lengthTrace digits) ((lengthLine digits).trace [.writeValue]) =
      (lengthLine digits).trace [.writeContentLen, .writeValue] := by
  have value : List.zipWith (· ∪ ·)
      (marks .startValue digits ++ [[.writeContentLen, .writeValue], []])
      (marks .startValue digits ++ [[.writeValue], []]) =
        marks .startValue digits ++ [[.writeContentLen, .writeValue], []] := by
    rw [List.zipWith_append rfl]
    congr 1
    cases digits with
    | nil => rfl
    | cons d v =>
        rw [marks, List.zipWith_cons_cons, List.zipWith_replicate, Nat.min_self]
        rfl
  have name : List.zipWith (· ∪ ·) (marks .startField (bytes "content-length"))
      (marks .startField (bytes "content-length")) =
        marks .startField (bytes "content-length") := by decide
  rw [lengthTrace, Field.trace, Field.trace, lengthLine, List.zipWith_append rfl, name,
    List.zipWith_cons_cons, List.zipWith_cons_cons, value]
  rfl

theorem length_ends {digits : Bytes} (some_digit : digits ≠ [])
    (decimal : ∀ c ∈ digits, digit c = true) :
    messageHeader.Ends (lengthLine digits).text
      ((lengthLine digits).trace [.writeContentLen, .writeValue]) [] := by
  have formed := lengthLine_formed some_digit decimal
  have names : folded (bytes "content-length") ≠ folded (bytes "Transfer-Encoding") ∧
      folded (bytes "content-length") ≠ folded (bytes "Connection") := by
    decide
  refine messageHeader_ends formed names.1 (Ends.altQuiet ?_ (close_goes formed names.2))
  have both := (fields_ends formed).alt (contentLength_ends some_digit decimal).goes
  rw [lengthTrace_union] at both
  exact both

/-! ### Responses -/

/-- A status line, without its end. -/
def statusText (version code reason : Bytes) : Bytes := version ++ 32 :: (code ++ 32 :: reason)

def statusTrace (version code reason : Bytes) : List (List Action) :=
  marks .mark version ++ [.httpVersion] :: (marks .mark code ++ [.statusCode] ::
    (marks .mark reason ++ [[.reasonPhrase], []]))

theorem blank_begins (e : Grammar) (other : c ≠ 32) :
    (Expr.cat (lit " ") e).begins c = false := by
  change ((c == 32) || (false && e.begins c)) = false
  rw [beq_false_of_ne other]
  rfl

theorem statusLine_round {version code reason : Bytes}
    (versioned : (httpVersion.machine 0).accepts version = true)
    (plain_version : ∀ c ∈ version, c ≠ 32 ∧ c ≠ 13 ∧ c ≠ 10)
    (some_code : code ≠ []) (decimal : ∀ c ∈ code, digit c = true) (some_reason : reason ≠ [])
    (plain : ∀ c ∈ reason, c ≠ 13 ∧ c ≠ 10) :
    statusLine.Round (statusText version code reason ++ [13, 10])
      (statusTrace version code reason) := by
  obtain ⟨v, version, rfl⟩ : ∃ v w, version = v :: w := by
    cases version with
    | nil => exact absurd versioned (by decide)
    | cons v w => exact ⟨v, w, rfl⟩
  obtain ⟨d, code, rfl⟩ := List.exists_cons_of_ne_nil some_code
  obtain ⟨r, reason, rfl⟩ := List.exists_cons_of_ne_nil some_reason
  have phrase : reasonPhrase.Parses (r :: reason) ([.mark] :: List.replicate reason.length [])
      [.reasonPhrase] (fun x => x = 10) :=
    (plus_parses fun x member => bne_iff_ne.mpr (plain x member).2).mono (by
      rintro x rfl
      rfl)
  have spaced := ((lit_parses 32).mono fun _ _ => trivial).cat (Or.inl ⟨rfl, rfl⟩) phrase
    (Or.inl rfl)
  have number : statusCode.Parses (d :: code) ([.mark] :: List.replicate code.length [])
      [.statusCode] (· = 32) := (plus_parses decimal).mono (by
    rintro x rfl
    decide)
  have coded := number.cat
    (Or.inr fun x member => blank_begins reasonPhrase (digit_line (decimal x member)).1) spaced
    (Or.inr rfl)
  have spaced' := ((lit_parses 32).mono fun _ _ => trivial).cat (Or.inl ⟨rfl, rfl⟩) coded
    (Or.inl rfl)
  have inner := Machine.accepts_enter.symm.trans (Machine.accepts_leave.symm.trans versioned)
  rw [machine_silent rfl _ 0] at inner
  have named : httpVersion.Parses (v :: version) ([.mark] :: List.replicate version.length [])
      [.httpVersion] (· = 32) := (Parses.marked rfl inner).mono (by
    rintro x rfl
    decide)
  have whole := named.cat
    (Or.inr fun x member => blank_begins _ (plain_version x member).1) spaced' (Or.inr rfl)
  have unended : ∀ x ∈ statusText (v :: version) (d :: code) (r :: reason),
      crlf.begins x = false := by
    intro x member
    refine crlf_apart ?_
    rcases List.mem_append.mp member with inside | inside
    · exact (plain_version x inside).2
    · rcases List.mem_cons.mp inside with rfl | inside
      · decide
      · rcases List.mem_append.mp inside with inside | inside
        · exact (digit_line (decimal x inside)).2
        · rcases List.mem_cons.mp inside with rfl | inside
          · decide
          · exact plain x inside
  have line : (seq [httpVersion, lit " ", statusCode, lit " ", reasonPhrase]).Parses
      (v :: (version ++ 32 :: (d :: code ++ 32 :: r :: reason)))
      ([.mark] :: (List.replicate version.length [] ++ [.httpVersion] ::
        ([.mark] :: List.replicate code.length [] ++ [.statusCode] ::
          [.mark] :: List.replicate reason.length []))) [.reasonPhrase] (fun x => x = 10) := whole
  have round : statusLine.Round _ _ := Round.guard line unended rfl crlf_round (Or.inr rfl)
  simpa only [statusText, statusTrace, marks, List.append_assoc, List.cons_append,
    List.append_nil, List.nil_append] using round

/-! ### Header blocks -/

def lengthText : Option Bytes → Bytes
  | none => []
  | some digits => (lengthLine digits).text

/-- The actions of the length, if there is one, and of the empty line's first byte. -/
def endTrace (close : Bool) : Option Bytes → List (List Action)
  | none => [waits close]
  | some digits =>
      (waits close ∪ [.startField]) ::
        (((lengthLine digits).trace [.writeContentLen, .writeValue]).tail ++ [[]])

/-- Header lines, the added ones, and the empty line up to its last byte. -/
def headersText (lines : List Field) (close : Bool) (length : Option Bytes) : Bytes :=
  lines.flatMap Field.text ++ ((connectionLine close).text ++ (lengthText length ++ [13]))

def headersTrace (lines : List Field) (close : Bool) (length : Option Bytes) :
    List (List Action) :=
  lines.flatMap (Field.trace · [.writeValue]) ++
    ((connectionLine close).trace [.writeValue] ++ endTrace close length)

/-- Lines that mean nothing to the machine. -/
structure Plain (l : Field) : Prop extends l.WellFormed where
  transfer : folded l.name ≠ folded (bytes "Transfer-Encoding")
  connection : folded l.name ≠ folded (bytes "Connection")
  length : folded l.name ≠ folded (bytes "Content-Length")

theorem line_looping {last W W' : List Action} {x : List Action} {xs : List (List Action)}
    (formed : l.WellFormed)
    (ends : messageHeader.Ends l.text (l.trace last) W') (trace : l.trace last = x :: xs)
    (n k : Nat) :
    Machine.Looping (messageHeader.machine n) (crlf.machine k) W l.text ((W ∪ x) :: xs) W' := by
  rw [trace] at ends
  obtain ⟨name, value⟩ := l
  obtain ⟨c, w, rfl⟩ := List.exists_cons_of_ne_nil formed.name
  exact ends.looping (crlf_apart (token_line (formed.tokens c List.mem_cons_self))) rfl n k

theorem trace_cons (some_name : l.name ≠ []) (last : List Action) :
    l.trace last = [.startField] :: (l.trace last).tail := by
  obtain ⟨name, value⟩ := l
  obtain ⟨c, w, rfl⟩ := List.exists_cons_of_ne_nil some_name
  rfl

theorem lines_looping {lines : List Field} (plain : ∀ l ∈ lines, Plain l) (n k : Nat) :
    Machine.Looping (messageHeader.machine n) (crlf.machine k) [] (lines.flatMap Field.text)
      (lines.flatMap (Field.trace · [.writeValue])) [] := by
  induction lines with
  | nil => exact .nil
  | cons l lines ih =>
      obtain ⟨formed, transfer, connection, length⟩ := plain l List.mem_cons_self
      have trace := trace_cons formed.name [.writeValue]
      have first := line_looping (W := []) formed (plain_ends formed transfer connection length)
        trace n k
      rw [List.nil_union, ← trace] at first
      exact first.append (ih fun x member => plain x (List.mem_cons_of_mem l member))

theorem headers_complete {lines : List Field} (close : Bool) {length : Option Bytes}
    (plain : ∀ l ∈ lines, Plain l)
    (decimal : ∀ digits ∈ length, digits ≠ [] ∧ ∀ c ∈ digits, digit c = true) (n k : Nat) :
    ∃ raw, ((messageHeader.machine n).star.cat (crlf.machine k)).Completes
      (headersText lines close length) raw 10 [] ∧ Like raw (headersTrace lines close length) := by
  have formed := connectionLine_formed close
  have trace := trace_cons formed.name [.writeValue]
  have added := line_looping (W := []) formed (connection_ends close) trace n k
  rw [List.nil_union, ← trace] at added
  have both := (lines_looping plain n k).append added
  have ends {W : List Action} {w : Bytes} {ts : List (List Action)}
      (looping : Machine.Looping (messageHeader.machine n) (crlf.machine k) [] w ts W) :=
    looping.completes (c := 13) (d := 10) rfl (step_start messageHeader n (by decide)) rfl rfl rfl
      rfl
  cases length with
  | none =>
      have whole := ends both
      simpa only [headersText, headersTrace, lengthText, endTrace, List.append_assoc,
        List.nil_append] using whole
  | some digits =>
      obtain ⟨some_digit, each⟩ := decimal digits rfl
      have formed := lengthLine_formed some_digit each
      have counted := line_looping (W := waits close) formed (length_ends some_digit each)
        (trace_cons formed.name _) n k
      have whole := ends (both.append counted)
      simpa only [headersText, headersTrace, lengthText, endTrace, List.append_assoc,
        List.cons_append] using whole

/-- A response up to the last byte of its header block. -/
def responseText (version code reason : Bytes) (lines : List Field) (close : Bool)
    (length : Option Bytes) : Bytes :=
  statusText version code reason ++ [13, 10] ++ headersText lines close length

def responseTrace (version code reason : Bytes) (lines : List Field) (close : Bool)
    (length : Option Bytes) : List (List Action) :=
  statusTrace version code reason ++ headersTrace lines close length

theorem response_completes {version code reason : Bytes} {lines : List Field} {close : Bool}
    {length : Option Bytes} (versioned : (httpVersion.machine 0).accepts version = true)
    (plain_version : ∀ c ∈ version, c ≠ 32 ∧ c ≠ 13 ∧ c ≠ 10)
    (some_code : code ≠ []) (decimal : ∀ c ∈ code, digit c = true) (some_reason : reason ≠ [])
    (plain : ∀ c ∈ reason, c ≠ 13 ∧ c ≠ 10) (formed : ∀ l ∈ lines, Plain l)
    (counted : ∀ digits ∈ length, digits ≠ [] ∧ ∀ c ∈ digits, digit c = true) :
    ∃ raw last, (main.machine 0).Completes
      (responseText version code reason lines close length) raw 10 last ∧
      Like raw (responseTrace version code reason lines close length) ∧ inOrder last = [.done] := by
  have round := statusLine_round versioned plain_version some_code decimal some_reason plain
  obtain ⟨front, read, trace⟩ := round 0
  obtain ⟨raw, ended, like⟩ := headers_complete close formed counted
    (0 + statusLine.embeddings) (0 + statusLine.embeddings + (star messageHeader).embeddings)
  obtain ⟨c, w, text⟩ : ∃ c w, headersText lines close length = c :: w := by
    cases lines with
    | nil => exact ⟨_, _, rfl⟩
    | cons l lines =>
        obtain ⟨name, value⟩ := l
        obtain ⟨d, v, rfl⟩ := List.exists_cons_of_ne_nil (formed _ List.mem_cons_self).name
        exact ⟨_, _, rfl⟩
  obtain ⟨as, raw, rfl⟩ : ∃ as rest, raw = as :: rest := by
    cases raw with
    | cons as raw => exact ⟨as, raw, rfl⟩
    | nil =>
        have lengths := like.length_eq
        rw [headersTrace, List.length_append, List.length_append, trace_cons
          (connectionLine_formed close).name, List.length_nil, List.length_cons] at lengths
        omega
  obtain ⟨v, version, rfl⟩ : ∃ v t, version = v :: t := by
    cases version with
    | nil => exact absurd versioned (by decide)
    | cons v t => exact ⟨v, t, rfl⟩
  have other : chunkedHeader.begins v = false := by
    have apart : ∀ x, chunkedHeader.begins x = true → httpVersion.begins x = false :=
      Http11.forall_bytes (by decide +kernel)
    refine Bool.eq_false_iff.mpr fun begins => ?_
    rw [Machine.accepts, Machine.acceptsFrom, step_start httpVersion 0 (apart v begins)]
      at versioned
    cases versioned
  rw [text] at ended
  have whole := Machine.Completes.behind read (final_start statusLine 0 rfl)
    (final_start (.cat (.star messageHeader) crlf) _ rfl) ended
  have first := (whole.altLeft (N := chunkedHeader.machine (0 + response.embeddings))
    (step_start chunkedHeader _ other)).finish
      (a := (0 + (oneOf [response, chunkedHeader]).embeddings, Action.done))
  rw [responseText, text]
  exact ⟨_, _, first, (Like.of_eq trace).append like, inOrder_single⟩

end CorReactor.HttpClient
