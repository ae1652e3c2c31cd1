import CorReactor.EvaluateExpression
import CorReactor.HttpClientParses
import CorReactor.HttpRoundTrip
import CorReactor.HttpTraces
import Mathlib.Data.List.Permutation

set_option autoImplicit false

/-! What the actions of a response's bytes do to the response of the parser. -/

namespace CorReactor.Http

open HttpClient (Action Field marks waits)
open Ragel (inOrder)
open Ragel.Machine (play)

/-! ### Numbers in the buffer -/

section Numbers

variable {m : Memory} {p : Nat} {w : Bytes} {c : UInt8}

theorem drop_of_holds (there : m.Holds p w) (inside : p + w.length ≤ m.buffer.length) :
    ∃ rest, m.buffer.drop p = w ++ rest := by
  refine ⟨m.buffer.drop (p + w.length), ?_⟩
  have front : (m.buffer.drop p).take w.length = w := by
    refine List.ext_getElem ?_ fun i less _ => ?_
    · rw [List.length_take, List.length_drop]
      omega
    · have bound : p + i < m.buffer.length := by
        rw [List.length_take, List.length_drop] at less
        omega
      have here := Memory.holds_iff.mp there i (by assumption)
      rw [Memory.byte, literal, List.getElem?_eq_getElem bound, Option.getD_some,
        List.getElem?_eq_getElem (by assumption), Option.getD_some] at here
      rw [List.getElem_take, List.getElem_drop]
      exact here
  conv_lhs => rw [← List.take_append_drop w.length (m.buffer.drop p), front, List.drop_drop]

theorem decimal_value (n : Nat) :
    (HttpRequest.decimal n).foldl (fun n c => 10 * n + (c.toNat - 48)) 0 = n := by
  have digits := Nat.ofDigitChars_ten_toDigits (n := n)
  rw [Nat.ofDigitChars_eq_foldl] at digits
  rw [HttpRequest.decimal, List.foldl_map]
  refine Eq.trans (List.foldl_ext _ _ _ fun k c inside => ?_) digits
  have isDigit := Nat.isDigit_of_mem_toDigits (by decide) (by decide) inside
  rw [Char.isDigit, Bool.and_eq_true_iff, decide_eq_true_iff, decide_eq_true_iff] at isDigit
  have below : c.toNat < 58 := Nat.lt_succ_of_le (UInt32.le_iff_toNat_le.mp isDigit.2)
  have byte : c.toNat.toUInt8.toNat = c.toNat := Nat.mod_eq_of_lt (by omega)
  rw [byte]
  rfl

/-- `strtol` reads the number in front of another byte. -/
theorem strtol_decimal {n : Nat} {rest : Bytes} (other : Http11.digit c = false)
    (small : n < 2 ^ 63) : strtol (HttpRequest.decimal n ++ c :: rest) 10 = n := by
  have ends : ∀ d ∈ (c :: rest).head?, Http11.digit d = false := by
    rintro d ⟨⟩
    exact other
  let factor : Expression.Factor := ⟨.none, HttpRequest.decimal n, HttpRequest.decimal_ne_nil n,
    fun _ => HttpRequest.decimal_digits⟩
  have signed : sign ((factor.text ++ c :: rest).dropWhile Http11.space) =
      (factor.sign.factor, factor.digits ++ c :: rest) := factor.sign_text
  have whole := factor.takeWhile_digits ends
  have text : factor.text = HttpRequest.decimal n := rfl
  rw [text] at signed
  unfold strtol
  simp only [signed, Nat.reduceEqDiff, ↓reduceIte, whole,
    Expression.Factor.foldl_digits factor.decimal]
  have value : factor.digits.foldl (fun n c => 10 * n + (c.toNat - 48)) 0 = n := decimal_value n
  have positive : factor.sign.factor = 1 := rfl
  rw [value, positive]
  omega

end Numbers

namespace HttpResponseParser

variable {State : Type} {memory : Memory} {p q : Nat} {a b : Action} {as : List Action} {w : Bytes}
  {tr tr' orders : List (List Action)} {parser next after : HttpResponseParser State}
  {f g : HttpResponse → HttpResponse}

/-! ### Actions in any order -/

/-- Any order of the actions does the same. -/
def Commutes (memory : Memory) (State : Type) (as : List Action) : Prop :=
  ∀ bs, bs.Perm as → ∀ p (parser : HttpResponseParser State),
    perform memory p bs parser = perform memory p as parser

theorem commutes_nil : Commutes memory State [] := by
  intro bs same p parser
  rw [same.eq_nil]

theorem commutes_single : Commutes memory State [a] := by
  intro bs same p parser
  rw [List.perm_singleton.mp same]

theorem commutes_pair (unbroken : a ≠ .done ∧ b ≠ .done)
    (either : ∀ p (parser : HttpResponseParser State),
      (parser.act memory p a).bind (act memory p · b) =
        (parser.act memory p b).bind (act memory p · a)) : Commutes memory State [a, b] := by
  intro bs same p parser
  have both := either p parser
  rcases List.perm_pair.mp same with rfl | rfl
  · rfl
  · simp only [perform, if_neg unbroken.1, if_neg unbroken.2, ← Option.bind_assoc, both]

theorem commutes_length : Commutes memory State [.writeContentLen, .writeValue] := by
  refine commutes_pair (by decide) fun p parser => ?_
  simp only [act, onResponseHttpField, Option.bind_some]
  split
  · rfl
  · rw [Option.bind_assoc]
    refine congrArg _ (funext fun key => ?_)
    rw [Option.map_eq_bind, Option.map_eq_bind, Option.bind_assoc]
    rfl

theorem commutes_close : Commutes memory State [.writeConnectionClose, .startField] :=
  commutes_pair (by decide) fun _ _ => rfl

theorem play_perm (each : ∀ as ∈ tr, Commutes memory State as)
    (same : List.Forall₂ List.Perm orders tr) :
    play (perform memory) p orders parser = play (perform memory) p tr parser := by
  induction same generalizing p parser with
  | nil => rfl
  | cons here _ ih =>
      rw [play, play, each _ List.mem_cons_self _ here]
      split
      · exact ih fun as member => each as (List.mem_cons_of_mem _ member)
      · rfl

theorem commutes_marks : ∀ as ∈ marks a w, Commutes memory State as := by
  intro as member
  cases w with
  | nil => cases member
  | cons c w =>
      rcases List.mem_cons.mp member with rfl | member
      · exact commutes_single
      · rw [(List.mem_replicate.mp member).2]
        exact commutes_nil

theorem commutes_trace {l : Field} {last : List Action} (closes : Commutes memory State last) :
    ∀ as ∈ l.trace last, Commutes memory State as := by
  intro as member
  rw [Field.trace] at member
  rcases List.mem_append.mp member with inside | member
  · exact commutes_marks as inside
  · rcases List.mem_cons.mp member with rfl | member
    · exact commutes_single
    · rcases List.mem_cons.mp member with rfl | member
      · exact commutes_single
      · rcases List.mem_append.mp member with inside | member
        · exact commutes_marks as inside
        · rcases List.mem_cons.mp member with rfl | member
          · exact closes
          · rw [List.mem_singleton.mp member]
            exact commutes_nil

theorem commutes_waits {close : Bool} : Commutes memory State (waits close) := by
  cases close
  · exact commutes_nil
  · exact commutes_single

theorem commutes_ends {close : Bool} {length : Option Bytes} :
    ∀ as ∈ HttpClient.endTrace close length, Commutes memory State as := by
  intro as member
  cases length with
  | none =>
      rw [List.mem_singleton.mp member]
      exact commutes_waits
  | some digits =>
      rcases List.mem_cons.mp member with rfl | member
      · cases close
        · exact commutes_single
        · exact commutes_close
      · rcases List.mem_append.mp member with inside | member
        · exact commutes_trace commutes_length as (List.mem_of_mem_tail inside)
        · rw [List.mem_singleton.mp member]
          exact commutes_nil

theorem commutes_response {version code reason : Bytes} {lines : List Field} {close : Bool}
    {length : Option Bytes} :
    ∀ as ∈ HttpClient.responseTrace version code reason lines close length,
      Commutes memory State as := by
  intro as member
  rcases List.mem_append.mp member with status | headers
  · rcases List.mem_append.mp status with inside | rest
    · exact commutes_marks as inside
    · rcases List.mem_cons.mp rest with rfl | rest
      · exact commutes_single
      · rcases List.mem_append.mp rest with inside | rest
        · exact commutes_marks as inside
        · rcases List.mem_cons.mp rest with rfl | rest
          · exact commutes_single
          · rcases List.mem_append.mp rest with inside | rest
            · exact commutes_marks as inside
            · rcases List.mem_cons.mp rest with rfl | rest
              · exact commutes_single
              · rw [List.mem_singleton.mp rest]
                exact commutes_nil
  · rcases List.mem_append.mp headers with own | rest
    · obtain ⟨l, -, inside⟩ := List.mem_flatMap.mp own
      exact commutes_trace commutes_single as inside
    · rcases List.mem_append.mp rest with inside | inside
      · exact commutes_trace commutes_single as inside
      · exact commutes_ends as inside

/-! ### Effects -/

theorem play_append : play (perform memory) p (tr ++ tr') parser =
    (play (perform memory) p tr parser).bind (play (perform memory) (p + tr.length) tr') := by
  induction tr generalizing p parser with
  | nil => rfl
  | cons as tr ih =>
      rw [List.cons_append, play, play, List.length_cons]
      split
      · rw [ih, Nat.add_right_comm, Nat.add_assoc]
      · rfl

theorem play_quiet {n : Nat} :
    play (perform memory) p (List.replicate n []) parser = some parser := by
  induction n generalizing p with
  | zero => rfl
  | succ n ih => exact ih

theorem play_marks (some_byte : w ≠ []) (acted : parser.act memory p a = some next)
    (unbroken : a ≠ .done) : play (perform memory) p (marks a w) parser = some next := by
  obtain ⟨c, v, rfl⟩ := List.exists_cons_of_ne_nil some_byte
  have performed : perform memory p [a] parser = some (next, false) := by
    rw [perform, acted, Option.bind_some, if_neg unbroken, perform]
  rw [marks, play, performed]
  exact play_quiet

theorem length_marks : (marks a w).length = w.length := by
  cases w with
  | nil => rfl
  | cons c w => rw [marks, List.length_cons, List.length_replicate, List.length_cons]

/-- The actions have this effect on the response, whatever the offsets of the parser are. -/
def Does (memory : Memory) (State : Type) (p : Nat) (tr : List (List Action))
    (f : HttpResponse → HttpResponse) : Prop :=
  ∀ parser : HttpResponseParser State, ∃ after, play (perform memory) p tr parser = some after ∧
    after.m_data = f parser.m_data ∧ after.m_error = parser.m_error

theorem Does.append (first : Does memory State p tr f) (second : Does memory State q tr' g)
    (next : p + tr.length = q) : Does memory State p (tr ++ tr') (fun r => g (f r)) := by
  subst next
  intro parser
  obtain ⟨next, played, data, error⟩ := first parser
  obtain ⟨after, played', data', error'⟩ := second next
  refine ⟨after, ?_, ?_, error'.trans error⟩
  · rw [play_append, played, Option.bind_some, played']
  · rw [data', data]

theorem does_nothing (memory : Memory) (State : Type) (p : Nat) : Does memory State p [[]] id :=
  fun parser => ⟨parser, rfl, rfl, rfl⟩

/-- An action on the first byte of a word, and the actions behind the word. -/
theorem Does.word {last : List Action} (some_byte : w ≠ []) (unbroken : a ≠ .done)
    (acts : ∀ parser : HttpResponseParser State, ∃ next, parser.act memory p a = some next ∧
      ∃ after, play (perform memory) (p + w.length) [last] next = some after ∧
        after.m_data = f parser.m_data ∧ after.m_error = parser.m_error) :
    Does memory State p (marks a w ++ [last]) f := by
  intro parser
  obtain ⟨next, opened, after, closed, kept⟩ := acts parser
  refine ⟨after, ?_, kept⟩
  rw [play_append, play_marks some_byte opened unbroken, Option.bind_some, length_marks, closed]

/-! ### The status line -/

theorem version_does (State : Type) {v : UInt8} (known : v = 0x10 ∨ v = 0x11)
    (there : memory.Holds p (HttpRequestParser.versionText v)) :
    Does memory State p (marks .mark (HttpRequestParser.versionText v) ++ [[.httpVersion]])
      (fun r => { r with m_version := v }) := by
  have some_byte : HttpRequestParser.versionText v ≠ [] := by
    rcases known with rfl | rfl <;> decide
  have compared : ∀ s : Bytes, strncmpEq (fun i => memory.byte (p + i)) (literal s) 0
      (HttpRequestParser.versionText v).length =
        strncmpEq (literal (HttpRequestParser.versionText v)) (literal s) 0
          (HttpRequestParser.versionText v).length := by
    intro s
    refine strncmpEq_congr (fun j less => ?_) fun _ _ => rfl
    rw [Nat.zero_add]
    exact Memory.holds_iff.mp there j less
  refine Does.word some_byte (by decide) fun parser => ⟨_, rfl, ?_⟩
  simp only [play, perform, act, onResponseVersion, HttpRequestParser.sizeSub_add, compared]
  rcases known with rfl | rfl
  · have newer : strncmpEq (literal (HttpRequestParser.versionText 0x10))
        (literal (bytes "HTTP/1.1")) 0 (HttpRequestParser.versionText 0x10).length = false := by
      decide
    have older : strncmpEq (literal (HttpRequestParser.versionText 0x10))
        (literal (bytes "HTTP/1.0")) 0 (HttpRequestParser.versionText 0x10).length = true := by
      decide
    simp only [newer, older, Bool.false_eq_true, Option.bind_some, reduceCtorEq, ↓reduceIte]
    exact ⟨_, rfl, rfl, rfl⟩
  · have newer : strncmpEq (literal (HttpRequestParser.versionText 0x11))
        (literal (bytes "HTTP/1.1")) 0 (HttpRequestParser.versionText 0x11).length = true := by
      decide
    simp only [newer, Option.bind_some, reduceCtorEq, ↓reduceIte]
    exact ⟨_, rfl, rfl, rfl⟩

/-- Any number of the enumeration comes back. -/
theorem status_eq (status : HttpStatus) :
    BitVec.ofInt 32 (intOfLong (status.toNat : Int)) = status := by
  refine BitVec.eq_of_toInt_eq ?_
  rw [BitVec.toInt_ofInt, intOfLong, Int.bmod_bmod, ← BitVec.toInt_eq_toNat_bmod]

theorem status_does (State : Type) (status : HttpStatus)
    (there : memory.Holds p (HttpRequest.decimal status.toNat ++ [32]))
    (inside : p + (HttpRequest.decimal status.toNat).length < memory.buffer.length) :
    Does memory State p (marks .mark (HttpRequest.decimal status.toNat) ++ [[.statusCode]])
      (fun r => { r with m_status := status }) := by
  obtain ⟨rest, text⟩ := drop_of_holds there (by
    rw [List.length_append, List.length_singleton]
    omega)
  have number : strtol (memory.buffer.drop p) 10 = status.toNat := by
    rw [text, List.append_assoc]
    exact strtol_decimal rfl (Nat.lt_trans status.isLt (by decide))
  refine Does.word (HttpRequest.decimal_ne_nil _) (by decide) fun parser => ⟨_, rfl, ?_⟩
  simp only [play, perform, act, onResponseStatus, number, status_eq, Option.bind_some,
    reduceCtorEq, ↓reduceIte]
  exact ⟨_, rfl, rfl, rfl⟩

theorem reason_does (State : Type) (some_byte : w ≠ []) (there : memory.Holds p w)
    (short : w.length < 2 ^ 63) :
    Does memory State p (marks .mark w ++ [[.reasonPhrase]])
      (fun r => { r with m_reason := w }) := by
  refine Does.word some_byte (by decide) fun parser => ⟨_, rfl, ?_⟩
  simp only [play, perform, act, onResponseReason, HttpRequestParser.sizeSub_add,
    there.string short, Option.map_some, Option.bind_some, reduceCtorEq, ↓reduceIte]
  exact ⟨_, rfl, rfl, rfl⟩

/-! ### Header lines -/

/-- What a line's first transition does: where it ends a line of its own, it may do more. -/
theorem opens_does (memory : Memory) (p : Nat) {first : List Action}
    (parser : HttpResponseParser State)
    (opens : first = [.startField] ∨ first = [.writeConnectionClose, .startField]) :
    ∃ next, perform memory p first parser = some (next, false) ∧ next.mParser.field_start = p ∧
      next.m_data = parser.m_data ∧ next.m_error = parser.m_error := by
  rcases opens with rfl | rfl <;> exact ⟨_, rfl, rfl, rfl, rfl⟩

/-- The value of a line, with the name where the parser has it. -/
theorem value_does (parser : HttpResponseParser State) {name value : Bytes} {last : List Action}
    (some_name : name ≠ [])
    (some_value : value ≠ []) (named : memory.Holds p name)
    (there : memory.Holds q value) (short : name.length < 2 ^ 63)
    (short_value : value.length < 2 ^ 63)
    (closes : last = [.writeValue] ∨ last = [.writeContentLen, .writeValue])
    (field_start : parser.mParser.field_start = p)
    (field_len : parser.mParser.field_len = name.length) :
    ∃ after, play (perform memory) q (marks .startValue value ++ [last, []]) parser = some after ∧
      after.m_data = parser.m_data.setHeader name value ∧ after.m_error = parser.m_error := by
  have some_length : name.length ≠ 0 := fun none_left =>
    some_name (List.length_eq_zero_iff.mp none_left)
  rw [play_append, play_marks some_value rfl (by decide), Option.bind_some, length_marks]
  rcases closes with rfl | rfl <;>
    simp only [play, perform, act, onResponseHttpField, Option.bind_some, reduceCtorEq,
      ↓reduceIte, field_start, field_len, some_length, named.string short,
      HttpRequestParser.sizeSub_add, there.string short_value, Option.map_some] <;>
    exact ⟨_, rfl, rfl, rfl⟩

theorem line_does (State : Type) {l : Field} {first last : List Action} (some_name : l.name ≠ [])
    (some_value : l.value ≠ []) (there : memory.Holds p l.text)
    (short : l.text.length < 2 ^ 63)
    (opens : first = [.startField] ∨ first = [.writeConnectionClose, .startField])
    (closes : last = [.writeValue] ∨ last = [.writeContentLen, .writeValue]) :
    Does memory State p (first :: (l.trace last).tail) (fun r => r.setHeader l.name l.value) := by
  obtain ⟨name, value⟩ := l
  simp only [Field.text, List.length_append, List.length_cons] at short
  obtain ⟨named, rest⟩ := Memory.holds_append.mp there
  have rest := (Memory.holds_cons.mp rest).2
  have rest := (Memory.holds_cons.mp rest).2
  obtain ⟨valued, -⟩ := Memory.holds_append.mp rest
  intro parser
  dsimp only at some_name some_value named valued
  obtain ⟨next, opened, field_start, data, error⟩ :=
    opens_does memory p parser opens
  obtain ⟨c, w, rfl⟩ := List.exists_cons_of_ne_nil some_name
  have trace : first :: (Field.trace ⟨c :: w, value⟩ last).tail =
      first :: (List.replicate w.length [] ++ [.writeField] :: [.startValue] ::
        (marks .startValue value ++ [last, []])) := rfl
  rw [trace, play, opened]
  dsimp only
  rw [play_append, play_quiet, Option.bind_some, List.length_replicate]
  have behind : p + 1 + w.length = p + (c :: w).length := by
    rw [List.length_cons]
    omega
  simp only [behind, play, perform, act, Option.bind_some, reduceCtorEq, ↓reduceIte, field_start,
    HttpRequestParser.sizeSub_add]
  obtain ⟨after, played, data', error'⟩ := value_does
    { next with mParser := { next.mParser with
      field_start := p, field_len := (c :: w).length, mark := p + (c :: w).length + 1 } }
    some_name some_value named valued (by omega) (by omega) closes rfl rfl
  exact ⟨after, played, data'.trans (congrArg (HttpResponse.setHeader · _ _) data),
    error'.trans error⟩

/-- The headers of a list of lines. -/
def setHeaders (lines : List Field) (r : HttpResponse) : HttpResponse :=
  lines.foldl (fun r l => r.setHeader l.name l.value) r

theorem length_trace {l : Field} (last : List Action) :
    (l.trace last).length = l.text.length := by
  simp only [Field.trace, Field.text, List.length_append, length_marks, List.length_cons,
    List.length_nil]

theorem lines_do (State : Type) {lines : List Field} (formed : ∀ l ∈ lines, l.WellFormed)
    (there : memory.Holds p (lines.flatMap Field.text))
    (short : (lines.flatMap Field.text).length < 2 ^ 63) :
    Does memory State p (lines.flatMap (Field.trace · [.writeValue])) (setHeaders lines) := by
  induction lines generalizing p with
  | nil => exact fun parser => ⟨parser, rfl, rfl, rfl⟩
  | cons l lines ih =>
      rw [List.flatMap_cons] at there short ⊢
      rw [List.length_append] at short
      obtain ⟨first, rest⟩ := Memory.holds_append.mp there
      have here := formed l List.mem_cons_self
      have line := line_does State here.name here.some_value first (by omega) (Or.inl rfl)
        (Or.inl rfl)
      rw [← HttpClient.trace_cons here.name] at line
      have later := ih (fun x member => formed x (List.mem_cons_of_mem _ member)) rest (by omega)
      exact line.append later (by rw [length_trace])

/-- The lines that are added, and what they set. -/
def added (close : Bool) : Option Bytes → List Field
  | none => [HttpClient.connectionLine close]
  | some digits => [HttpClient.connectionLine close, HttpClient.lengthLine digits]

theorem ends_do (State : Type) (close : Bool) {length : Option Bytes}
    (some_digit : ∀ digits ∈ length, digits ≠ [])
    (there : memory.Holds p (HttpClient.lengthText length))
    (short : (HttpClient.lengthText length).length < 2 ^ 63) :
    Does memory State p (HttpClient.endTrace close length) (fun r =>
      length.elim r fun digits => r.setHeader (bytes "content-length") digits) := by
  have quiet (p : Nat) : Does memory State p [waits false] id := does_nothing memory State p
  cases length with
  | none =>
      intro parser
      cases close <;> exact ⟨_, rfl, rfl, rfl⟩
  | some digits =>
      have opens : waits close ∪ [.startField] = [.startField] ∨
          waits close ∪ [.startField] = [.writeConnectionClose, .startField] := by
        cases close <;> decide
      have name : bytes "content-length" ≠ [] := by decide
      have line := line_does State (l := HttpClient.lengthLine digits) name
        (some_digit digits rfl) there short opens (Or.inr rfl)
      exact line.append (quiet _) rfl

theorem headers_do (State : Type) {lines : List Field} {close : Bool} {length : Option Bytes}
    (formed : ∀ l ∈ lines, l.WellFormed) (some_digit : ∀ digits ∈ length, digits ≠ [])
    (there : memory.Holds p (HttpClient.headersText lines close length))
    (short : (HttpClient.headersText lines close length).length < 2 ^ 63) :
    Does memory State p (HttpClient.headersTrace lines close length)
      (setHeaders (lines ++ added close length)) := by
  simp only [HttpClient.headersText, List.length_append] at short
  obtain ⟨front, rest⟩ := Memory.holds_append.mp there
  obtain ⟨connected, rest⟩ := Memory.holds_append.mp rest
  obtain ⟨counted, -⟩ := Memory.holds_append.mp rest
  have own := lines_do State formed front (by omega)
  have line := HttpClient.connectionLine_formed close
  have connection := line_does State line.name line.some_value connected (by omega) (Or.inl rfl)
    (Or.inl rfl)
  rw [← HttpClient.trace_cons line.name] at connection
  have ended := ends_do State close some_digit counted (by omega)
  have lengths : (lines.flatMap (Field.trace · [.writeValue])).length =
      (lines.flatMap Field.text).length := by
    simp only [List.length_flatMap, length_trace]
  have whole := own.append (connection.append ended (by rw [length_trace])) (by rw [lengths])
  have effect : setHeaders (lines ++ added close length) = fun r => length.elim
      ((setHeaders lines r).setHeader (bytes "connection")
        (HttpClient.connectionLine close).value)
      fun digits => ((setHeaders lines r).setHeader (bytes "connection")
        (HttpClient.connectionLine close).value).setHeader (bytes "content-length") digits := by
    funext r
    rw [setHeaders, List.foldl_append]
    cases length <;> rfl
  rw [effect]
  exact whole

theorem response_does (State : Type) {v : UInt8} {status : HttpStatus} {reason : Bytes}
    {lines : List Field} {close : Bool} {length : Option Bytes} (known : v = 0x10 ∨ v = 0x11)
    (some_reason : reason ≠ []) (formed : ∀ l ∈ lines, l.WellFormed)
    (some_digit : ∀ digits ∈ length, digits ≠ [])
    (there : memory.Holds p (HttpClient.responseText (HttpRequestParser.versionText v)
      (HttpRequest.decimal status.toNat) reason lines close length))
    (inside : p + (HttpClient.responseText (HttpRequestParser.versionText v)
      (HttpRequest.decimal status.toNat) reason lines close length).length ≤ memory.buffer.length)
    (short : (HttpClient.responseText (HttpRequestParser.versionText v)
      (HttpRequest.decimal status.toNat) reason lines close length).length < 2 ^ 63) :
    Does memory State p (HttpClient.responseTrace (HttpRequestParser.versionText v)
      (HttpRequest.decimal status.toNat) reason lines close length)
      (fun r => setHeaders (lines ++ added close length)
        { r with m_version := v, m_status := status, m_reason := reason }) := by
  simp only [HttpClient.responseText, HttpClient.statusText, List.length_append, List.length_cons]
    at short inside
  obtain ⟨front, headers⟩ := Memory.holds_append.mp there
  obtain ⟨front, -⟩ := Memory.holds_append.mp front
  obtain ⟨versioned, rest⟩ := Memory.holds_append.mp front
  obtain ⟨-, rest⟩ := Memory.holds_cons.mp rest
  obtain ⟨coded, rest⟩ := Memory.holds_append.mp rest
  obtain ⟨blank, phrase⟩ := Memory.holds_cons.mp rest
  have numbered : memory.Holds _ (HttpRequest.decimal status.toNat ++ [32]) :=
    Memory.holds_append.mpr ⟨coded, Memory.holds_cons.mpr ⟨blank, rfl⟩⟩
  have first := version_does State known versioned
  have second := status_does State status numbered (by omega)
  have third := reason_does State some_reason phrase (by omega)
  have fed := does_nothing memory State (p + (HttpRequestParser.versionText v).length + 1 +
    (HttpRequest.decimal status.toNat).length + 1 + reason.length + 1)
  have fourth := headers_do State formed some_digit headers (by omega)
  have headers := fed.append fourth (by
    simp only [HttpClient.statusText, List.length_append, List.length_cons, List.length_nil]
    omega)
  have phrased := third.append headers (by simp only [List.length_append, length_marks]; rfl)
  have numbered := second.append phrased (by simp only [List.length_append, length_marks]; rfl)
  have whole := first.append numbered (by simp only [List.length_append, length_marks]; rfl)
  simpa only [HttpClient.responseTrace, HttpClient.statusTrace, List.append_assoc,
    List.cons_append, List.nil_append, id_eq] using whole

end HttpResponseParser

end CorReactor.Http