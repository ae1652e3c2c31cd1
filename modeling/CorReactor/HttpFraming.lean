import CorReactor.HttpResponse
import CorReactor.HttpRoundTrip
import CorReactor.Lines
import Mathlib.Data.List.DropRight

set_option autoImplicit false

/-! Whether the headers that `dump` writes frame the message unambiguously. -/

namespace CorReactor.Http

open Lines
open HttpRequest (decimal)

/-! ### The headers of a text -/

def lineFeed (c : UInt8) : Bool := c == 10

def blank (c : UInt8) : Bool := c == 32 || c == 9

/-- Without the carriage return in front of the line feed. -/
def chomp (line : Bytes) : Bytes := if line.getLast? = some 13 then line.dropLast else line

/-- Without blanks on either side. -/
def trim (value : Bytes) : Bytes := (value.dropWhile blank).rdropWhile blank

/-- The name and the value of a header; none where there is no colon. -/
def field? (line : Bytes) : Option (Bytes × Bytes) :=
  if 58 ∈ line then some (line.takeWhile (· ≠ 58), trim (line.dropWhile (· ≠ 58)).tail) else none

/-- The headers in the lines of a text. -/
def fields (text : Bytes) : List (Bytes × Bytes) :=
  (lines lineFeed text).filterMap fun line => field? (chomp line)

/-- The values of the headers with the name up to case. -/
def named (name : Bytes) (headers : List (Bytes × Bytes)) : List Bytes :=
  (headers.filter fun h => h.1.map lower = name.map lower).map Prod.snd

theorem fields_append {first : Bytes} (ended : Ended lineFeed first) (second : Bytes) :
    fields (first ++ second) = fields first ++ fields second := by
  unfold fields
  rw [ended.lines_append, List.filterMap_append]

theorem named_append (name : Bytes) (first second : List (Bytes × Bytes)) :
    named name (first ++ second) = named name first ++ named name second := by
  unfold named
  rw [List.filter_append, List.map_append]

/-- A line made of a name and a value gives them back. -/
theorem fields_line {name value : Bytes} (names : ∀ c ∈ name, c ≠ 58 ∧ c ≠ 10)
    (values : ∀ c ∈ value, c ≠ 10) :
    fields (name ++ bytes ":" ++ value ++ bytes "\r\n") = [(name, trim value)] := by
  have colon : bytes ":" = [58] := by decide
  have crlf : bytes "\r\n" = [13] ++ [10] := by decide
  have inside : ∀ c ∈ name ++ [58] ++ value ++ [13], lineFeed c = false := by
    intro c member
    unfold lineFeed
    rw [beq_eq_false_iff_ne]
    simp only [List.append_assoc, List.mem_append, List.mem_singleton] at member
    rcases member with member | rfl | member | rfl
    · exact (names c member).2
    · decide
    · exact values c member
    · decide
  have single : lines lineFeed (name ++ [58] ++ value ++ [13] ++ [10]) = _ :=
    lines_single inside rfl
  rw [List.append_assoc] at single
  have chomped : chomp (name ++ [58] ++ value ++ [13]) = name ++ [58] ++ value := by
    unfold chomp
    rw [List.getLast?_concat, if_pos rfl, List.dropLast_concat]
  have all : ∀ c ∈ name, (decide (c ≠ 58)) = true := fun c member =>
    decide_eq_true (names c member).1
  have before : (name ++ [58] ++ value).takeWhile (· ≠ 58) = name := by
    rw [List.append_assoc, List.takeWhile_append_of_pos all]
    exact List.append_nil name
  have behind : (name ++ [58] ++ value).dropWhile (· ≠ 58) = 58 :: value := by
    rw [List.append_assoc, List.dropWhile_append_of_pos all]
    rfl
  have there : (58 : UInt8) ∈ name ++ [58] ++ value := by simp
  unfold fields
  rw [colon, crlf, single]
  simp only [List.filterMap_cons, chomped, field?, there, ↓reduceIte, before, behind,
    List.tail_cons, List.filterMap_nil]

/-! ### The parts of a message -/

theorem ended_crlf (text : Bytes) : Ended lineFeed (text ++ bytes "\r\n") := by
  have crlf : bytes "\r\n" = [13] ++ [10] := by decide
  exact Or.inr ⟨text ++ [13], 10, by rw [crlf, List.append_assoc], rfl⟩

/-- The line that says whether the connection is kept. -/
def connectionLine (websocket close : Bool) : Bytes :=
  if websocket then []
  else bytes "connection: " ++ bytes (if close then "close" else "keep-alive") ++ bytes "\r\n"

/-- The line with the length of a body. -/
def lengthLine (body : Bytes) : Bytes :=
  if body = [] then [] else bytes "content-length: " ++ decimal body.length ++ bytes "\r\n"

theorem ended_connectionLine (websocket close : Bool) :
    Ended lineFeed (connectionLine websocket close) := by
  unfold connectionLine
  split
  · exact Ended.nil
  · exact ended_crlf _

theorem fields_connectionLine (websocket close : Bool) :
    fields (connectionLine websocket close) = if websocket then []
      else [(bytes "connection", bytes (if close then "close" else "keep-alive"))] := by
  revert websocket close
  decide

theorem digit_plain : ∀ c, Http11.digit c = true → c ≠ 10 ∧ blank c = false := by
  have all : ∀ n < 256, Http11.digit (UInt8.ofNat n) = true →
      UInt8.ofNat n ≠ 10 ∧ blank (UInt8.ofNat n) = false := by decide +kernel
  intro c isDigit
  have small := all c.toNat c.toNat_lt
  rw [UInt8.ofNat_toNat] at small
  exact small isDigit

theorem trim_plain {value : Bytes} (plain : ∀ c ∈ value, blank c = false) :
    trim ([32] ++ value) = value := by
  have front : ([32] ++ value).dropWhile blank = value := by
    cases value with
    | nil => rfl
    | cons c value =>
        have first := plain c List.mem_cons_self
        simp only [List.cons_append, List.nil_append, List.dropWhile_cons, first,
          Bool.false_eq_true, ↓reduceIte]
        rfl
  unfold trim
  rw [front]
  rcases List.eq_nil_or_concat value with empty | ⟨init, last, split⟩
  · rw [empty]
    rfl
  · have unblank : ¬ blank last = true := by
      rw [plain last (by rw [split]; simp)]
      exact Bool.false_ne_true
    rw [split, List.concat_eq_append, List.rdropWhile_concat_neg _ _ _ unblank]

theorem fields_lengthLine (body : Bytes) : fields (lengthLine body) =
    if body = [] then [] else [(bytes "content-length", decimal body.length)] := by
  unfold lengthLine
  split
  · rfl
  · have digits : ∀ c ∈ decimal body.length, c ≠ 10 ∧ blank c = false := fun c member =>
      digit_plain c (HttpRequest.decimal_digits member)
    have names : ∀ c ∈ bytes "content-length", c ≠ 58 ∧ c ≠ 10 := by decide +kernel
    have values : ∀ c ∈ [32] ++ decimal body.length, c ≠ 10 := by
      intro c member
      rcases List.mem_append.mp member with space | inside
      · rw [List.mem_singleton.mp space]
        decide
      · exact (digits c inside).1
    have line := fields_line names values
    rw [trim_plain fun c member => (digits c member).2] at line
    have text : bytes "content-length: " = bytes "content-length" ++ bytes ":" ++ [32] := by
      decide
    rw [text, ← line]
    simp only [List.append_assoc]

namespace HttpRequest

def requestLine (r : HttpRequest) : Bytes :=
  httpMethodToString r.m_method ++ bytes " " ++ r.m_path ++
    (if r.m_query = [] then [] else bytes "?") ++ r.m_query ++
    (if r.m_fragment = [] then [] else bytes "#") ++ r.m_fragment ++
    bytes " HTTP/" ++ decimal (r.m_version >>> 4).toNat ++ bytes "." ++
    decimal (r.m_version &&& 0x0F).toNat ++ bytes "\r\n"

/-- What the entries of the header map write. -/
def givenText (r : HttpRequest) : Bytes := r.dumped.flatMap fun i => headerLine i.1 i.2

/-- What `dump` writes between the request line and the empty line. -/
def headerSection (r : HttpRequest) : Bytes :=
  connectionLine r.m_websocket r.m_close ++ r.givenText ++ lengthLine r.m_body

theorem dump_sections (r : HttpRequest) :
    r.dump = r.requestLine ++ r.headerSection ++ bytes "\r\n" ++ r.m_body := by
  have twice : bytes "\r\n\r\n" = bytes "\r\n" ++ bytes "\r\n" := by decide
  unfold dump requestLine headerSection connectionLine lengthLine givenText
  by_cases empty : r.m_body = []
  · simp only [empty, ↓reduceIte, List.append_assoc, List.append_nil]
  · simp only [empty, ↓reduceIte, List.append_assoc, twice]

theorem ended_givenText (r : HttpRequest) : Ended lineFeed r.givenText :=
  Ended.flatMap fun _ _ => ended_crlf _

/-- Keys and values without line breaks, and keys without a colon, are the headers that are
given. -/
theorem fields_givenText (r : HttpRequest)
    (plain : ∀ i ∈ r.dumped, (∀ c ∈ i.1, c ≠ 58 ∧ c ≠ 10) ∧ ∀ c ∈ i.2, c ≠ 10) :
    fields r.givenText = r.dumped.map fun i => (i.1, trim i.2) := by
  unfold givenText
  generalize r.dumped = entries at plain
  induction entries with
  | nil => rfl
  | cons i entries ih =>
      have here := plain i List.mem_cons_self
      have later := ih fun j member => plain j (List.mem_cons_of_mem i member)
      have ended : Ended lineFeed (headerLine i.1 i.2) := ended_crlf _
      rw [List.flatMap_cons, fields_append ended, later, List.map_cons]
      exact congrArg (· ++ _) (fields_line here.1 here.2)

end HttpRequest

namespace HttpResponse

def statusLine (r : HttpResponse) : Bytes :=
  bytes "HTTP/" ++ decimal (r.m_version >>> 4).toNat ++ bytes "." ++
    decimal (r.m_version &&& 0x0F).toNat ++ bytes " " ++ decimal r.m_status.toNat ++ bytes " " ++
    (if r.m_reason = [] then httpStatusToString r.m_status else r.m_reason) ++ bytes "\r\n"

/-- What the entries of the header map write. -/
def givenText (r : HttpResponse) : Bytes := r.dumped.flatMap fun i => headerLine i.1 i.2

/-- What `dump` writes between the status line and the empty line. -/
def headerSection (r : HttpResponse) : Bytes :=
  r.givenText ++ connectionLine r.m_websocket r.m_close ++ lengthLine r.m_body

theorem dump_sections (r : HttpResponse) :
    r.dump = r.statusLine ++ r.headerSection ++ bytes "\r\n" ++ r.m_body := by
  have twice : bytes "\r\n\r\n" = bytes "\r\n" ++ bytes "\r\n" := by decide
  unfold dump statusLine headerSection connectionLine lengthLine givenText
  by_cases empty : r.m_body = []
  · simp only [empty, ↓reduceIte, List.append_assoc, List.append_nil]
  · simp only [empty, ↓reduceIte, List.append_assoc, twice]

theorem ended_givenText (r : HttpResponse) : Ended lineFeed r.givenText :=
  Ended.flatMap fun _ _ => ended_crlf _

end HttpResponse

/-! ### Framing -/

/-- What a receiver relies on who looks for the end of the message. -/
structure Framed (headers : List (Bytes × Bytes)) (websocket : Bool) (body : Bytes) : Prop where
  once : (named (bytes "content-length") headers).length ≤ 1
  size : ∀ v ∈ named (bytes "content-length") headers, v = decimal body.length
  present : body ≠ [] → named (bytes "content-length") headers ≠ []
  connection : websocket = false → (named (bytes "connection") headers).length = 1

/-- The headers that the map gives leave the framing to `dump`: no length but the one of an empty
body, and no second connection header. -/
structure Quiet (given : List (Bytes × Bytes)) (websocket : Bool) (body : Bytes) : Prop where
  length : named (bytes "content-length") given = [] ∨
    body = [] ∧ named (bytes "content-length") given = [bytes "0"]
  connection : websocket = false → named (bytes "connection") given = []

theorem named_single (name value : Bytes) : named name [(name, value)] = [value] := by
  simp only [named, List.filter_cons, decide_true, ↓reduceIte, List.filter_nil, List.map_cons,
    List.map_nil]

theorem named_lengthLine (body : Bytes) :
    named (bytes "content-length") (fields (lengthLine body)) =
      if body = [] then [] else [decimal body.length] := by
  rw [fields_lengthLine]
  split
  · rfl
  · exact named_single _ _

/-- The two lines that `dump` adds have different names. -/
theorem named_connectionLine (websocket close : Bool) :
    named (bytes "content-length") (fields (connectionLine websocket close)) = [] ∧
      (named (bytes "connection") (fields (connectionLine websocket close))).length =
        if websocket then 0 else 1 := by
  rw [fields_connectionLine]
  revert websocket close
  decide

theorem named_connection_lengthLine (body : Bytes) :
    named (bytes "connection") (fields (lengthLine body)) = [] := by
  have differs : ¬ (bytes "content-length").map lower = (bytes "connection").map lower := by
    decide
  rw [fields_lengthLine]
  split
  · rfl
  · simp only [named, List.filter_cons, differs, decide_false, Bool.false_eq_true, ↓reduceIte,
      List.filter_nil, List.map_nil]

/-- The line for the body is the only length that is needed. -/
theorem lengths_iff (given : List Bytes) (body : Bytes) :
    ((given ++ if body = [] then [] else [decimal body.length]).length ≤ 1 ∧
      (∀ v ∈ given ++ if body = [] then [] else [decimal body.length], v = decimal body.length) ∧
      (body ≠ [] → (given ++ if body = [] then [] else [decimal body.length]) ≠ [])) ↔
    (given = [] ∨ body = [] ∧ given = [bytes "0"]) := by
  have zero : decimal ([] : Bytes).length = bytes "0" := by decide
  by_cases empty : body = []
  · subst empty
    rw [if_pos rfl, List.append_nil, zero]
    constructor
    · intro sized
      obtain ⟨once, size, -⟩ := sized
      cases given with
      | nil => exact Or.inl rfl
      | cons v rest =>
          have alone : rest = [] := by
            rw [List.length_cons] at once
            exact List.length_eq_zero_iff.mp (by omega)
          exact Or.inr ⟨rfl, by rw [alone, size v List.mem_cons_self]⟩
    · intro quiet
      rcases quiet with nothing | ⟨-, own⟩
      · rw [nothing]
        exact ⟨Nat.zero_le 1, fun v member => absurd member List.not_mem_nil,
          fun nonempty => absurd rfl nonempty⟩
      · rw [own]
        exact ⟨Nat.le_refl 1, fun v member => List.mem_singleton.mp member,
          fun nonempty => absurd rfl nonempty⟩
  · rw [if_neg empty]
    constructor
    · intro sized
      have once := sized.1
      rw [List.length_append, List.length_singleton] at once
      exact Or.inl (List.length_eq_zero_iff.mp (by omega))
    · intro quiet
      rcases quiet with nothing | ⟨impossible, -⟩
      · rw [nothing, List.nil_append]
        exact ⟨Nat.le_refl 1, fun v member => List.mem_singleton.mp member,
          fun _ => List.cons_ne_nil _ _⟩
      · exact absurd impossible empty

/-- The headers that `dump` adds, wherever they stand among those that are given. -/
theorem framed_iff {headers given : List (Bytes × Bytes)} {websocket : Bool} {body : Bytes}
    (lengths : named (bytes "content-length") headers =
      named (bytes "content-length") given ++ if body = [] then [] else [decimal body.length])
    (connections : (named (bytes "connection") headers).length =
      (named (bytes "connection") given).length + if websocket then 0 else 1) :
    Framed headers websocket body ↔ Quiet given websocket body := by
  have connection : (websocket = false → (named (bytes "connection") headers).length = 1) ↔
      (websocket = false → named (bytes "connection") given = []) := by
    refine forall_congr' fun plain => ?_
    rw [connections, plain, ← List.length_eq_zero_iff]
    simp only [Bool.false_eq_true, ↓reduceIte]
    omega
  have length := lengths_iff (named (bytes "content-length") given) body
  rw [← lengths] at length
  constructor
  · intro framed
    exact ⟨length.mp ⟨framed.once, framed.size, framed.present⟩,
      connection.mp framed.connection⟩
  · intro quiet
    obtain ⟨once, size, present⟩ := length.mpr quiet.length
    exact ⟨once, size, present, connection.mpr quiet.connection⟩

/-- `dump` frames a message exactly where the lines that the header map puts into the header
section leave it alone. -/
theorem dump_framed_iff (request : HttpRequest) (response : HttpResponse) :
    (request.dump =
        request.requestLine ++ request.headerSection ++ bytes "\r\n" ++ request.m_body ∧
      (Framed (fields request.headerSection) request.m_websocket request.m_body ↔
        Quiet (fields request.givenText) request.m_websocket request.m_body)) ∧
    response.dump =
        response.statusLine ++ response.headerSection ++ bytes "\r\n" ++ response.m_body ∧
      (Framed (fields response.headerSection) response.m_websocket response.m_body ↔
        Quiet (fields response.givenText) response.m_websocket response.m_body) := by
  refine ⟨⟨request.dump_sections, ?_⟩, response.dump_sections, ?_⟩
  · have split : fields request.headerSection =
        fields (connectionLine request.m_websocket request.m_close) ++
          fields request.givenText ++ fields (lengthLine request.m_body) := by
      have ended := ended_connectionLine request.m_websocket request.m_close
      unfold HttpRequest.headerSection
      rw [fields_append (ended.append request.ended_givenText), fields_append ended]
    obtain ⟨silent, counted⟩ := named_connectionLine request.m_websocket request.m_close
    refine framed_iff ?_ ?_
    · rw [split, named_append, named_append, silent, List.nil_append, named_lengthLine]
    · rw [split, named_append, named_append, named_connection_lengthLine, List.append_nil,
        List.length_append, counted, Nat.add_comm]
  · have split : fields response.headerSection = fields response.givenText ++
        fields (connectionLine response.m_websocket response.m_close) ++
          fields (lengthLine response.m_body) := by
      have ended := ended_connectionLine response.m_websocket response.m_close
      unfold HttpResponse.headerSection
      rw [fields_append (response.ended_givenText.append ended),
        fields_append response.ended_givenText]
    obtain ⟨silent, counted⟩ := named_connectionLine response.m_websocket response.m_close
    refine framed_iff ?_ ?_
    · rw [split, named_append, named_append, silent, List.append_nil, named_lengthLine]
    · rw [split, named_append, named_append, named_connection_lengthLine, List.append_nil,
        List.length_append, counted]

/-- The messages of the test program, the one with a body and a length of its own. -/
theorem smuggled :
    ¬ Framed (fields ({ HttpRequest.new with m_body := bytes "hello sylar" }.setHeader
        (bytes "Content-Length") (bytes "5")).headerSection) false (bytes "hello sylar") ∧
      ¬ Framed (fields ({ HttpResponse.new with m_body := bytes "hello sylar" }.setHeader
        (bytes "Content-Length") (bytes "5")).headerSection) false (bytes "hello sylar") := by
  refine ⟨?_, ?_⟩
  · intro framed
    have once := framed.once
    revert once
    decide
  · intro framed
    have once := framed.once
    revert once
    decide

end CorReactor.Http
