import CorReactor.HttpClientTraces
import CorReactor.HttpConsumed

set_option autoImplicit false

/-! `HttpResponseParser::execute` on what `HttpResponse::dump` writes. -/

namespace CorReactor.Http

open HttpClient (Action Field Plain)
open HttpRequest (decimal)
open HttpRequestParser (versionText toInt toInt_eq_iff)

namespace HttpResponse

/-- A plain response within the grammar. Names are tokens other than those that the framing is
read from, and values have no line ends and no leading blank. -/
structure WellFormed (r : HttpResponse) : Prop where
  plain : r.m_websocket = false
  version : r.m_version = 0x10 ∨ r.m_version = 0x11
  reason : ∀ c ∈ r.m_reason, c ≠ 13 ∧ c ≠ 10
  names : ∀ h ∈ r.m_headers.entries, h.1 ≠ [] ∧ ∀ c ∈ h.1, HttpClient.token c = true
  values : ∀ h ∈ r.m_headers.entries, h.2 ≠ [] ∧ (∀ c ∈ h.2, c ≠ 13 ∧ c ≠ 10) ∧
    ∀ c ∈ h.2.head?, Http11.space c = false
  framing : ∀ h ∈ r.m_headers.entries, folded h.1 ≠ folded (bytes "Transfer-Encoding") ∧
    folded h.1 ≠ folded (bytes "Content-Length")

/-- The reason that a dump has. -/
def reasonText (r : HttpResponse) : Bytes :=
  if r.m_reason = [] then httpStatusToString r.m_status else r.m_reason

/-- The length that a dump has. -/
def lengthDigits (r : HttpResponse) : Option Bytes :=
  if r.m_body = [] then none else some (decimal r.m_body.length)

/-- The lines that `dump` adds to the headers. -/
def added (r : HttpResponse) : List (Bytes × Bytes) :=
  (bytes "connection", bytes (if r.m_close then "close" else "keep-alive")) ::
    if r.m_body = [] then [] else [(bytes "content-length", decimal r.m_body.length)]

/-- The lines of the headers. -/
def lines (r : HttpResponse) : List Field := r.dumped.map fun i => ⟨i.1, i.2⟩

/-- A dump up to the last byte of its header block. -/
def front (r : HttpResponse) : Bytes :=
  HttpClient.responseText (versionText r.m_version) (decimal r.m_status.toNat) r.reasonText r.lines
    r.m_close r.lengthDigits

variable {r : HttpResponse}

theorem dump_eq (plain : r.m_websocket = false) : r.dump = r.front ++ 10 :: r.m_body := by
  have blank : bytes " " = [32] := by decide
  have ends : bytes "\r\n" = [13, 10] := by decide
  have colon : bytes ": " = [58, 32] := by decide
  have connection : bytes "connection: " = bytes "connection" ++ [58, 32] := by decide
  have length : bytes "content-length: " = bytes "content-length" ++ [58, 32] := by decide
  have twice : bytes "\r\n\r\n" = [13, 10, 13, 10] := by decide
  have headers : r.lines.flatMap Field.text = r.dumped.flatMap fun i => headerLine i.1 i.2 := by
    rw [lines, List.flatMap_map]
    refine List.flatMap_congr fun i _ => ?_
    simp only [Field.text, headerLine, colon, ends, List.append_assoc, List.cons_append,
      List.nil_append]
  simp only [dump, front, HttpClient.responseText, HttpClient.statusText, HttpClient.headersText,
    HttpClient.connectionLine, plain, Bool.false_eq_true, ↓reduceIte, blank, ends, connection,
    length, twice, headers, versionText, reasonText, lengthDigits, Field.text, List.append_assoc,
    List.cons_append, List.nil_append]
  by_cases empty : r.m_body = []
  · simp only [empty, ↓reduceIte, HttpClient.lengthText, List.nil_append]
  · simp only [empty, ↓reduceIte, HttpClient.lengthText, HttpClient.lengthLine, Field.text,
      List.append_assoc, List.cons_append, List.nil_append]

theorem mem_dumped (plain : r.m_websocket = false) {h : Bytes × Bytes} :
    h ∈ r.dumped ↔ h ∈ r.m_headers.entries ∧ folded h.1 ≠ folded (bytes "connection") := by
  rw [dumped, List.mem_filter, plain]
  refine and_congr_right fun _ => ?_
  simp only [Bool.not_false, Bool.true_and, Bool.not_eq_true', beq_eq_false_iff_ne, ne_eq,
    (strcasecmp_compares _ _).2]

theorem lines_plain (formed : r.WellFormed) : ∀ l ∈ r.lines, Plain l := by
  intro l member
  obtain ⟨h, dumped, rfl⟩ := List.mem_map.mp member
  obtain ⟨stored, other⟩ := (mem_dumped formed.plain).mp dumped
  have name := formed.names h stored
  have value := formed.values h stored
  have framing := formed.framing h stored
  have same : folded (bytes "connection") = folded (bytes "Connection") := by decide
  exact ⟨⟨name.1, name.2, value.1, value.2.1, value.2.2⟩, framing.1, same ▸ other, framing.2⟩

theorem statusTexts : ∀ x ∈ HTTP_STATUS_MAP, x.2 ≠ [] ∧ ∀ c ∈ x.2, c ≠ 13 ∧ c ≠ 10 := by
  have all : HTTP_STATUS_MAP.all (fun x => !x.2.isEmpty && x.2.all fun c => c != 13 && c != 10) =
      true := by decide +kernel
  intro x member
  have one := List.all_eq_true.mp all x member
  simp only [Bool.and_eq_true, Bool.not_eq_true', List.isEmpty_eq_false_iff, List.all_eq_true,
    bne_iff_ne] at one
  exact one

theorem reasonText_plain (formed : r.WellFormed) :
    r.reasonText ≠ [] ∧ ∀ c ∈ r.reasonText, c ≠ 13 ∧ c ≠ 10 := by
  unfold reasonText
  split
  · unfold httpStatusToString
    split
    · exact statusTexts _ (List.mem_of_find?_eq_some (by assumption))
    · decide +kernel
  · exact ⟨by assumption, formed.reason⟩

theorem lengthDigits_decimal :
    ∀ digits ∈ r.lengthDigits, digits ≠ [] ∧ ∀ c ∈ digits, Http11.digit c = true := by
  intro digits member
  unfold lengthDigits at member
  split at member
  · cases member
  · cases member
    exact ⟨HttpRequest.decimal_ne_nil _, fun c => HttpRequest.decimal_digits⟩

theorem version_plain {v : UInt8} (known : v = 0x10 ∨ v = 0x11) :
    (HttpClient.httpVersion.machine 0).accepts (versionText v) = true ∧
      ∀ c ∈ versionText v, c ≠ 32 ∧ c ≠ 13 ∧ c ≠ 10 := by
  rcases known with rfl | rfl <;> decide +kernel

theorem front_completes (formed : r.WellFormed) :
    ∃ raw last, httpclientParser.Completes r.front raw 10 last ∧
      Ragel.Like raw (HttpClient.responseTrace (versionText r.m_version) (decimal r.m_status.toNat)
        r.reasonText r.lines r.m_close r.lengthDigits) ∧ Ragel.inOrder last = [.done] := by
  have version := version_plain formed.version
  have reason := reasonText_plain formed
  exact HttpClient.response_completes version.1 version.2 (HttpRequest.decimal_ne_nil _)
    (fun c => HttpRequest.decimal_digits) reason.1 reason.2 (lines_plain formed)
    lengthDigits_decimal

/-! ### The header map -/

theorem dumped_distinct : r.dumped.Pairwise fun a b => folded a.1 ≠ folded b.1 := by
  have sorted : r.dumped.Pairwise fun a b => caseInsensitiveLess a.1 b.1 = true :=
    r.m_headers.sorted.sublist List.filter_sublist
  exact sorted.imp fun less => ((caseInsensitiveLess_compares _ _).mp less).ne

variable {m : HttpResponse}

/-- Setting headers keeps the rest of the response. -/
theorem setHeaders_rest (ls : List Field) (m : HttpResponse) :
    HttpResponseParser.setHeaders ls m =
      { m with m_headers := (HttpResponseParser.setHeaders ls m).m_headers } := by
  induction ls generalizing m with
  | nil => rfl
  | cons l ls ih => exact ih (m.setHeader l.name l.value)

theorem setHeaders_entries (ls : List Field) (m : HttpResponse) :
    (HttpResponseParser.setHeaders ls m).m_headers.entries =
      (ls.map fun l => (l.name, l.value)).foldl
        (fun e h => OrderedMap.set caseInsensitiveLess e h.1 h.2) m.m_headers.entries := by
  induction ls generalizing m with
  | nil => rfl
  | cons l ls ih => exact ih (m.setHeader l.name l.value)

/-- The header map of the lines: the headers of the response, but for those that are added. -/
theorem lines_headers (formed : r.WellFormed) (empty : m.m_headers = .empty) :
    let parsed := HttpResponseParser.setHeaders
      (r.lines ++ HttpResponseParser.added r.m_close r.lengthDigits) m
    (∀ h, (∀ a ∈ r.added, folded h.1 ≠ folded a.1) →
      (h ∈ parsed.m_headers.entries ↔ h ∈ r.m_headers.entries)) ∧
    ∀ a ∈ r.added, parsed.m_headers.find? a.1 = some a.2 := by
  have compares := caseInsensitiveLess_compares
  have pairs : (r.lines ++ HttpResponseParser.added r.m_close r.lengthDigits).map
      (fun l => (l.name, l.value)) = r.dumped ++ r.added := by
    have names : r.lines.map (fun l => (l.name, l.value)) = r.dumped := by
      rw [lines, List.map_map]
      exact List.map_id _
    rw [List.map_append, names, added, lengthDigits]
    split <;> rfl
  have base : ∀ h, h ∈ r.dumped.foldl (fun e h => OrderedMap.set caseInsensitiveLess e h.1 h.2)
      MapType.empty.entries ↔ h ∈ r.dumped := by
    intro h
    rw [OrderedMap.mem_foldl_set compares dumped_distinct (fun _ _ _ inside => by cases inside)]
    exact or_iff_left List.not_mem_nil
  have others (h : Bytes × Bytes) (other : folded h.1 ≠ folded (bytes "connection")) :
      h ∈ r.dumped ↔ h ∈ r.m_headers.entries := by
    rw [mem_dumped formed.plain]
    exact and_iff_left other
  have differ : folded (bytes "connection") ≠ folded (bytes "content-length") := by decide
  simp only [MapType.find?, setHeaders_entries, empty, pairs, List.foldl_append]
  rw [added]
  by_cases none_left : r.m_body = []
  · simp only [none_left, ↓reduceIte, List.foldl_cons, List.foldl_nil, List.mem_singleton,
      forall_eq]
    refine ⟨fun h other => ?_, ?_⟩
    · rw [OrderedMap.mem_set_of_ne compares other, base, others h other]
    · rw [OrderedMap.find?_set compares, if_pos rfl]
  · simp only [none_left, ↓reduceIte, List.foldl_cons, List.foldl_nil, List.mem_cons,
      List.not_mem_nil, or_false, forall_eq_or_imp, forall_eq]
    refine ⟨fun h other => ?_, ?_, ?_⟩
    · rw [OrderedMap.mem_set_of_ne compares other.2, OrderedMap.mem_set_of_ne compares other.1,
        base, others h other.1]
    · rw [OrderedMap.find?_set compares, if_neg differ, OrderedMap.find?_set compares, if_pos rfl]
    · rw [OrderedMap.find?_set compares, if_pos rfl]

end HttpResponse

namespace HttpResponseParser

open HttpResponse (reasonText_plain lines_plain lengthDigits_decimal front_completes)
open Ragel.Machine (play)

variable {State : Type} {memory : Memory} {p : Nat} {a : Action} {as : List Action}
  {tr : List (List Action)} {parser after : HttpResponseParser State} {behind : Nat → UInt8}

/-! ### Offsets -/

/-- Every offset of the parser is one that it has come to. -/
structure Behind (p : Nat) (parser : HttpclientParser State) : Prop where
  mark : parser.mark ≤ p
  field_start : parser.field_start ≤ p
  field_len : parser.field_len ≤ p

theorem Behind.mono {q : Nat} (le : p ≤ q) {parser : HttpclientParser State}
    (held : Behind p parser) : Behind q parser :=
  ⟨held.mark.trans le, held.field_start.trans le, held.field_len.trans le⟩

theorem checked_of_behind {len : Nat} {parser : HttpclientParser State} (held : Behind p parser)
    (less : p < len) : checked len parser = true := by
  obtain ⟨mark, field_start, field_len⟩ := held
  simp only [checked, Bool.and_eq_true, decide_eq_true_eq]
  omega

theorem act_behind (acted : parser.act memory p a = some after)
    (held : Behind p parser.mParser) : Behind p after.mParser := by
  obtain ⟨mark, field_start, field_len⟩ := held
  cases a with
  | mark | startValue =>
      cases acted
      exact ⟨Nat.le_refl p, field_start, field_len⟩
  | startField =>
      cases acted
      exact ⟨mark, Nat.le_refl p, field_len⟩
  | writeField =>
      cases acted
      refine ⟨mark, field_start, ?_⟩
      dsimp only
      rw [sizeSub_of_le field_start]
      exact Nat.sub_le _ _
  | writeContentLen | writeConnectionClose | statusCode | chunkSize | transChunked | done =>
      cases acted
      exact ⟨mark, field_start, field_len⟩
  | reasonPhrase =>
      obtain ⟨v, -, rfl⟩ := Option.map_eq_some_iff.mp acted
      exact ⟨mark, field_start, field_len⟩
  | httpVersion =>
      simp only [act, onResponseVersion] at acted
      split at acted
      · cases acted
        exact ⟨mark, field_start, field_len⟩
      · split at acted
        · cases acted
          exact ⟨mark, field_start, field_len⟩
        · obtain ⟨v, -, rfl⟩ := Option.map_eq_some_iff.mp acted
          exact ⟨mark, field_start, field_len⟩
  | writeValue =>
      simp only [act, onResponseHttpField] at acted
      split at acted
      · cases acted
        exact ⟨mark, field_start, field_len⟩
      · obtain ⟨key, -, acted⟩ := Option.bind_eq_some_iff.mp acted
        obtain ⟨val, -, rfl⟩ := Option.map_eq_some_iff.mp acted
        exact ⟨mark, field_start, field_len⟩

theorem perform_behind {broken : Bool}
    (performed : perform memory p as parser = some (after, broken))
    (held : Behind p parser.mParser) : Behind p after.mParser := by
  induction as generalizing parser with
  | nil =>
      cases performed
      exact held
  | cons a as ih =>
      obtain ⟨next, acted, rest⟩ := Option.bind_eq_some_iff.mp performed
      have later := act_behind acted held
      by_cases ends : a = .done
      · rw [if_pos ends] at rest
        cases rest
        exact later
      · rw [if_neg ends] at rest
        exact ih rest later

theorem play_behind (played : play (perform memory) p tr parser = some after)
    (held : Behind p parser.mParser) :
    Behind (p + tr.length) after.mParser ∧ after.mParser.nread = parser.mParser.nread := by
  induction tr generalizing p parser with
  | nil =>
      cases played
      exact ⟨held, rfl⟩
  | cons as tr ih =>
      rw [play] at played
      split at played
      case h_1 next performed =>
        have later := (perform_behind performed held).mono (Nat.le_succ p)
        obtain ⟨ended, nread⟩ := ih played later
        refine ⟨?_, nread.trans (perform_keeps performed).1⟩
        rw [List.length_cons, ← Nat.add_assoc, Nat.add_right_comm]
        exact ended
      case h_2 => cases played

/-! ### The whole dump -/

theorem play_inOrder (raw : List (List (Nat × Action))) :
    play (fun p actions => perform memory p (Ragel.inOrder actions)) p raw parser =
      play (perform memory) p (raw.map Ragel.inOrder) parser := by
  induction raw generalizing p parser with
  | nil => rfl
  | cons as raw ih =>
      rw [List.map_cons, play, play]
      split
      · exact ih
      · rfl

variable {r : HttpResponse} {status : Int} {body : Bytes}

/-- The actions of a header block, in the order in which the machine has them. -/
theorem front_plays (formed : r.WellFormed) {raw : List (List (Nat × Action))}
    (like : Ragel.Like raw (HttpClient.responseTrace (versionText r.m_version)
      (decimal r.m_status.toNat) r.reasonText r.lines r.m_close r.lengthDigits))
    (there : memory.buffer = r.front ++ body) (short : memory.buffer.length < 2 ^ 63)
    (parser : HttpResponseParser State) :
    ∃ after, play (perform memory) 0 (raw.map Ragel.inOrder) parser = some after ∧
      after.m_data = setHeaders (r.lines ++ added r.m_close r.lengthDigits)
        { parser.m_data with
          m_version := r.m_version, m_status := r.m_status, m_reason := r.reasonText } ∧
      after.m_error = parser.m_error := by
  have holds := @Memory.holds_buffer memory
  rw [there] at holds
  rw [there, List.length_append] at short
  obtain ⟨holds, -⟩ := Memory.holds_append.mp holds
  have inside : 0 + r.front.length ≤ memory.buffer.length := by
    rw [there, List.length_append]
    omega
  obtain ⟨after, played, data, error⟩ := response_does State formed.version
    (reasonText_plain formed).1 (fun l member => (lines_plain formed l member).toWellFormed)
    (fun digits member => (lengthDigits_decimal digits member).1) holds inside
    (Nat.lt_of_le_of_lt (Nat.le_add_right _ _) short) parser
  refine ⟨after, ?_, data, error⟩
  rw [play_perm (fun as => commutes_response as) (List.forall₂_map_left_iff.mpr like), played]

theorem exec_dump (memory : Memory) (status : Int) (formed : r.WellFormed)
    (there : memory.buffer = r.front ++ 10 :: body)
    (short : memory.buffer.length < 2 ^ 63) :
    ∃ cs after, writeExec httpclientParser memory (new httpclientParser status) =
        some (some cs, r.front.length + 1, after) ∧
      (httpclientParser.final cs).isSome = true ∧
      Behind r.front.length after.mParser ∧ after.mParser.nread = 0 ∧
      after.mParser.body_start = r.front.length + 1 ∧ after.m_error = 0 ∧
      after.m_data = setHeaders (r.lines ++ added r.m_close r.lengthDigits)
        { HttpResponse.new with
          m_version := r.m_version, m_status := r.m_status, m_reason := r.reasonText } := by
  obtain ⟨raw, last, completes, like, finished⟩ := front_completes formed
  obtain ⟨after, played, data, error⟩ :=
    front_plays formed like there short (new httpclientParser status)
  have lengths : (raw.map Ragel.inOrder).length = r.front.length := by
    rw [List.length_map]
    obtain ⟨t, u, reads, -⟩ := completes
    exact reads.length
  obtain ⟨behind, nread⟩ := play_behind played ⟨Nat.le_refl 0, Nat.le_refl 0, Nat.le_refl 0⟩
  rw [Nat.zero_add, lengths] at behind
  have ended : perform memory (0 + r.front.length) (Ragel.inOrder last) after =
      some ({ after with mParser := { after.mParser with
        body_start := 0 + r.front.length + 1 } }, true) := by
    rw [finished]
    rfl
  rw [← play_inOrder] at played
  obtain ⟨cs, ran, final⟩ := Ragel.Machine.exec_of_completes completes played ended body
  rw [← there, Nat.zero_add] at ran
  exact ⟨cs, _, ran, final, ⟨behind.mark, behind.field_start, behind.field_len⟩, nread, rfl, error,
    data⟩

/-- What a parser has read is the response, up to the lines that are added. -/
structure Parsed (r : HttpResponse) (parser : HttpResponseParser httpclientParser.State) :
    Prop where
  finished : ∃ cs, parser.mParser.cs = some cs ∧ (httpclientParser.final cs).isSome = true
  error : parser.m_error = 0
  status : parser.m_data.m_status = r.m_status
  version : parser.m_data.m_version = r.m_version
  reason : parser.m_data.m_reason = r.reasonText
  headers : ∀ h, (∀ a ∈ r.added, folded h.1 ≠ folded a.1) →
    (h ∈ parser.m_data.m_headers.entries ↔ h ∈ r.m_headers.entries)
  added : ∀ a ∈ r.added, parser.m_data.m_headers.find? a.1 = some a.2

theorem execute_dump (formed : r.WellFormed) (terminated : behind 0 = 0)
    (short : r.dump.length < 2 ^ 31) (status : Int) (chunck : Bool) :
    ∃ parser, (new httpclientParser status).execute httpclientParser ⟨r.dump, behind⟩ chunck =
      some (toSize (toInt (r.front.length + 2)), parser,
        if toSize (toInt (r.front.length + 2)) ≤ r.dump.length
          then some (r.dump.drop (toSize (toInt (r.front.length + 2)))) else none) ∧
      Parsed r parser := by
  have text := HttpResponse.dump_eq formed.plain
  have length : r.dump.length = r.front.length + 1 + r.m_body.length := by
    rw [text, List.length_append, List.length_cons]
    omega
  obtain ⟨cs, after, ran, final, offsets, nread, started, error, data⟩ :=
    exec_dump ⟨r.dump, behind⟩ status formed text
      (Nat.lt_trans short (by decide))
  have headers := HttpResponse.lines_headers (m := { HttpResponse.new with
    m_version := r.m_version, m_status := r.m_status, m_reason := r.reasonText }) formed rfl
  dsimp only at headers
  rw [← data] at headers
  rw [HttpResponse.setHeaders_rest] at data
  have fresh : (if chunck then { new httpclientParser status with
      mParser := init httpclientParser (new httpclientParser status).mParser }
      else new httpclientParser status) = new httpclientParser status := by
    cases chunck <;> rfl
  have nul : (⟨r.dump, behind⟩ : Memory).byte r.dump.length = 0 := by
    rw [Memory.byte, List.getElem?_eq_none (Nat.le_refl _), Option.getD_none, Nat.sub_self]
    exact terminated
  have fits := (toInt_eq_iff r.dump.length).mpr short
  have count : (0 + (r.front.length + 1)) % 2 ^ 64 = r.front.length + 1 := by omega
  have adjusted : (r.front.length + 1 + 1) % 2 ^ 64 = r.front.length + 2 := by omega
  have bounds : r.front.length + 1 ≤ r.dump.length := by omega
  let parser := { after with mParser := { after.mParser with
    cs := some cs, nread := r.front.length + 2 } }
  have executed : (new httpclientParser status).httpclientParserExecute httpclientParser
      ⟨r.dump, behind⟩ = some (toInt (r.front.length + 2), parser) := by
    unfold httpclientParserExecute
    simp only [nul, fits, ran, nread, count, started, bounds, adjusted, ne_eq, not_true_eq_false,
      ↓reduceIte, Option.bind_some, and_self, Nat.succ_ne_zero, not_false_eq_true]
    refine Eq.trans (if_pos (checked_of_behind ?_ bounds)) ?_
    · exact ⟨offsets.mark, offsets.field_start, offsets.field_len⟩
    · simp only [parser, started]
  refine ⟨parser, ?_, ⟨cs, rfl, final⟩, error, ?_, ?_, ?_, headers.1, headers.2⟩
  · rw [execute, fresh, executed, Option.map_some]
  all_goals
    dsimp only [parser]
    rw [data]

/-- A new parser reads the dump as the response, and takes one byte more than the header block:
the first one of the body is lost, and without a body the length of the move wraps. -/
def RoundTrips (behind : Nat → UInt8) (status : Int) (chunck : Bool) (r : HttpResponse) : Prop :=
  ∃ parser, (new httpclientParser status).execute httpclientParser ⟨r.dump, behind⟩ chunck =
      some (r.dump.length - r.m_body.length + 1, parser,
        if r.m_body = [] then none else some (r.m_body.drop 1)) ∧
    Parsed r parser

/-- A buffer whose length is no `int` is refused. -/
theorem execute_short {M : ClientMachine} {parser : HttpResponseParser M.State} {chunck : Bool}
    {x : Nat × HttpResponseParser M.State × Option Bytes}
    (executed : parser.execute M memory chunck = some x) : memory.buffer.length < 2 ^ 31 := by
  refine (toInt_eq_iff _).mp ?_
  by_contra wrapped
  obtain ⟨⟨result, after⟩, done, -⟩ := Option.map_eq_some_iff.mp executed
  unfold httpclientParserExecute at done
  dsimp only at done
  rw [if_pos wrapped, ite_self] at done
  cases done

theorem toSize_toInt {n : Nat} (le : n ≤ 2 ^ 31) : toSize (toInt n) = n ↔ n < 2 ^ 31 := by
  constructor
  · intro same
    refine Nat.lt_of_le_of_ne le ?_
    rintro rfl
    exact absurd same (by decide)
  · intro less
    rw [(toInt_eq_iff n).mpr less]
    unfold toSize
    omega

end HttpResponseParser

end CorReactor.Http
