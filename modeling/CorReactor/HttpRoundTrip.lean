import CorReactor.HttpFragments
import CorReactor.HttpTraces

set_option autoImplicit false

/-! `HttpRequestParser::execute` on what `HttpRequest::dump` writes. -/

namespace CorReactor.Http

open Http11 (Line)
open HttpRequestParser (versionText setHeaders)

namespace HttpRequest

/-- A plain request within the grammar. Names are tokens, and values have no control characters
and no leading blank. -/
structure WellFormed (r : HttpRequest) : Prop where
  plain : r.m_websocket = false
  method : r.m_method ≠ .INVALID_METHOD
  version : r.m_version = 0x10 ∨ r.m_version = 0x11
  path : ((Http11.pathAbsolute false).machine 0).accepts r.m_path = true
  query : ((Http11.query false).machine 0).accepts r.m_query = true
  fragment : ((Http11.fragment false).machine 0).accepts r.m_fragment = true
  names : ∀ h ∈ r.m_headers.entries, h.1 ≠ [] ∧ ∀ c ∈ h.1, Http11.tokenChar c = true
  values : ∀ h ∈ r.m_headers.entries, (∀ c ∈ h.2, Http11.control c = false) ∧
    ∀ c ∈ h.2.head?, c ≠ 32

/-- The lines that `dump` adds to the headers. -/
def added (r : HttpRequest) : List (Bytes × Bytes) :=
  (bytes "connection", bytes (if r.m_close then "close" else "keep-alive")) ::
    if r.m_body = [] then [] else [(bytes "content-length", decimal r.m_body.length)]

/-- The header lines of a dump. -/
def lines (r : HttpRequest) : List Line :=
  ⟨bytes "connection", true, bytes (if r.m_close then "close" else "keep-alive")⟩ ::
    (r.dumped.map (fun i => ⟨i.1, false, i.2⟩) ++
      if r.m_body = [] then [] else [⟨bytes "content-length", true, decimal r.m_body.length⟩])

variable {r : HttpRequest}

theorem dump_eq (plain : r.m_websocket = false) :
    r.dump = Http11.requestText (httpMethodToString r.m_method)
      (Http11.uriText r.m_path r.m_query r.m_fragment) (versionText r.m_version) r.lines ++
        10 :: r.m_body := by
  have blank : bytes " " = [32] := by decide
  have asks : bytes "?" = [63] := by decide
  have hash : bytes "#" = [35] := by decide
  have ends : bytes "\r\n" = [13, 10] := by decide
  have colon : bytes ":" = [58] := by decide
  have http : bytes " HTTP/" = 32 :: bytes "HTTP/" := by decide
  have connection : bytes "connection: " = bytes "connection" ++ [58, 32] := by decide
  have length : bytes "content-length: " = bytes "content-length" ++ [58, 32] := by decide
  have twice : bytes "\r\n\r\n" = [13, 10, 13, 10] := by decide
  have headers : (r.dumped.map fun i => (⟨i.1, false, i.2⟩ : Line)).flatMap Line.text =
      r.dumped.flatMap fun i => headerLine i.1 i.2 := by
    rw [List.flatMap_map]
    refine List.flatMap_congr fun i _ => ?_
    simp only [Line.text, headerLine, colon, ends, Bool.false_eq_true, ↓reduceIte,
      List.nil_append, List.append_assoc, List.cons_append]
  have uri : ∀ rest, r.m_path ++ ((if r.m_query = [] then [] else bytes "?") ++ (r.m_query ++
      ((if r.m_fragment = [] then [] else bytes "#") ++ (r.m_fragment ++ rest)))) =
        Http11.uriText r.m_path r.m_query r.m_fragment ++ rest := by
    intro rest
    rw [Http11.uriText, asks, hash]
    by_cases query : r.m_query = [] <;> by_cases fragment : r.m_fragment = [] <;>
      simp only [query, fragment, ↓reduceIte, List.nil_append, List.append_assoc, List.cons_append,
        List.append_nil]
  simp only [dump, Http11.requestText, lines, plain, Bool.false_eq_true, ↓reduceIte, blank, ends,
    http, connection, length, twice, List.append_assoc, uri, List.flatMap_cons,
    List.flatMap_append, headers, versionText, Line.text, List.cons_append, List.nil_append]
  by_cases empty : r.m_body = []
  · simp only [empty, ↓reduceIte, List.flatMap_nil, List.nil_append]
  · simp only [empty, ↓reduceIte, List.flatMap_singleton, Line.text, List.append_assoc,
      List.cons_append, List.nil_append]

theorem decimal_ne_nil (n : Nat) : decimal n ≠ [] :=
  fun nothing => Nat.toDigits_ne_nil (List.map_eq_nil_iff.mp nothing)

theorem decimal_digits {n : Nat} {c : UInt8} (member : c ∈ decimal n) :
    Http11.digit c = true := by
  obtain ⟨d, inside, rfl⟩ := List.mem_map.mp member
  have isDigit := Nat.isDigit_of_mem_toDigits (by decide) (by decide) inside
  rw [Char.isDigit, Bool.and_eq_true_iff, decide_eq_true_iff, decide_eq_true_iff] at isDigit
  have below : d.toNat < 58 := Nat.lt_succ_of_le (UInt32.le_iff_toNat_le.mp isDigit.2)
  have above : 48 ≤ d.toNat := UInt32.le_iff_toNat_le.mp isDigit.1
  have all : ∀ n < 58, 48 ≤ n → Http11.digit n.toUInt8 = true := by decide
  exact all d.toNat below above

theorem mem_dumped (plain : r.m_websocket = false) {h : Bytes × Bytes} :
    h ∈ r.dumped ↔ h ∈ r.m_headers.entries ∧ folded h.1 ≠ folded (bytes "connection") := by
  rw [dumped, List.mem_filter, plain]
  refine and_congr_right fun _ => ?_
  simp only [Bool.not_false, Bool.true_and, Bool.not_eq_true', beq_eq_false_iff_ne, ne_eq,
    (strcasecmp_compares _ _).2]

theorem lines_formed (formed : r.WellFormed) : ∀ l ∈ r.lines, l.WellFormed := by
  intro l member
  rcases List.mem_cons.mp member with rfl | member
  · cases r.m_close <;> constructor <;> decide +kernel
  · rcases List.mem_append.mp member with inside | inside
    · obtain ⟨h, dumped, rfl⟩ := List.mem_map.mp inside
      have stored := ((mem_dumped formed.plain).mp dumped).1
      exact ⟨(formed.names h stored).1, (formed.names h stored).2, (formed.values h stored).1,
        (formed.values h stored).2, fun blank => by cases blank⟩
    · split at inside
      · cases inside
      · cases List.mem_singleton.mp inside
        have digits : ∀ c, Http11.digit c = true → Http11.control c = false ∧ c ≠ 32 :=
          Http11.forall_bytes (by decide +kernel)
        have name : bytes "content-length" ≠ [] ∧
            ∀ c ∈ bytes "content-length", Http11.tokenChar c = true := by decide +kernel
        refine ⟨name.1, name.2, fun c member => ?_, fun c head => ?_, fun _ => decimal_ne_nil _⟩
        · exact (digits c (decimal_digits member)).1
        · exact (digits c (decimal_digits (List.mem_of_mem_head? head))).2

/-! ### The header map -/

variable {m : HttpRequest}

/-- Setting headers keeps the rest of the request. -/
theorem setHeaders_rest (ls : List Line) (m : HttpRequest) :
    setHeaders ls m = { m with m_headers := (setHeaders ls m).m_headers } := by
  induction ls generalizing m with
  | nil => rfl
  | cons l ls ih => exact ih (m.setHeader l.name l.value)

theorem setHeaders_entries (ls : List Line) (m : HttpRequest) :
    (setHeaders ls m).m_headers.entries =
      (ls.map fun l => (l.name, l.value)).foldl
        (fun e h => OrderedMap.set caseInsensitiveLess e h.1 h.2) m.m_headers.entries := by
  induction ls generalizing m with
  | nil => rfl
  | cons l ls ih => exact ih (m.setHeader l.name l.value)

theorem dumped_distinct :
    r.dumped.Pairwise fun a b => folded a.1 ≠ folded b.1 := by
  have sorted : r.dumped.Pairwise fun a b => caseInsensitiveLess a.1 b.1 = true :=
    r.m_headers.sorted.sublist List.filter_sublist
  exact sorted.imp fun less => ((caseInsensitiveLess_compares _ _).mp less).ne

theorem connection_ne_length :
    folded (bytes "connection") ≠ folded (bytes "content-length") := by decide

/-- The header map of the lines: the headers of the request, but for those that are added. -/
theorem lines_headers (plain : r.m_websocket = false) (empty : m.m_headers = .empty) :
    (∀ h, (∀ a ∈ r.added, folded h.1 ≠ folded a.1) →
      (h ∈ (setHeaders r.lines m).m_headers.entries ↔ h ∈ r.m_headers.entries)) ∧
    ∀ a ∈ r.added, (setHeaders r.lines m).m_headers.find? a.1 = some a.2 := by
  have compares := caseInsensitiveLess_compares
  have others : ∀ h ∈ r.dumped, folded (bytes "connection") ≠ folded h.1 :=
    fun h member => ((mem_dumped plain).mp member).2.symm
  generalize close : bytes (if r.m_close then "close" else "keep-alive") = word
  -- The map behind the lines of the request's own headers.
  generalize plain_headers : r.dumped.foldl
    (fun e h => OrderedMap.set caseInsensitiveLess e h.1 h.2)
      [(bytes "connection", word)] = base
  have mem_base : ∀ h, h ∈ base ↔ h ∈ r.dumped ∨ h = (bytes "connection", word) := by
    intro h
    rw [← plain_headers, OrderedMap.mem_foldl_set compares dumped_distinct, List.mem_singleton]
    intro g member f inside
    rw [List.mem_singleton.mp inside]
    exact others g member
  have mem_plain : ∀ h, folded h.1 ≠ folded (bytes "connection") →
      (h ∈ base ↔ h ∈ r.m_headers.entries) := by
    intro h other
    rw [mem_base, mem_dumped plain, and_iff_left other, or_iff_left]
    rintro rfl
    exact other rfl
  have find_connection : OrderedMap.find? caseInsensitiveLess base (bytes "connection") =
      some word := by
    rw [← plain_headers, OrderedMap.find?_foldl_set compares others]
    exact (OrderedMap.find?_set compares (m := [])).trans (if_pos rfl)
  have entries : (setHeaders r.lines m).m_headers.entries =
      (if r.m_body = [] then [] else [(bytes "content-length", decimal r.m_body.length)]).foldl
        (fun e h => OrderedMap.set caseInsensitiveLess e h.1 h.2) base := by
    rw [setHeaders_entries, empty, lines, close, ← plain_headers]
    simp only [List.map_cons, List.map_append, List.map_map, List.foldl_cons, List.foldl_append]
    have names : r.dumped.map ((fun l : Line => (l.name, l.value)) ∘
        fun i => (⟨i.1, false, i.2⟩ : Line)) = r.dumped := List.map_id _
    rw [names]
    by_cases none_left : r.m_body = []
    · simp only [none_left, ↓reduceIte, List.map_nil]
      rfl
    · simp only [none_left, ↓reduceIte, List.map_cons, List.map_nil]
      rfl
  simp only [MapType.find?, entries, added, close]
  by_cases none_left : r.m_body = []
  · simp only [none_left, ↓reduceIte, List.foldl_nil, List.mem_singleton, forall_eq]
    exact ⟨mem_plain, find_connection⟩
  · simp only [none_left, ↓reduceIte, List.foldl_cons, List.foldl_nil, List.mem_cons,
      List.not_mem_nil, or_false, forall_eq_or_imp, forall_eq]
    refine ⟨fun h other => ?_, ?_, ?_⟩
    · rw [OrderedMap.mem_set_of_ne compares other.2, mem_plain h other.1]
    · rw [OrderedMap.find?_set compares, if_neg connection_ne_length, find_connection]
    · rw [OrderedMap.find?_set compares, if_pos rfl]

end HttpRequest

open HttpRequestParser

/-- A new parser reads the dump as the request, up to the lines that are added, and leaves the
body. -/
def RoundTrips (behind : Nat → UInt8) (query_start : Nat) (r : HttpRequest) : Prop :=
  ∃ returned parser left,
    (new (httpParser false) query_start).execute (httpParser false) ⟨r.dump, behind⟩ =
      some (returned, parser, left) ∧
    parser.isFinished (httpParser false) = 1 ∧ parser.hasError (httpParser false) = false ∧
    parser.m_data.m_method = r.m_method ∧ parser.m_data.m_version = r.m_version ∧
    parser.m_data.m_path = r.m_path ∧ parser.m_data.m_query = r.m_query ∧
    parser.m_data.m_fragment = r.m_fragment ∧
    (∀ h, (∀ a ∈ r.added, folded h.1 ≠ folded a.1) →
      (h ∈ parser.m_data.m_headers.entries ↔ h ∈ r.m_headers.entries)) ∧
    (∀ a ∈ r.added, parser.m_data.m_headers.find? a.1 = some a.2) ∧ left = r.m_body

variable {behind : Nat → UInt8} {query_start : Nat} {r : HttpRequest}

/-- The methods but for one are within the grammar. -/
theorem method_accepts {method : HttpMethod} (registered : method ≠ .INVALID_METHOD)
    (spelled : method ≠ .MSEARCH) :
    (Http11.method.machine 0).accepts (httpMethodToString method) = true := by
  cases method <;> first | decide | exact absurd rfl registered | exact absurd rfl spelled

theorem version_accepts {v : UInt8} (known : v = 0x10 ∨ v = 0x11) :
    (Http11.httpVersion.machine 0).accepts (versionText v) = true := by
  rcases known with rfl | rfl <;> decide

theorem scan_dump (behind : Nat → UInt8) (query_start : Nat) (formed : r.WellFormed)
    (spelled : r.m_method ≠ .MSEARCH)
    (short : r.dump.length < 2 ^ 63) :
    ∃ cs p after, writeExec (httpParser false) ⟨r.dump, behind⟩
        (new (httpParser false) query_start) = some (some cs, p, after) ∧
      ((httpParser false).final cs).isSome = true ∧ r.dump.drop p = r.m_body ∧
      after.m_error = 0 ∧
      after.m_data = setHeaders r.lines { HttpRequest.new with
        m_method := r.m_method
        m_version := r.m_version
        m_path := r.m_path
        m_query := r.m_query
        m_fragment := r.m_fragment } := by
  have some_line : r.lines ≠ [] := List.cons_ne_nil _ _
  have completes := Http11.request_completes (method_accepts formed.method spelled) formed.path
    formed.query formed.fragment (version_accepts formed.version) some_line
    (HttpRequest.lines_formed formed)
  obtain ⟨raw, last, completed, trace, finished⟩ := completes 0
  have some_path : r.m_path ≠ [] := by
    obtain ⟨w, path⟩ := Http11.exists_of_absolute formed.path
    rw [path]
    exact List.cons_ne_nil _ _
  have holds := @Memory.holds_buffer ⟨r.dump, behind⟩
  have text := HttpRequest.dump_eq formed.plain
  dsimp only at holds
  rw [text] at holds short
  rw [List.length_append] at short
  obtain ⟨there, -⟩ := Memory.holds_append.mp holds
  obtain ⟨after, played, data, error⟩ := request_does formed.method formed.version some_path
    (fun l member => (HttpRequest.lines_formed formed l member).name) there (by omega)
    (new (httpParser false) query_start)
  rw [← trace] at played
  rw [text]
  generalize Http11.requestText (httpMethodToString r.m_method)
    (Http11.uriText r.m_path r.m_query r.m_fragment) (versionText r.m_version) r.lines = front
    at played completed ⊢
  have ended : ∀ memory, perform memory (0 + front.length) (Ragel.inOrder last) after =
      some ({ after with mParser := done (0 + front.length) after.mParser }, true) := by
    intro memory
    rw [finished]
    rfl
  obtain ⟨u, ran, final⟩ := scan_of_completes completed played (ended _) r.m_body
  refine ⟨u, front.length + 1, { after with mParser := done (0 + front.length) after.mParser },
    ?_, final, ?_, error, ?_⟩
  · refine ran.trans ?_
    rw [Nat.zero_add]
    rfl
  · rw [List.append_cons, List.drop_left' (by rw [List.length_append, List.length_singleton])]
  · refine data.trans ?_
    by_cases query : r.m_query = [] <;> by_cases fragment : r.m_fragment = [] <;>
      simp only [query, fragment, ↓reduceIte] <;> rfl

theorem roundTrips_of (formed : r.WellFormed) (spelled : r.m_method ≠ .MSEARCH)
    (short : r.dump.length < 2 ^ 31) : RoundTrips behind query_start r := by
  obtain ⟨cs, p, after, ran, final, left, error, data⟩ :=
    scan_dump behind query_start formed spelled (by omega)
  obtain ⟨R, waits⟩ := httpParser_waits false
  have nonempty : r.dump ≠ [] := by
    rw [HttpRequest.dump_eq formed.plain]
    exact List.append_ne_nil_of_right_ne_nil _ (List.cons_ne_nil _ _)
  have headers := HttpRequest.lines_headers (m := { HttpRequest.new with
    m_method := r.m_method
    m_version := r.m_version
    m_path := r.m_path
    m_query := r.m_query
    m_fragment := r.m_fragment }) formed.plain rfl
  rw [← data] at headers
  rw [HttpRequest.setHeaders_rest] at data
  refine ⟨_, _, _, execute_ran ⟨r.dump, behind⟩ query_start waits nonempty short ran, ?_, ?_, ?_,
    ?_, ?_, ?_, ?_, headers.1, headers.2, left⟩
  · exact if_pos final
  · simp only [hasError, error, ne_eq, not_true_eq_false, Option.isNone_some, Bool.or_false,
      decide_false]
  all_goals
    dsimp only
    rw [data]

/-! ### The method that is spelled with blanks -/

/-- The machine goes into the error state within the word. -/
def rejects (M : ActionMachine) : M.State → Bytes → Bool
  | _, [] => false
  | s, c :: w =>
      match M.step s c with
      | none => true
      | some (as, t) => .done ∉ Ragel.inOrder as && rejects M t w

section Rejects

variable {M : ActionMachine} {memory : Memory}

theorem scan_rejects {s : M.State} {p q : Nat} {w rest : Bytes}
    {parser after : HttpRequestParser M.State} {last : Option M.State}
    (rejected : rejects M s w = true)
    (ran : scan M memory s p (w ++ rest) parser = some (last, q, after)) : last = none := by
  induction w generalizing s p parser with
  | nil => cases rejected
  | cons c w ih =>
      rw [rejects] at rejected
      rw [List.cons_append, scan] at ran
      split at ran
      case h_1 =>
        cases ran
        rfl
      case h_2 as t step =>
        rw [step] at rejected
        obtain ⟨unbroken, later⟩ := Bool.and_eq_true_iff.mp rejected
        obtain ⟨⟨next, broken⟩, performed, ran⟩ := Option.bind_eq_some_iff.mp ran
        cases broken with
        | true => exact absurd ((perform_breaks performed).mp rfl) (of_decide_eq_true unbroken)
        | false => exact ih later ran

/-- A request that is rejected is not finished. -/
theorem isFinished_of_rejects {w rest : Bytes} {behind : Nat → UInt8} {query_start returned : Nat}
    {parser : HttpRequestParser M.State} {left : Bytes} (rejected : rejects M M.start w = true)
    (executed : (new M query_start).execute M ⟨w ++ rest, behind⟩ =
      some (returned, parser, left)) : parser.isFinished M = -1 := by
  obtain ⟨⟨offset, parsed⟩, done, same⟩ := Option.map_eq_some_iff.mp executed
  cases same
  have nonempty : (w ++ rest).length ≠ 0 := by
    cases w with
    | nil => cases rejected
    | cons c w => exact Nat.succ_ne_zero _
  simp only [httpParserExecute, if_neg nonempty] at done
  split at done
  case isTrue => cases done
  case isFalse =>
    obtain ⟨⟨last, p, after⟩, ran, done⟩ := Option.bind_eq_some_iff.mp done
    have stopped := scan_rejects rejected ran
    subst stopped
    simp only [Option.ite_none_right_eq_some, Option.some.injEq, Prod.mk.injEq] at done
    obtain ⟨-, -, rfl⟩ := done
    have state : (if after.mParser.cs.isNone then after.mParser.cs else none) = none := by
      cases after.mParser.cs <;> rfl
    simp only [isFinished, state]

end Rejects

theorem not_roundTrips_msearch (formed : r.WellFormed) (spelled : r.m_method = .MSEARCH) :
    ¬ RoundTrips behind query_start r := by
  rintro ⟨returned, parser, left, executed, finished, -⟩
  obtain ⟨rest, front⟩ : ∃ rest, r.dump = bytes "M - S" ++ rest := by
    have name : httpMethodToString .MSEARCH = bytes "M - S" ++ bytes "EARCH" := by decide
    rw [HttpRequest.dump_eq formed.plain, Http11.requestText, spelled, name]
    exact ⟨_, by rw [List.append_assoc, List.append_assoc]⟩
  rw [front] at executed
  have rejected : rejects (httpParser false) (httpParser false).start (bytes "M - S") = true := by
    decide
  rw [isFinished_of_rejects rejected executed] at finished
  cases finished

/-- The round trip holds for all methods but `MSEARCH`, as long as the length fits into an `int`. -/
theorem requestTrips_iff (behind : Nat → UInt8) (query_start : Nat) (formed : r.WellFormed) :
    RoundTrips behind query_start r ↔ r.m_method ≠ .MSEARCH ∧ r.dump.length < 2 ^ 31 := by
  constructor
  · intro trips
    refine ⟨fun spelled => not_roundTrips_msearch formed spelled trips, ?_⟩
    obtain ⟨returned, parser, left, executed, -⟩ := trips
    have nonempty : r.dump ≠ [] := by
      rw [HttpRequest.dump_eq formed.plain]
      exact List.append_ne_nil_of_right_ne_nil _ (List.cons_ne_nil _ _)
    exact (execute_cases ⟨r.dump, behind⟩ nonempty executed).1
  · rintro ⟨spelled, short⟩
    exact roundTrips_of formed spelled short

/-- A request with everything in it, an empty header value too. -/
def upload : HttpRequest :=
  { HttpRequest.new with
    m_method := .PUT
    m_version := 0x10
    m_path := bytes "/a/b"
    m_query := bytes "x=1?"
    m_fragment := bytes "top"
    m_body := bytes "GET / "
    m_headers := (MapType.empty.set (bytes "Host") (bytes "a b")).set (bytes "X-Empty") [] }

theorem roundTrips_upload : RoundTrips (fun _ => 71) 5 upload :=
  (requestTrips_iff (fun _ => 71) 5 (by constructor <;> decide +kernel)).mpr (by decide +kernel)

/-- `M - SEARCH` is no method for the grammar. -/
theorem msearch_lost :
    HttpRequest.WellFormed { HttpRequest.new with m_method := .MSEARCH } ∧
      ¬ RoundTrips (fun _ => 0) 0 { HttpRequest.new with m_method := .MSEARCH } := by
  have formed : HttpRequest.WellFormed { HttpRequest.new with m_method := .MSEARCH } := by
    constructor <;> decide
  exact ⟨formed, not_roundTrips_msearch formed rfl⟩

end CorReactor.Http
