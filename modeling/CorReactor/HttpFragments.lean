import CorReactor.HttpParserRuns

set_option autoImplicit false

/-! A request given to `HttpRequestParser::execute` in pieces. -/

namespace CorReactor.Http

namespace HttpRequestParser

/-- A call of `execute`: the length passed in, the bytes that the machine consumed, and what
was returned. -/
structure Call where
  length : Nat
  consumed : Nat
  returned : Nat
  deriving DecidableEq

section Feed

variable (M : ActionMachine)

/-- `p - buffer` at the end of the loop. -/
def consumed (memory : Memory) (parser : HttpRequestParser M.State) : Nat :=
  match writeExec M memory parser with
  | some (_, p, _) => p
  | none => 0

/-- One call for each piece, with what the last call left over in front of it. -/
def feed (behind : Nat → UInt8) : HttpRequestParser M.State → Bytes → List Bytes →
    Option (List Call × HttpRequestParser M.State)
  | parser, _, [] => some ([], parser)
  | parser, left, piece :: pieces =>
      let memory := ⟨left ++ piece, behind⟩
      (parser.execute M memory).bind fun (returned, next, left) =>
        (feed behind next left pieces).map fun (calls, last) =>
          (⟨memory.buffer.length, parser.consumed M memory, returned⟩ :: calls, last)

/-- Every call returns what it consumed, and the request and the status in the end are those
after one call on the whole. -/
def Independent (behind : Nat → UInt8) (query_start : Nat) (pieces : List Bytes) : Prop :=
  ∃ calls last returned single left,
    feed M behind (new M query_start) [] pieces = some (calls, last) ∧
    (∀ call ∈ calls, call.returned = call.consumed ∧ call.returned ≤ call.length) ∧
    (new M query_start).execute M ⟨pieces.flatten, behind⟩ = some (returned, single, left) ∧
    last.m_data = single.m_data ∧ last.isFinished M = single.isFinished M ∧
    last.hasError M = single.hasError M

end Feed

variable {M : ActionMachine} {memory : Memory} {behind : Nat → UInt8} {query_start : Nat}
  {parser : HttpRequestParser M.State} {R : M.State → Prop}

theorem toInt_eq_iff (n : Nat) : toInt n = n ↔ n < 2 ^ 31 := by
  have unfolded : toInt n = (n : Int).bmod 4294967296 := rfl
  rw [unfolded]
  refine ⟨fun same => ?_, fun short => ?_⟩
  · have below := @Int.bmod_lt n 4294967296 (by omega)
    omega
  · exact Int.bmod_eq_of_le (by omega) (by omega)

theorem consumed_eq {last : Option M.State} {p : Nat} {after : HttpRequestParser M.State}
    (ran : writeExec M memory parser = some (last, p, after)) : parser.consumed M memory = p := by
  rw [consumed, ran]

theorem writeExec_keeps {last : Option M.State} {p : Nat} {after : HttpRequestParser M.State}
    (ran : writeExec M memory parser = some (last, p, after)) :
    after.mParser.cs = parser.mParser.cs ∧ after.mParser.nread = parser.mParser.nread ∧
      p ≤ memory.buffer.length := by
  unfold writeExec at ran
  split at ran
  · have kept := scan_keeps ran
    exact ⟨kept.1, kept.2.1, by omega⟩
  · cases ran
    exact ⟨rfl, rfl, Nat.zero_le _⟩

/-- A call that returns. -/
theorem execute_cases (memory : Memory) {returned : Nat} {next : HttpRequestParser M.State}
    {left : Bytes} (nonempty : memory.buffer ≠ [])
    (done : parser.execute M memory = some (returned, next, left)) :
    memory.buffer.length < 2 ^ 31 ∧ parser.consumed M memory ≤ memory.buffer.length ∧
      returned = (parser.mParser.nread + parser.consumed M memory) % 2 ^ 64 ∧
      next.mParser.nread = returned := by
  obtain ⟨⟨offset, parsed⟩, executed, same⟩ := Option.map_eq_some_iff.mp done
  cases same
  simp only [httpParserExecute, List.length_eq_zero_iff, if_neg nonempty] at executed
  split at executed
  case isTrue => cases executed
  case isFalse fits =>
    have short := (toInt_eq_iff _).mp (not_not.mp fits)
    obtain ⟨⟨last, p, after⟩, ran, executed⟩ := Option.bind_eq_some_iff.mp executed
    have kept := writeExec_keeps ran
    simp only [Option.ite_none_right_eq_some, Option.some.injEq, Prod.mk.injEq] at executed
    obtain ⟨-, rfl, rfl⟩ := executed
    rw [consumed_eq ran]
    refine ⟨short, kept.2.2, ?_, rfl⟩
    rw [kept.2.1]

theorem new_bounded (query_start : Nat) : Bounded 0 (new M query_start).mParser :=
  ⟨Nat.le_refl 0, Nat.le_refl 0, Nat.le_refl 0, Nat.zero_le 1⟩

/-- The first call returns where its loop ends. -/
theorem execute_ran (memory : Memory) (query_start : Nat)
    (waits : M.Waits .startQuery .queryString R) (nonempty : memory.buffer ≠ [])
    (short : memory.buffer.length < 2 ^ 31) {last : Option M.State} {p : Nat}
    {after : HttpRequestParser M.State}
    (ran : writeExec M memory (new M query_start) = some (last, p, after)) :
    (new M query_start).execute M memory =
      some (p, { after with mParser := { after.mParser with cs := last, nread := p } },
        memory.buffer.drop p) := by
  have some_bytes : 0 < memory.buffer.length := List.length_pos_iff.mpr nonempty
  obtain ⟨last', p', after', ran', bounded⟩ := scan_total (p := 0) memory memory.buffer
    waits (new_bounded query_start) (by omega) (Or.inr waits.start)
  cases ran'.symm.trans ran
  have kept := scan_keeps ran'
  have nread : (after.mParser.nread + p) % 2 ^ 64 = p := by
    rw [kept.2.1]
    change (0 + p) % 2 ^ 64 = p
    omega
  have state : after.mParser.cs.isNone = false := by
    rw [kept.1]
    rfl
  simp only [execute, httpParserExecute, List.length_eq_zero_iff, if_neg nonempty,
    if_neg (not_not_intro ((toInt_eq_iff _).mpr short)), ran, Option.bind_some, nread, state,
    Bool.false_eq_true, ↓reduceIte]
  obtain ⟨mark, field_start, field_len, body_start⟩ := bounded
  rw [if_pos, Option.map_some]
  simp only [asserted, Bool.and_eq_true, decide_eq_true_eq]
  omega

/-- The first call returns, and what it returns is what the machine consumed. -/
theorem execute_new (memory : Memory) (query_start : Nat)
    (waits : M.Waits .startQuery .queryString R) (nonempty : memory.buffer ≠ [])
    (short : memory.buffer.length < 2 ^ 31) :
    ∃ next left, (new M query_start).execute M memory =
      some ((new M query_start).consumed M memory, next, left) := by
  obtain ⟨last, p, after, ran, -⟩ := scan_total (p := 0) memory memory.buffer
    waits (new_bounded query_start) (by omega) (Or.inr waits.start)
  have consumed : (new M query_start).consumed M memory = p := consumed_eq ran
  rw [consumed]
  exact ⟨_, _, execute_ran memory query_start waits nonempty short ran⟩

/-- A new parser that has met a byte it rejects. -/
def rejecting (M : ActionMachine) (query_start : Nat) : HttpRequestParser M.State :=
  { new M query_start with mParser := { (new M query_start).mParser with cs := none } }

/-- A call that consumes nothing puts a new parser into the error state, or leaves it there. -/
theorem execute_rejecting (memory : Memory) (query_start : Nat) (nonempty : memory.buffer ≠ [])
    (short : memory.buffer.length < 2 ^ 31)
    (fresh : parser = new M query_start ∨ parser = rejecting M query_start)
    (ran : writeExec M memory parser = some (none, 0, parser)) :
    parser.execute M memory = some (0, rejecting M query_start, memory.buffer) := by
  have passes : asserted memory.buffer.length (rejecting M query_start).mParser = true := by
    have some_bytes : 0 < memory.buffer.length := List.length_pos_iff.mpr nonempty
    simp [asserted, rejecting, new, some_bytes]
  simp only [execute, httpParserExecute, List.length_eq_zero_iff, if_neg nonempty,
    if_neg (not_not_intro ((toInt_eq_iff _).mpr short)), ran, Option.bind_some]
  rcases fresh with rfl | rfl <;> exact congrArg _ (if_pos passes)

theorem writeExec_rejecting :
    writeExec M memory (rejecting M query_start) = some (none, 0, rejecting M query_start) := rfl

theorem writeExec_new_rejecting (behind : Nat → UInt8) (query_start : Nat) {c : UInt8}
    (rest : Bytes) (rejected : M.step M.start c = none) :
    writeExec M ⟨c :: rest, behind⟩ (new M query_start) = some (none, 0, new M query_start) := by
  simp only [writeExec, new, scan, rejected]

/-- Calls that consume nothing. -/
theorem feed_rejecting (behind : Nat → UInt8) (query_start : Nat) (left : Bytes)
    {pieces : List Bytes}
    (each : ∀ piece ∈ pieces, piece ≠ []) (short : (left ++ pieces.flatten).length < 2 ^ 31) :
    ∃ calls, feed M behind (rejecting M query_start) left pieces =
        some (calls, rejecting M query_start) ∧
      ∀ call ∈ calls, call.returned = call.consumed ∧ call.returned ≤ call.length := by
  induction pieces generalizing left with
  | nil =>
      refine ⟨[], rfl, ?_⟩
      intro call member
      cases member
  | cons piece pieces ih =>
      rw [List.flatten_cons, ← List.append_assoc] at short
      have nonempty : left ++ piece ≠ [] :=
        List.append_ne_nil_of_right_ne_nil _ (each piece List.mem_cons_self)
      have first_short : (left ++ piece).length < 2 ^ 31 :=
        Nat.lt_of_le_of_lt (List.sublist_append_left _ _).length_le short
      have executed :=
        execute_rejecting ⟨left ++ piece, behind⟩ query_start nonempty first_short (Or.inr rfl)
        (writeExec_rejecting (M := M))
      obtain ⟨calls, fed, all⟩ := ih (left ++ piece)
        (fun piece member => each piece (List.mem_cons_of_mem _ member)) short
      refine ⟨⟨(left ++ piece).length, 0, 0⟩ :: calls, ?_, ?_⟩
      · simp only [feed, executed, Option.bind_some, fed, Option.map_some,
          consumed_eq (writeExec_rejecting (M := M))]
      · intro call member
        rcases List.mem_cons.mp member with rfl | later
        · exact ⟨rfl, Nat.zero_le _⟩
        · exact all call later

/-- A first byte that the machine rejects: no call consumes anything. -/
theorem independent_of_rejected {pieces : List Bytes} (each : ∀ piece ∈ pieces, piece ≠ [])
    (short : pieces.flatten.length < 2 ^ 31)
    (rejected : ∀ c ∈ pieces.flatten.head?, M.step M.start c = none) :
    Independent M behind query_start pieces := by
  cases pieces with
  | nil =>
      refine ⟨[], new M query_start, 0, new M query_start, [], rfl, ?_, rfl, rfl, rfl, rfl⟩
      intro call member
      cases member
  | cons piece pieces =>
      obtain ⟨c, rest, rfl⟩ := List.exists_cons_of_ne_nil (each piece List.mem_cons_self)
      have first_rejected : M.step M.start c = none := rejected c rfl
      have first_short : (c :: rest).length < 2 ^ 31 := by
        rw [List.flatten_cons, List.length_append] at short
        omega
      have ran := writeExec_new_rejecting behind query_start rest first_rejected
      have executed := execute_rejecting ⟨c :: rest, behind⟩ query_start
        (List.cons_ne_nil c rest) first_short (Or.inl rfl) ran
      obtain ⟨calls, fed, all⟩ := feed_rejecting (M := M) behind query_start (c :: rest)
        (fun piece member => each piece (List.mem_cons_of_mem _ member)) short
      have single := execute_rejecting ⟨((c :: rest) :: pieces).flatten, behind⟩ query_start
        (List.cons_ne_nil c _) short (Or.inl rfl)
        (writeExec_new_rejecting behind query_start _ first_rejected)
      refine ⟨⟨(c :: rest).length, 0, 0⟩ :: calls, rejecting M query_start, 0,
        rejecting M query_start, _, ?_, ?_, single, rfl, rfl, rfl⟩
      · simp only [feed, List.nil_append, executed, Option.bind_some, fed, Option.map_some,
          consumed_eq ran]
      · intro call member
        rcases List.mem_cons.mp member with rfl | later
        · exact ⟨rfl, Nat.zero_le _⟩
        · exact all call later

/-- A single piece. -/
theorem independent_of_single (waits : M.Waits .startQuery .queryString R) {piece : Bytes}
    (nonempty : piece ≠ []) (short : piece.length < 2 ^ 31) :
    Independent M behind query_start [piece] := by
  obtain ⟨next, left, executed⟩ := execute_new ⟨piece, behind⟩ query_start waits nonempty short
  have returns := execute_cases ⟨piece, behind⟩ nonempty executed
  refine ⟨[⟨piece.length, (new M query_start).consumed M ⟨piece, behind⟩,
    (new M query_start).consumed M ⟨piece, behind⟩⟩], next,
    (new M query_start).consumed M ⟨piece, behind⟩, next, left, ?_, ?_, ?_, rfl, rfl, rfl⟩
  · simp only [feed, List.nil_append, executed, Option.bind_some, Option.map_some]
  · intro call member
    cases List.mem_singleton.mp member
    exact ⟨rfl, returns.2.1⟩
  · rw [List.flatten_singleton]
    exact executed

/-- Where the first of several calls consumes something, the second returns more than it
consumes itself. -/
theorem consumed_eq_zero {first second : Bytes} {pieces : List Bytes} (first_some : first ≠ [])
    (second_some : second ≠ [])
    (independent : Independent M behind query_start (first :: second :: pieces)) :
    (new M query_start).consumed M ⟨first, behind⟩ = 0 := by
  obtain ⟨calls, last, -, -, -, fed, all, -⟩ := independent
  obtain ⟨⟨returned, next, left⟩, executed, fed⟩ := Option.bind_eq_some_iff.mp fed
  obtain ⟨⟨later, end_⟩, fed, same⟩ := Option.map_eq_some_iff.mp fed
  cases same
  obtain ⟨⟨returned', next', left'⟩, executed', fed⟩ := Option.bind_eq_some_iff.mp fed
  obtain ⟨⟨rest, end_⟩, fed, same⟩ := Option.map_eq_some_iff.mp fed
  cases same
  have first_call := (all _ List.mem_cons_self).1
  have second_call := (all _ (List.mem_cons_of_mem _ List.mem_cons_self)).1
  have first_returns := execute_cases ⟨[] ++ first, behind⟩ first_some executed
  have second_returns := execute_cases ⟨left ++ second, behind⟩
    (List.append_ne_nil_of_right_ne_nil _ second_some) executed'
  rw [List.nil_append] at first_call first_returns
  dsimp only at first_call second_call first_returns second_returns
  rw [first_returns.2.2.2, second_call] at second_returns
  omega

/-- A first call that consumes nothing has met a byte that it rejects. -/
theorem rejected_of_consumed (waits : M.Waits .startQuery .queryString R) {c : UInt8}
    {rest : Bytes} (short : (c :: rest).length < 2 ^ 31)
    (nothing : (new M query_start).consumed M ⟨c :: rest, behind⟩ = 0) :
    M.step M.start c = none := by
  obtain ⟨last, p, after, ran, -⟩ := scan_total (p := 0) ⟨c :: rest, behind⟩ (c :: rest)
    waits (new_bounded query_start) (by omega)
    (Or.inr waits.start)
  have all_read : (new M query_start).consumed M ⟨c :: rest, behind⟩ = p := consumed_eq ran
  rw [nothing] at all_read
  subst all_read
  rw [scan] at ran
  split at ran
  case h_1 rejected => exact rejected
  case h_2 =>
    obtain ⟨⟨parser, broken⟩, -, ran⟩ := Option.bind_eq_some_iff.mp ran
    dsimp only at ran
    split at ran
    · cases ran
    · have further := (scan_keeps ran).2.2.1
      omega

/-- Fragments make no difference exactly when there is one of them at most, or the machine
rejects the first byte. -/
theorem independent_iff (waits : M.Waits .startQuery .queryString R) {pieces : List Bytes}
    (each : ∀ piece ∈ pieces, piece ≠ []) :
    Independent M behind query_start pieces ↔
      pieces.flatten.length < 2 ^ 31 ∧
        (pieces.length ≤ 1 ∨ ∀ c ∈ pieces.flatten.head?, M.step M.start c = none) := by
  constructor
  · intro independent
    have short : pieces.flatten.length < 2 ^ 31 := by
      obtain ⟨_, _, returned, single, left, -, -, executed, -⟩ := independent
      by_cases empty : pieces.flatten = []
      · rw [empty]
        decide
      · exact (execute_cases ⟨pieces.flatten, behind⟩ empty executed).1
    refine ⟨short, ?_⟩
    rcases pieces with - | ⟨first, - | ⟨second, pieces⟩⟩
    · exact Or.inl (Nat.zero_le 1)
    · exact Or.inl (Nat.le_refl 1)
    · refine Or.inr ?_
      have first_some := each first List.mem_cons_self
      have second_some := each second (List.mem_cons_of_mem _ List.mem_cons_self)
      have nothing := consumed_eq_zero first_some second_some independent
      obtain ⟨c, rest, rfl⟩ := List.exists_cons_of_ne_nil first_some
      have first_short : (c :: rest).length < 2 ^ 31 := by
        rw [List.flatten_cons, List.length_append] at short
        omega
      intro d head
      cases head
      exact rejected_of_consumed waits first_short nothing
  · rintro ⟨short, one | rejected⟩
    · cases pieces with
      | nil => exact independent_of_rejected each short (fun c none_left => by cases none_left)
      | cons piece pieces =>
          have none_left : pieces = [] := List.length_eq_zero_iff.mp (by simpa using one)
          subst none_left
          rw [List.flatten_singleton] at short
          exact independent_of_single waits (each piece List.mem_cons_self) short
    · exact independent_of_rejected each short rejected

end HttpRequestParser

/-! ### The machine of the grammar -/

open HttpRequestParser

/-- A method, `<` or `@`. -/
def startsRequest (c : UInt8) : Bool := Http11.upper c || Http11.digit c || c == 60 || c == 64

theorem httpParser_starts (uri_relaxed : Bool) (c : UInt8) :
    ((httpParser uri_relaxed).step (httpParser uri_relaxed).start c).isSome = startsRequest c := by
  have all : ∀ r : Bool, ∀ n < 256,
      ((httpParser r).step (httpParser r).start (UInt8.ofNat n)).isSome =
        startsRequest (UInt8.ofNat n) := by decide +kernel
  rw [← @UInt8.ofNat_toNat c]
  exact all uri_relaxed c.toNat (UInt8.toNat_lt c)

/-- `query_start` is written before it is read. -/
theorem httpParser_waits (uri_relaxed : Bool) :
    ∃ R, (httpParser uri_relaxed).Waits .startQuery .queryString R := by
  have cued : (Http11.main uri_relaxed).cues .startQuery .queryString = true := by
    cases uri_relaxed <;> decide
  exact Ragel.Expr.waits_of_cues (by decide) cued 0

/-- A request in pieces: as one call on the whole exactly when it is a single piece, or does not
start like a request. -/
theorem fragments_iff (uri_relaxed : Bool) (behind : Nat → UInt8) (query_start : Nat)
    {pieces : List Bytes} (each : ∀ piece ∈ pieces, piece ≠ []) :
    Independent (httpParser uri_relaxed) behind query_start pieces ↔
      pieces.flatten.length < 2 ^ 31 ∧
        (pieces.length ≤ 1 ∨ ∀ c ∈ pieces.flatten.head?, startsRequest c = false) := by
  obtain ⟨R, waits⟩ := httpParser_waits uri_relaxed
  rw [independent_iff waits each]
  simp only [← httpParser_starts uri_relaxed, Option.isSome_eq_false_iff, Option.isNone_iff_eq_none]

/-- A request in one piece, and something else in three. -/
theorem fragments_alike :
    Independent (httpParser false) (fun _ => 0) 0 [bytes "GET / HTTP/1.1\r\n\r\n"] ∧
      Independent (httpParser false) (fun _ => 0) 0 [bytes "ge", bytes "t /", bytes "x"] :=
  ⟨(fragments_iff false _ 0 (by decide)).mpr (by decide),
    (fragments_iff false _ 0 (by decide)).mpr (by decide +kernel)⟩

/-- A request cut behind its first byte: the second call takes the method from the wrong place
and returns one byte more than it consumed. -/
theorem fragments_differ :
    (feed (httpParser false) (fun _ => 0) (new _ 0) []
        [bytes "G", bytes "ET / HTTP/1.1\r\n\r\nabc"]).map (fun r => (r.1, r.2.m_error)) =
      some ([⟨1, 1, 1⟩, ⟨20, 17, 18⟩], 1000) ∧
    ((new (httpParser false) 0).execute (httpParser false)
        ⟨bytes "GET / HTTP/1.1\r\n\r\nabc", fun _ => 0⟩).map (fun r => (r.1, r.2.1.m_error)) =
      some (18, 0) ∧
    ¬ Independent (httpParser false) (fun _ => 0) 0
      [bytes "G", bytes "ET / HTTP/1.1\r\n\r\nabc"] := by
  have fed : (feed (httpParser false) (fun _ => 0) (new _ 0) []
      [bytes "G", bytes "ET / HTTP/1.1\r\n\r\nabc"]).map (fun r => (r.1, r.2.m_error)) =
      some ([⟨1, 1, 1⟩, ⟨20, 17, 18⟩], 1000) := by decide
  refine ⟨fed, by decide, ?_⟩
  rintro ⟨calls, last, -, -, -, same, all, -⟩
  rw [same] at fed
  simp only [Option.map_some, Option.some.injEq, Prod.mk.injEq] at fed
  obtain ⟨rfl, -⟩ := fed
  cases (all ⟨20, 17, 18⟩ (by simp)).1

end CorReactor.Http
