import CorReactor.HttpClientParser
import CorReactor.HttpParserMemory

set_option autoImplicit false

/-! What `execute` returns for a buffer that begins with a whole header block. -/

namespace CorReactor.Http

/-- The buffer is a header block with a body behind it, and a NUL behind both. A header block is
what the machine accepts, and it does not accept a shorter beginning of it. -/
structure HeaderFirst {A : Type} (M : Ragel.Machine UInt8 A) (memory : Memory)
    (header body : Bytes) : Prop where
  buffer : memory.buffer = header ++ body
  nonempty : header ≠ []
  accepted : M.accepts header = true
  shortest : ∀ u, u <+: header → u ≠ [] → u ≠ header → M.accepts u = false
  terminated : memory.behind 0 = 0

namespace HeaderFirst

variable {A : Type} {M : Ragel.Machine UInt8 A} {memory : Memory} {header body : Bytes}

theorem of_readsFirst (buffer : memory.buffer = header ++ body)
    (whole : M.readsFirst M.start header = true) (terminated : memory.behind 0 = 0) :
    HeaderFirst M memory header body := by
  obtain ⟨nonempty, accepted, shortest⟩ := Ragel.Machine.readsFirst_iff.mp whole
  exact ⟨buffer, nonempty, accepted, shortest, terminated⟩

theorem whole (first : HeaderFirst M memory header body) :
    M.readsFirst M.start header = true :=
  Ragel.Machine.readsFirst_iff.mpr ⟨first.nonempty, first.accepted, first.shortest⟩

theorem ne_nil (first : HeaderFirst M memory header body) : memory.buffer ≠ [] := by
  rw [first.buffer]
  exact List.append_ne_nil_of_left_ne_nil first.nonempty body

theorem drop (first : HeaderFirst M memory header body) :
    memory.buffer.drop header.length = body := by
  rw [first.buffer, List.drop_left]

end HeaderFirst

/-! ### Requests -/

namespace HttpRequestParser

open Http11 (Action)

variable {memory : Memory} {header body : Bytes}

/-- The result is the length of the header block, and the body is moved to the front. -/
def Exact (uri_relaxed : Bool) (query_start : Nat) (memory : Memory) (header body : Bytes) : Prop :=
  ∃ next, (new (httpParser uri_relaxed) query_start).execute (httpParser uri_relaxed) memory =
    some (header.length, next, body)

theorem scan_eq_exec {M : ActionMachine} (cs : M.State) (p : Nat) (rest : Bytes)
    (parser : HttpRequestParser M.State) :
    scan M memory cs p rest parser =
      M.exec (fun p actions => perform memory p (Ragel.inOrder actions)) cs p rest parser := by
  induction rest generalizing cs p parser with
  | nil => rfl
  | cons c rest ih =>
      rw [scan, Ragel.Machine.exec]
      cases M.step cs c with
      | none => rfl
      | some t =>
          dsimp only
          congr 1
          funext performed
          obtain ⟨after, broken⟩ := performed
          cases broken with
          | true => rfl
          | false => exact ih _ _ _

theorem httpParser_finishes (uri_relaxed : Bool) (memory : Memory) :
    ∀ s c as t p (x y : HttpRequestParser (httpParser uri_relaxed).State) b,
      (httpParser uri_relaxed).step s c = some (as, t) →
      perform memory p (Ragel.inOrder as) x = some (y, b) →
      b = ((httpParser uri_relaxed).final t).isSome :=
  Ragel.Expr.finish_breaks (done_fresh uri_relaxed)
    (fun p as => perform memory p (Ragel.inOrder as))
    fun _ _ _ _ _ performed => perform_breaks performed

theorem exact_iff (uri_relaxed : Bool) (query_start : Nat)
    (first : HeaderFirst (httpParser uri_relaxed) memory header body) :
    Exact uri_relaxed query_start memory header body ↔ memory.buffer.length < 2 ^ 31 := by
  constructor
  · rintro ⟨next, done⟩
    exact (execute_cases memory first.ne_nil done).1
  · intro short
    obtain ⟨R, waits⟩ := httpParser_waits uri_relaxed
    obtain ⟨last, p, after, ran, -⟩ := scan_total memory memory.buffer waits
      (new_bounded query_start) (by omega : 0 + memory.buffer.length < 2 ^ 63) (Or.inr waits.start)
    have executed := execute_ran memory query_start waits first.ne_nil short ran
    rw [scan_eq_exec, first.buffer] at ran
    have consumed := (Ragel.Machine.exec_readsFirst (httpParser_finishes uri_relaxed memory)
      first.whole ran).1
    rw [Nat.zero_add] at consumed
    rw [consumed, first.drop] at executed
    exact ⟨_, executed⟩

end HttpRequestParser

/-! ### Responses -/

namespace HttpResponseParser

open HttpClient (Action)
open HttpRequestParser (toInt toInt_eq_iff)

section Actions

variable {State : Type} {memory : Memory} {p : Nat} {a : Action} {xs : List Action}
  {parser after : HttpResponseParser State}

/-- No action moves `nread`, and only `done` sets the start of the body. -/
theorem act_keeps (acted : parser.act memory p a = some after) :
    after.mParser.nread = parser.mParser.nread ∧
      (a = .done → after.mParser.body_start = p + 1) := by
  cases a with
  | mark | startField | writeField | startValue | writeContentLen | writeConnectionClose
  | statusCode | chunkSize | transChunked =>
      cases acted
      exact ⟨rfl, fun other => by cases other⟩
  | done =>
      cases acted
      exact ⟨rfl, fun _ => rfl⟩
  | reasonPhrase =>
      obtain ⟨v, -, rfl⟩ := Option.map_eq_some_iff.mp acted
      exact ⟨rfl, fun other => by cases other⟩
  | httpVersion =>
      refine ⟨?_, fun other => by cases other⟩
      simp only [act, onResponseVersion] at acted
      split at acted
      · cases acted
        rfl
      · split at acted
        · cases acted
          rfl
        · obtain ⟨v, -, rfl⟩ := Option.map_eq_some_iff.mp acted
          rfl
  | writeValue =>
      refine ⟨?_, fun other => by cases other⟩
      simp only [act, onResponseHttpField] at acted
      split at acted
      · cases acted
        rfl
      · obtain ⟨key, -, acted⟩ := Option.bind_eq_some_iff.mp acted
        obtain ⟨val, -, rfl⟩ := Option.map_eq_some_iff.mp acted
        rfl

theorem perform_keeps {broken : Bool}
    (performed : perform memory p xs parser = some (after, broken)) :
    after.mParser.nread = parser.mParser.nread ∧ (broken = true ↔ .done ∈ xs) ∧
      (broken = true → after.mParser.body_start = p + 1) := by
  induction xs generalizing parser with
  | nil =>
      cases performed
      exact ⟨rfl, by simp, fun impossible => by cases impossible⟩
  | cons a xs ih =>
      obtain ⟨next, acted, rest⟩ := Option.bind_eq_some_iff.mp performed
      have kept := act_keeps acted
      by_cases ends : a = .done
      · rw [if_pos ends] at rest
        cases rest
        exact ⟨kept.1, iff_of_true rfl (ends ▸ List.mem_cons_self), fun _ => kept.2 ends⟩
      · rw [if_neg ends] at rest
        obtain ⟨nread, stops, started⟩ := ih rest
        refine ⟨nread.trans kept.1, ?_, started⟩
        rw [stops, List.mem_cons]
        exact (or_iff_right (Ne.symm ends)).symm

end Actions

variable {memory : Memory} {header body : Bytes}

/-- The result is the length of the header block, and the body is moved to the front. -/
def Exact (chunck : Bool) (status : Int) (memory : Memory) (header body : Bytes) : Prop :=
  ∃ next, (new httpclientParser status).execute httpclientParser memory chunck =
    some (header.length, next, some body)

theorem done_fresh : Action.done ∉ (Ragel.Expr.oneOf [HttpClient.response,
    HttpClient.chunkedHeader]).actions := by
  decide

theorem httpclientParser_finishes (memory : Memory) :
    ∀ s c as t p (x y : HttpResponseParser httpclientParser.State) b,
      httpclientParser.step s c = some (as, t) →
      perform memory p (Ragel.inOrder as) x = some (y, b) →
      b = (httpclientParser.final t).isSome :=
  Ragel.Expr.finish_breaks done_fresh (fun p as => perform memory p (Ragel.inOrder as))
    fun _ _ _ _ _ performed => (perform_keeps performed).2.1

/-- Where the loop ends, and that the body begins there. -/
theorem writeExec_header (status : Int) (first : HeaderFirst httpclientParser memory header body)
    {last : Option httpclientParser.State} {p : Nat}
    {after : HttpResponseParser httpclientParser.State}
    (ran : writeExec httpclientParser memory (new httpclientParser status) =
      some (last, p, after)) :
    p = header.length ∧ after.mParser.nread = 0 ∧ after.mParser.body_start ≠ 0 := by
  have scanned : httpclientParser.exec
      (fun p actions => perform memory p (Ragel.inOrder actions)) httpclientParser.start 0
      (header ++ body) (new httpclientParser status) = some (last, p, after) := by
    rw [← first.buffer]
    exact ran
  obtain ⟨consumed, as, before, performed⟩ :=
    Ragel.Machine.exec_readsFirst (httpclientParser_finishes memory) first.whole scanned
  refine ⟨consumed.trans (Nat.zero_add _), ?_, ?_⟩
  · exact Ragel.Machine.exec_keeps (I := fun x => x.mParser.nread = 0)
      (fun p as x y b performed zero => (perform_keeps performed).1.trans zero) rfl scanned
  · rw [(perform_keeps performed).2.2 rfl]
    exact Nat.succ_ne_zero _

/-- The count after the last adjustment is not the one before it, in an `int` either. -/
theorem toSize_toInt_succ {n : Nat} (short : n < 2 ^ 31) : toSize (toInt (n + 1)) ≠ n := by
  rcases Nat.lt_or_ge (n + 1) (2 ^ 31) with below | above
  · rw [(toInt_eq_iff _).mpr below]
    unfold toSize
    omega
  · obtain rfl : n = 2 ^ 31 - 1 := by omega
    decide

theorem not_exact (chunck : Bool) (status : Int)
    (first : HeaderFirst httpclientParser memory header body) :
    ¬ Exact chunck status memory header body := by
  have fresh : (if chunck then { new httpclientParser status with
      mParser := init httpclientParser (new httpclientParser status).mParser }
      else new httpclientParser status) = new httpclientParser status := by
    cases chunck <;> rfl
  rintro ⟨next, done⟩
  obtain ⟨⟨result, parser⟩, executed, returned⟩ := Option.map_eq_some_iff.mp done
  have is_length : toSize result = header.length := congrArg Prod.fst returned
  rw [fresh] at executed
  unfold httpclientParserExecute at executed
  dsimp only at executed
  by_cases terminated : memory.byte memory.buffer.length ≠ 0
  · rw [if_pos terminated] at executed
    cases executed
  rw [if_neg terminated] at executed
  by_cases long : toInt memory.buffer.length ≠ memory.buffer.length
  · rw [if_pos long] at executed
    cases executed
  rw [if_neg long] at executed
  have short := (toInt_eq_iff _).mp (not_not.mp long)
  have within : header.length < 2 ^ 31 := by
    rw [first.buffer, List.length_append] at short
    omega
  obtain ⟨⟨last, p, after⟩, ran, executed⟩ := Option.bind_eq_some_iff.mp executed
  obtain ⟨rfl, nread, started⟩ := writeExec_header status first ran
  have count : (after.mParser.nread + header.length) % 2 ^ 64 = header.length := by
    rw [nread]
    omega
  have count_succ : (header.length + 1) % 2 ^ 64 = header.length + 1 := by omega
  simp only [count, if_pos started, count_succ] at executed
  split at executed
  · split at executed
    · simp only [Option.some.injEq, Prod.mk.injEq] at executed
      rw [← executed.1] at is_length
      exact toSize_toInt_succ within is_length
    · simp only [Option.some.injEq, Prod.mk.injEq] at executed
      have error : toSize (-1) = 2 ^ 64 - 1 := by decide
      rw [← executed.1, error] at is_length
      omega
  · cases executed

end HttpResponseParser

/-- For a request the result is exact as long as the length of the buffer is an `int`, and for a
response it never is. -/
theorem execute_exact_iff (memory : Memory) (header body : Bytes) :
    (∀ uri_relaxed query_start, HeaderFirst (httpParser uri_relaxed) memory header body →
      (HttpRequestParser.Exact uri_relaxed query_start memory header body ↔
        memory.buffer.length < 2 ^ 31)) ∧
    ∀ chunck status, HeaderFirst httpclientParser memory header body →
      ¬ HttpResponseParser.Exact chunck status memory header body :=
  ⟨fun uri_relaxed query_start => HttpRequestParser.exact_iff uri_relaxed query_start,
    fun chunck status => HttpResponseParser.not_exact chunck status⟩

/-- A request with a body, and a response with one. -/
theorem execute_exact_get :
    HttpRequestParser.Exact false 0 ⟨bytes "GET / HTTP/1.1\r\n\r\nabc", fun _ => 0⟩
        (bytes "GET / HTTP/1.1\r\n\r\n") (bytes "abc") ∧
      ¬ HttpResponseParser.Exact false 0 ⟨bytes "HTTP/1.1 200 OK\r\n\r\nabc", fun _ => 0⟩
        (bytes "HTTP/1.1 200 OK\r\n\r\n") (bytes "abc") :=
  ⟨((execute_exact_iff _ _ _).1 false 0
      (.of_readsFirst (by decide) (by decide) rfl)).mpr (by decide),
    (execute_exact_iff _ _ _).2 false 0
      (.of_readsFirst (by decide) (by decide) rfl)⟩

/-- A header block of 19 bytes: the result is 20, the first byte of the body is lost, and where
there is no body the length of the move wraps. -/
theorem execute_one_more :
    ((HttpResponseParser.new httpclientParser 0).execute httpclientParser
        ⟨bytes "HTTP/1.1 200 OK\r\n\r\nabc", fun _ => 0⟩ false).map (fun r => (r.1, r.2.2)) =
      some (20, some (bytes "bc")) ∧
    ((HttpResponseParser.new httpclientParser 0).execute httpclientParser
        ⟨bytes "HTTP/1.1 200 OK\r\n\r\n", fun _ => 0⟩ false).map (fun r => (r.1, r.2.2)) =
      some (20, none) ∧
    httpclientParser.readsFirst httpclientParser.start (bytes "HTTP/1.1 200 OK\r\n\r\n") = true ∧
    (bytes "HTTP/1.1 200 OK\r\n\r\n").length = 19 := by
  refine ⟨?_, ?_, ?_, ?_⟩ <;> decide

end CorReactor.Http
