import CorReactor.Http11Relaxed
import CorReactor.HttpFragments
import CorReactor.RagelFinish

set_option autoImplicit false

/-! What the memory in which a request parser is constructed does to its results. -/

namespace CorReactor.Http.HttpRequestParser

open Http11 (Action)
open Ragel (Preceded inOrder)

/-! ### Results -/

/-- What the caller sees of a call of `execute`. -/
structure Result where
  returned : Nat
  left : Bytes
  finished : Int
  error : Bool
  request : HttpRequest

section Results

variable (M : ActionMachine)

/-- One call for each buffer; `none` is a call that does not return. -/
def results : HttpRequestParser M.State → List Memory → List (Option Result)
  | _, [] => []
  | parser, memory :: more =>
      match parser.execute M memory with
      | none => [none]
      | some (returned, next, left) =>
          some ⟨returned, left, next.isFinished M, next.hasError, next.m_data⟩ ::
            results next more

/-- The bytes that the loop reads, each with the state it is read in. -/
def scanned (memory : Memory) : M.State → Nat → Bytes → HttpRequestParser M.State →
    List (M.State × UInt8)
  | _, _, [], _ => []
  | cs, p, c :: rest, parser =>
      (cs, c) ::
        match M.step cs c with
        | none => []
        | some (actions, next) =>
            match perform memory p (inOrder actions) parser with
            | some (parser, false) => scanned memory next (p + 1) rest parser
            | _ => []

/-- The bytes that a call reads. -/
def readings (memory : Memory) (parser : HttpRequestParser M.State) : List (M.State × UInt8) :=
  match parser.mParser.cs with
  | some cs =>
      if toInt memory.buffer.length = memory.buffer.length then
        scanned M memory cs 0 memory.buffer parser
      else []
  | none => []

/-- The bytes that are read by one call for each buffer. -/
def allReadings : HttpRequestParser M.State → List Memory → List (M.State × UInt8)
  | _, [] => []
  | parser, memory :: more =>
      readings M memory parser ++
        match parser.execute M memory with
        | none => []
        | some (_, next, _) => allReadings next more

end Results

/-! ### `query_start` -/

section Query

variable {State : Type} {memory : Memory} {p : Nat} {a : Action} {xs : List Action}
  {parser : HttpRequestParser State}

def withQuery (query_start : Nat) (parser : HttpRequestParser State) : HttpRequestParser State :=
  { parser with mParser := { parser.mParser with query_start := query_start } }

/-- Only `queryString` reads the field, and `startQuery` writes it. -/
theorem act_withQuery (q : Nat) (other : a ≠ .queryString) :
    (parser.withQuery q).act memory p a =
      (parser.act memory p a).map fun next =>
        if a = .startQuery then next else next.withQuery q := by
  cases a with
  | queryString => exact absurd rfl other
  | mark | startValue | startField | writeField | startQuery | requestUri | xml | json => rfl
  | done =>
      by_cases sent : (parser.mParser.xml_sent || parser.mParser.json_sent) = true
      · simp only [act, Option.map_some, withQuery, done, sent, reduceCtorEq, ↓reduceIte]
      · simp only [act, Option.map_some, withQuery, done, sent, reduceCtorEq, ↓reduceIte,
          Bool.false_eq_true]
  | requestMethod =>
      simp only [act, onRequestMethod, withQuery, reduceCtorEq, ↓reduceIte]
      cases charsToHttpMethod memory parser.mParser.mark with
      | INVALID_METHOD =>
          simp only [Option.map_map]
          rfl
      | _ => rfl
  | httpVersion =>
      simp only [act, onRequestVersion, withQuery, reduceCtorEq, ↓reduceIte,
        apply_ite (Option.map _), Option.map_some, Option.map_map]
      rfl
  | writeValue =>
      simp only [act, onRequestHttpField, withQuery, reduceCtorEq, ↓reduceIte,
        apply_ite (Option.map _), Option.map_some, Option.map_bind, Function.comp_def,
        Option.map_map]
      rfl
  | fragment | requestPath =>
      simp only [act, onRequestFragment, onRequestPath, reduceCtorEq, ↓reduceIte, Option.map_map]
      rfl

/-- The `fbreak` is the last of the actions. -/
def BreaksLast (xs : List Action) : Prop :=
  ∀ before after, xs = before ++ .done :: after → after = []

theorem BreaksLast.tail (last : BreaksLast (a :: xs)) : BreaksLast xs := by
  intro before after same
  exact last (a :: before) after (by rw [same]; rfl)

theorem perform_withQuery (q : Nat) (preceded : Preceded .startQuery .queryString xs)
    (last : BreaksLast xs) :
    perform memory p xs (parser.withQuery q) =
      (perform memory p xs parser).map fun r =>
        (if .startQuery ∈ xs then r.1 else r.1.withQuery q, r.2) := by
  induction xs generalizing parser with
  | nil => rfl
  | cons a xs ih =>
      rw [perform, perform, act_withQuery q preceded.head_ne]
      cases parser.act memory p a with
      | none => rfl
      | some next =>
          simp only [Option.map_some, Option.bind_some]
          by_cases ends : a = .done
          · have none_left : xs = [] := last [] xs (by rw [ends]; rfl)
            rw [if_pos ends, if_pos ends, none_left, ends]
            rfl
          · rw [if_neg ends, if_neg ends]
            by_cases cue : a = .startQuery
            · have given : Action.startQuery ∈ a :: xs := cue ▸ List.mem_cons_self
              simp only [if_pos cue, if_pos given]
              exact Option.map_id'.symm
            · have given : Action.startQuery ∈ a :: xs ↔ .startQuery ∈ xs := by
                rw [List.mem_cons]
                exact or_iff_right (Ne.symm cue)
              rw [if_neg cue, ih (preceded.tail cue) last.tail]
              simp only [given]

/-- The field as it was, or as the constructor of the other parser found it. -/
def hide (written : Bool) (query_start : Nat) (parser : HttpRequestParser State) :
    HttpRequestParser State :=
  if written then parser else parser.withQuery query_start

end Query

section Runs

variable {M : ActionMachine} {R : M.State → Prop} {memory : Memory} {rest : Bytes}
  {cs : M.State} {p : Nat} {parser : HttpRequestParser M.State}

/-- Until it is written, the field is not read. -/
theorem scan_withQuery (q : Nat) (waits : M.Waits .startQuery .queryString R)
    (breaks : ∀ s c as t, M.step s c = some (as, t) → BreaksLast (inOrder as)) (held : R cs) :
    ∃ written, scan M memory cs p rest (parser.withQuery q) =
        (scan M memory cs p rest parser).map (fun r => (r.1, r.2.1, hide written q r.2.2)) ∧
      (written = false → ∀ r, scan M memory cs p rest parser = some r →
        ∀ s, r.1 = some s → R s) := by
  induction rest generalizing cs p parser with
  | nil =>
      refine ⟨false, rfl, ?_⟩
      intro _ r same s last
      cases same
      cases last
      exact held
  | cons c rest ih =>
      simp only [scan]
      cases step : M.step cs c with
      | none =>
          refine ⟨false, rfl, ?_⟩
          intro _ r same s last
          cases same
          cases last
      | some t =>
          obtain ⟨as, next⟩ := t
          obtain ⟨cued, later⟩ := waits.step cs c as next held step
          dsimp only
          rw [perform_withQuery q (Ragel.preceded_inOrder cued) (breaks cs c as next step)]
          cases performed : perform memory p (inOrder as) parser with
          | none => exact ⟨true, rfl, fun impossible => by cases impossible⟩
          | some x =>
              obtain ⟨after, broken⟩ := x
              simp only [Option.map_some, Option.bind_some]
              by_cases given : Action.startQuery ∈ inOrder as
              · refine ⟨true, ?_, fun impossible => by cases impossible⟩
                simp only [if_pos given, hide, ↓reduceIte]
                exact Option.map_id'.symm
              · have still : R next := later.resolve_left fun found => given (mem_inOrder found)
                simp only [if_neg given]
                cases broken with
                | true =>
                    refine ⟨false, rfl, ?_⟩
                    intro _ r same s last
                    cases same
                    cases last
                    exact still
                | false => exact ih still

/-- A parser that has not written the field is in a state before that. -/
def Unwritten (R : M.State → Prop) (parser : HttpRequestParser M.State) : Prop :=
  ∀ s, parser.mParser.cs = some s → R s

theorem writeExec_withQuery (memory : Memory) (q : Nat) (waits : M.Waits .startQuery .queryString R)
    (breaks : ∀ s c as t, M.step s c = some (as, t) → BreaksLast (inOrder as))
    (unwritten : Unwritten R parser) :
    ∃ written, writeExec M memory (parser.withQuery q) =
        (writeExec M memory parser).map (fun r => (r.1, r.2.1, hide written q r.2.2)) ∧
      (written = false → ∀ r, writeExec M memory parser = some r → ∀ s, r.1 = some s → R s) := by
  have same_state : (parser.withQuery q).mParser.cs = parser.mParser.cs := rfl
  unfold writeExec
  rw [same_state]
  cases state : parser.mParser.cs with
  | none =>
      refine ⟨false, rfl, ?_⟩
      intro _ r same s last
      cases same
      cases last
  | some cs => exact scan_withQuery q waits breaks (unwritten cs state)

theorem execute_withQuery (memory : Memory) (q : Nat) (waits : M.Waits .startQuery .queryString R)
    (breaks : ∀ s c as t, M.step s c = some (as, t) → BreaksLast (inOrder as))
    (unwritten : Unwritten R parser) :
    ∃ written, (parser.withQuery q).execute M memory =
        (parser.execute M memory).map (fun r => (r.1, hide written q r.2.1, r.2.2)) ∧
      (written = false → ∀ r, parser.execute M memory = some r → Unwritten R r.2.1) := by
  unfold execute httpParserExecute
  dsimp only
  by_cases empty : memory.buffer.length = 0
  · simp only [if_pos empty]
    refine ⟨false, rfl, ?_⟩
    intro _ r same
    cases same
    exact unwritten
  · simp only [if_neg empty]
    by_cases long : toInt memory.buffer.length ≠ memory.buffer.length
    · simp only [if_pos long]
      exact ⟨true, rfl, fun impossible => by cases impossible⟩
    · obtain ⟨written, same, still⟩ := writeExec_withQuery memory q waits breaks unwritten
      simp only [if_neg long, same]
      refine ⟨written, ?_, ?_⟩
      · cases writeExec M memory parser with
        | none => rfl
        | some r =>
            obtain ⟨last, p, after⟩ := r
            simp only [Option.map_some, Option.bind_some]
            cases written with
            | true =>
                simp only [hide, ↓reduceIte]
                exact Option.map_id'.symm
            | false =>
                -- The assertions do not look at the field either.
                have close : ∀ (fits : Bool) (x y : Nat × HttpRequestParser M.State),
                    y = (x.1, x.2.withQuery q) →
                    (if fits then some y else none).map
                        (fun x => (x.1, x.2, memory.buffer.drop x.1)) =
                      ((if fits then some x else none).map
                        (fun x => (x.1, x.2, memory.buffer.drop x.1))).map
                        (fun r => (r.1, hide false q r.2.1, r.2.2)) := by
                  intro fits x y hidden
                  rw [hidden]
                  cases fits <;> rfl
                exact close _ _ _ rfl
      · intro unhidden r executed s state
        obtain ⟨⟨returned, next⟩, ran, rfl⟩ := Option.map_eq_some_iff.mp executed
        obtain ⟨⟨last, p, after⟩, ended, ran⟩ := Option.bind_eq_some_iff.mp ran
        simp only [Option.ite_none_right_eq_some, Option.some.injEq, Prod.mk.injEq] at ran
        obtain ⟨-, -, rfl⟩ := ran
        dsimp only at state
        split at state
        · rename_i error
          rw [state] at error
          cases error
        · exact still unhidden _ ended s state

/-- The results do not depend on what the field was before. -/
theorem results_withQuery (q : Nat) (waits : M.Waits .startQuery .queryString R)
    (breaks : ∀ s c as t, M.step s c = some (as, t) → BreaksLast (inOrder as))
    (unwritten : Unwritten R parser) (more : List Memory) :
    results M (parser.withQuery q) more = results M parser more := by
  induction more generalizing parser with
  | nil => rfl
  | cons memory more ih =>
      obtain ⟨written, same, still⟩ := execute_withQuery memory q waits breaks unwritten
      rw [results, results, same]
      cases executed : parser.execute M memory with
      | none => rfl
      | some r =>
          obtain ⟨returned, next, left⟩ := r
          cases written with
          | true => rfl
          | false =>
              have later := ih (still rfl _ executed)
              dsimp only [Option.map_some]
              exact congrArg₂ List.cons rfl later

end Runs

/-! ### `uri_relaxed` -/

section Relaxed

/-- Where the transitions for all bytes that are read are the same, so are the results. -/
theorem scan_agree {S : Type} {start : S}
    {step step' : S → UInt8 → Option (List (Nat × Action) × S)}
    {final : S → Option (List (Nat × Action))} {memory : Memory} {rest : Bytes} {cs : S} {p : Nat}
    {parser : HttpRequestParser S}
    (same : ∀ x ∈ scanned ⟨S, start, step, final⟩ memory cs p rest parser,
      step' x.1 x.2 = step x.1 x.2) :
    scan ⟨S, start, step', final⟩ memory cs p rest parser =
      scan ⟨S, start, step, final⟩ memory cs p rest parser := by
  induction rest generalizing cs p parser with
  | nil => rfl
  | cons c rest ih =>
      simp only [scan, scanned, List.mem_cons, forall_eq_or_imp] at same ⊢
      obtain ⟨here, later⟩ := same
      rw [here]
      cases moved : step cs c with
      | none => rfl
      | some t =>
          obtain ⟨as, next⟩ := t
          rw [moved] at later
          dsimp only at later ⊢
          cases performed : perform memory p (inOrder as) parser with
          | none => rfl
          | some x =>
              obtain ⟨after, broken⟩ := x
              rw [performed] at later
              cases broken with
              | true => rfl
              | false => exact ih later

theorem execute_agree {S : Type} {start : S}
    {step step' : S → UInt8 → Option (List (Nat × Action) × S)}
    {final : S → Option (List (Nat × Action))} {memory : Memory} {parser : HttpRequestParser S}
    (same : ∀ x ∈ readings ⟨S, start, step, final⟩ memory parser, step' x.1 x.2 = step x.1 x.2) :
    parser.execute ⟨S, start, step', final⟩ memory =
      parser.execute ⟨S, start, step, final⟩ memory := by
  unfold execute httpParserExecute
  dsimp only
  by_cases long : toInt memory.buffer.length ≠ memory.buffer.length
  · simp only [if_pos long]
  · have ran : writeExec ⟨S, start, step', final⟩ memory parser =
        writeExec ⟨S, start, step, final⟩ memory parser := by
      unfold writeExec
      unfold readings at same
      cases state : parser.mParser.cs with
      | none => rfl
      | some cs =>
          simp only [state, if_pos (not_not.mp long)] at same
          exact scan_agree same
    simp only [if_neg long, ran]

theorem results_agree {S : Type} {start : S}
    {step step' : S → UInt8 → Option (List (Nat × Action) × S)}
    {final : S → Option (List (Nat × Action))} {parser : HttpRequestParser S} {more : List Memory}
    (same : ∀ x ∈ allReadings ⟨S, start, step, final⟩ parser more, step' x.1 x.2 = step x.1 x.2) :
    results ⟨S, start, step', final⟩ parser more = results ⟨S, start, step, final⟩ parser more := by
  induction more generalizing parser with
  | nil => rfl
  | cons memory more ih =>
      simp only [allReadings, List.mem_append] at same
      have executed : parser.execute ⟨S, start, step', final⟩ memory =
          parser.execute ⟨S, start, step, final⟩ memory :=
        execute_agree fun x member => same x (Or.inl member)
      rw [results, results, executed]
      cases returned : parser.execute ⟨S, start, step, final⟩ memory with
      | none => rfl
      | some r =>
          rw [returned] at same
          refine congrArg₂ List.cons ?_ (ih fun x member => same x (Or.inr member))
          unfold isFinished
          cases r.2.1.mParser.cs <;> rfl

variable {agreed : UInt8 → Prop} {M N : ActionMachine}

/-- The same for machines with the same states under another name. -/
theorem results_stepAs (agree : Ragel.Machine.Agree agreed M N) (states : M.State = N.State)
    {query_start : Nat} {more : List Memory}
    (same : ∀ x ∈ allReadings N (new N query_start) more,
      agreed x.2 ∨ Ragel.Machine.stepAs states x.1 x.2 = N.step x.1 x.2) :
    results M (new M query_start) more = results N (new N query_start) more := by
  obtain ⟨S, start, step, step', final, final', ends, agrees⟩ := agree
  obtain rfl : final = final' := funext ends
  refine results_agree fun x member => ?_
  rcases same x member with plain | equal
  · exact agrees x.1 x.2 plain
  · exact (Ragel.Machine.stepAs_rfl ⟨S, start, step, final⟩ x.1 x.2).symm.trans equal

end Relaxed

/-! ### The machine of the grammar -/

theorem relaxed_agree (r s : Bool) :
    Ragel.Machine.Agree (fun c => Http11.conditional c = false) (httpParser r) (httpParser s) :=
  (Http11.main_same r s).machine 0

/-- The transition for the byte depends on `uri_relaxed`: it is one of the characters of
`more_delims`, and the state is one in which they are asked for. -/
def Asks (s : (httpParser false).State) (c : UInt8) : Prop :=
  Http11.conditional c = true ∧
    Ragel.Machine.stepAs (relaxed_agree true false).states s c ≠ (httpParser false).step s c

theorem done_fresh (uri_relaxed : Bool) :
    Action.done ∉ (Ragel.Expr.oneOf [Http11.request uri_relaxed,
      Http11.socketRequest uri_relaxed]).actions := by
  cases uri_relaxed <;> decide

theorem httpParser_breaks (uri_relaxed : Bool) {s t : (httpParser uri_relaxed).State} {c : UInt8}
    {as : List (Nat × Action)} (step : (httpParser uri_relaxed).step s c = some (as, t)) :
    BreaksLast (inOrder as) := by
  intro before after same
  rcases Ragel.Expr.finish_step (done_fresh uri_relaxed) step with
    ⟨-, never⟩ | ⟨-, front, split, own⟩
  · exact absurd (same ▸ List.mem_append_right _ List.mem_cons_self) never
  · by_contra more
    have dropped := congrArg List.dropLast (split.symm.trans same)
    rw [List.dropLast_concat, List.dropLast_append_of_ne_nil (List.cons_ne_nil _ _),
      List.dropLast_cons_of_ne_nil more] at dropped
    exact own (dropped ▸ List.mem_append_right _ List.mem_cons_self)

theorem results_query (uri_relaxed : Bool) (q q' : Nat) (more : List Memory) :
    results (httpParser uri_relaxed) (new _ q) more =
      results (httpParser uri_relaxed) (new _ q') more := by
  obtain ⟨R, waits⟩ := httpParser_waits uri_relaxed
  have unwritten : Unwritten R (new (httpParser uri_relaxed) q) := by
    intro s start
    cases start
    exact waits.start
  exact (results_withQuery q' waits (fun s c as t => httpParser_breaks uri_relaxed) unwritten
    more).symm

/-- Two parsers give the same results, whatever was in the memory that they are constructed in, as
long as they do not read a byte that `uri_relaxed` is asked for. -/
theorem results_eq (r s : Bool) (q q' : Nat) (more : List Memory)
    (unasked : r ≠ s → ∀ x ∈ allReadings (httpParser false) (new _ q) more, ¬ Asks x.1 x.2) :
    results (httpParser r) (new _ q) more = results (httpParser s) (new _ q') more := by
  have relaxed : r ≠ s → results (httpParser true) (new _ q) more =
      results (httpParser false) (new _ q) more := by
    intro differ
    refine results_stepAs (relaxed_agree true false) (relaxed_agree true false).states ?_
    intro x member
    by_cases plain : Http11.conditional x.2 = false
    · exact Or.inl plain
    · right
      by_contra depends
      exact unasked differ x member ⟨eq_true_of_ne_false plain, depends⟩
  cases r with
  | false =>
      cases s with
      | false => exact results_query false q q' more
      | true => exact (relaxed Bool.false_ne_true).symm.trans (results_query true q q' more)
  | true =>
      cases s with
      | false => exact (relaxed (Ne.symm Bool.false_ne_true)).trans (results_query false q q' more)
      | true => exact results_query true q q' more

/-- A request whose braces are in the body, and more of the body. -/
theorem results_eq_body :
    let more : List Memory := [⟨bytes "POST /a?b HTTP/1.1\r\n\r\n\x7b\x7d", fun _ => 0⟩,
      ⟨bytes "body", fun _ => 0⟩]
    results (httpParser true) (new _ 7) more = results (httpParser false) (new _ 9) more := by
  refine results_eq true false 7 9 _ fun _ x member asks => ?_
  have plain : (allReadings (httpParser false) (new _ 7)
      [⟨bytes "POST /a?b HTTP/1.1\r\n\r\n\x7b\x7d", fun _ => 0⟩,
        ⟨bytes "body", fun _ => 0⟩]).all (fun x => !Http11.conditional x.2) = true := by
    decide
  have here := List.all_eq_true.mp plain x member
  rw [asks.1] at here
  cases here

/-- A path with a brace: accepted after a constructor that found a one in the memory, and an error
after one that found a zero. -/
theorem results_differ :
    let more : List Memory := [⟨bytes "GET /\x7b HTTP/1.1\r\n\r\n", fun _ => 0⟩]
    (results (httpParser true) (new _ 0) more).map
        (Option.map fun r => (r.returned, r.finished, r.error)) = [some (19, 1, false)] ∧
      (results (httpParser false) (new _ 0) more).map
        (Option.map fun r => (r.returned, r.finished, r.error)) = [some (5, -1, true)] ∧
      results (httpParser true) (new _ 0) more ≠ results (httpParser false) (new _ 0) more := by
  have relaxed : (results (httpParser true) (new _ 0)
      [⟨bytes "GET /\x7b HTTP/1.1\r\n\r\n", fun _ => 0⟩]).map
        (Option.map fun r => (r.returned, r.finished, r.error)) = [some (19, 1, false)] := by
    decide
  have strict : (results (httpParser false) (new _ 0)
      [⟨bytes "GET /\x7b HTTP/1.1\r\n\r\n", fun _ => 0⟩]).map
        (Option.map fun r => (r.returned, r.finished, r.error)) = [some (5, -1, true)] := by
    decide
  refine ⟨relaxed, strict, fun same => ?_⟩
  rw [same, strict] at relaxed
  revert relaxed
  decide

end CorReactor.Http.HttpRequestParser
