import CorReactor.HttpParser
import CorReactor.RagelCues

set_option autoImplicit false

/-! What the actions of a call keep, and that none of them throws in the first call. -/

namespace CorReactor.Http.HttpRequestParser

open Http11 (Action)
open Ragel (Preceded inOrder)

variable {State : Type} {memory : Memory} {p : Nat} {a : Action} {xs : List Action}
  {parser after : HttpRequestParser State}

/-- The offsets have been set at bytes up to `p`. -/
structure Bounded (p : Nat) (fields : HttpParser State) : Prop where
  mark : fields.mark ≤ p
  field_start : fields.field_start ≤ p
  field_len : fields.field_len ≤ p
  body_start : fields.body_start ≤ p + 1

theorem Bounded.mono {q : Nat} {fields : HttpParser State} (bounded : Bounded p fields)
    (le : p ≤ q) : Bounded q fields :=
  ⟨bounded.mark.trans le, bounded.field_start.trans le, bounded.field_len.trans le,
    bounded.body_start.trans (Nat.succ_le_succ le)⟩

theorem string_of_lt {at_ n : Nat} (short : n < 2 ^ 63) :
    memory.string at_ n = some (memory.read at_ n) := by
  rw [Memory.string, if_pos short]

/-- The fields of the parser that no callback touches. -/
theorem onRequestMethod_keeps {at_ n : Nat}
    (done : parser.onRequestMethod memory at_ n = some after) :
    after.mParser = parser.mParser := by
  unfold onRequestMethod at done
  split at done
  · obtain ⟨v, -, rfl⟩ := Option.map_eq_some_iff.mp done
    rfl
  · cases done
    rfl

theorem onRequestVersion_keeps {at_ n : Nat}
    (done : parser.onRequestVersion memory at_ n = some after) :
    after.mParser = parser.mParser := by
  unfold onRequestVersion at done
  dsimp only at done
  split at done
  · cases done
    rfl
  · split at done
    · cases done
      rfl
    · obtain ⟨v, -, rfl⟩ := Option.map_eq_some_iff.mp done
      rfl

theorem onRequestHttpField_keeps {at_ flen value vlen : Nat}
    (done : parser.onRequestHttpField memory at_ flen value vlen = some after) :
    after.mParser = parser.mParser := by
  unfold onRequestHttpField at done
  split at done
  · cases done
    rfl
  · obtain ⟨key, -, done⟩ := Option.bind_eq_some_iff.mp done
    obtain ⟨val, -, rfl⟩ := Option.map_eq_some_iff.mp done
    rfl

/-- What an action does to the parser's own fields. -/
def moved (fpc : Nat) (fields : HttpParser State) : Action → HttpParser State
  | .mark | .startValue => { fields with mark := fpc }
  | .startField => { fields with field_start := fpc }
  | .writeField => { fields with field_len := sizeSub fpc fields.field_start }
  | .startQuery => { fields with query_start := fpc }
  | .done => done fpc fields
  | .xml => { fields with xml_sent := true }
  | .json => { fields with json_sent := true }
  | _ => fields

theorem act_moves (done : parser.act memory p a = some after) :
    after.mParser = moved p parser.mParser a := by
  cases a with
  | mark | startValue | startField | writeField | startQuery | requestUri | done | xml | json =>
      cases done
      rfl
  | writeValue => exact onRequestHttpField_keeps done
  | requestMethod => exact onRequestMethod_keeps done
  | httpVersion => exact onRequestVersion_keeps done
  | fragment | queryString | requestPath =>
      obtain ⟨v, -, rfl⟩ := Option.map_eq_some_iff.mp done
      rfl

theorem done_keeps (fpc : Nat) (fields : HttpParser State) :
    (done fpc fields).cs = fields.cs ∧ (done fpc fields).nread = fields.nread ∧
      (done fpc fields).query_start = fields.query_start := by
  unfold done
  split <;> exact ⟨rfl, rfl, rfl⟩

/-- `cs` and `nread` stay, and `query_start` is set by its own action only. -/
theorem moved_keeps (fpc : Nat) (fields : HttpParser State) (a : Action) :
    (moved fpc fields a).cs = fields.cs ∧ (moved fpc fields a).nread = fields.nread ∧
      (moved fpc fields a).query_start = if a = .startQuery then fpc else fields.query_start := by
  cases a with
  | done => exact done_keeps fpc fields
  | _ => exact ⟨rfl, rfl, rfl⟩

theorem Bounded.moved {fields : HttpParser State} (bounded : Bounded p fields) (a : Action) :
    Bounded p (moved p fields a) := by
  obtain ⟨mark, field_start, field_len, body_start⟩ := bounded
  cases a with
  | mark | startValue => exact ⟨Nat.le_refl p, field_start, field_len, body_start⟩
  | startField => exact ⟨mark, Nat.le_refl p, field_len, body_start⟩
  | writeField =>
      refine ⟨mark, field_start, ?_, body_start⟩
      change sizeSub p fields.field_start ≤ p
      rw [sizeSub_of_le field_start]
      exact Nat.sub_le _ _
  | done =>
      change Bounded p (done p fields)
      unfold HttpRequestParser.done
      split
      · exact ⟨mark, field_start, field_len, mark.trans (Nat.le_succ p)⟩
      · exact ⟨mark, field_start, field_len, Nat.le_refl _⟩
  | _ => exact ⟨mark, field_start, field_len, body_start⟩

/-- An action whose offsets lie before it does not throw. -/
theorem act_total (memory : Memory) (bounded : Bounded p parser.mParser) (short : p < 2 ^ 63)
    (asked : a = .queryString → parser.mParser.query_start ≤ p) :
    ∃ after, parser.act memory p a = some after := by
  have length_lt : ∀ n ≤ p, sizeSub p n < 2 ^ 63 := by
    intro n le
    rw [sizeSub_of_le le]
    exact Nat.lt_of_le_of_lt (Nat.sub_le _ _) short
  have since_mark := length_lt _ bounded.mark
  cases a with
  | mark | startValue | startField | writeField | startQuery | requestUri | done | xml | json =>
      exact ⟨_, rfl⟩
  | writeValue =>
      simp only [act, onRequestHttpField]
      split
      · exact ⟨_, rfl⟩
      · have field_short := Nat.lt_of_le_of_lt bounded.field_len short
        rw [string_of_lt field_short, string_of_lt since_mark]
        exact ⟨_, rfl⟩
  | requestMethod =>
      simp only [act, onRequestMethod]
      split
      · rw [string_of_lt since_mark]
        exact ⟨_, rfl⟩
      · exact ⟨_, rfl⟩
  | httpVersion =>
      simp only [act, onRequestVersion]
      split
      · exact ⟨_, rfl⟩
      · split
        · exact ⟨_, rfl⟩
        · rw [string_of_lt since_mark]
          exact ⟨_, rfl⟩
  | fragment =>
      simp only [act, onRequestFragment, string_of_lt since_mark]
      exact ⟨_, rfl⟩
  | requestPath =>
      simp only [act, onRequestPath, string_of_lt since_mark]
      exact ⟨_, rfl⟩
  | queryString =>
      simp only [act, onRequestQuery, string_of_lt (length_lt _ (asked rfl))]
      exact ⟨_, rfl⟩

/-! ### Transitions -/

theorem perform_keeps {broken : Bool}
    (done : perform memory p xs parser = some (after, broken)) :
    after.mParser.cs = parser.mParser.cs ∧ after.mParser.nread = parser.mParser.nread := by
  induction xs generalizing parser with
  | nil =>
      cases done
      exact ⟨rfl, rfl⟩
  | cons a xs ih =>
      obtain ⟨next, acted, done⟩ := Option.bind_eq_some_iff.mp done
      have fields := act_moves acted
      have kept := moved_keeps p parser.mParser a
      rw [← fields] at kept
      split at done
      · cases done
        exact ⟨kept.1, kept.2.1⟩
      · have later := ih done
        exact ⟨later.1.trans kept.1, later.2.trans kept.2.1⟩

/-- The loop is broken off by `done`. -/
theorem perform_breaks {broken : Bool}
    (performed : perform memory p xs parser = some (after, broken)) :
    broken = true ↔ .done ∈ xs := by
  induction xs generalizing parser with
  | nil =>
      cases performed
      simp
  | cons a xs ih =>
      obtain ⟨next, -, rest⟩ := Option.bind_eq_some_iff.mp performed
      by_cases ends : a = .done
      · rw [if_pos ends] at rest
        cases rest
        exact iff_of_true rfl (ends ▸ List.mem_cons_self)
      · rw [if_neg ends] at rest
        rw [ih rest, List.mem_cons]
        exact (or_iff_right (Ne.symm ends)).symm

/-- The actions of a transition, where `queryString` comes only after `startQuery`. -/
theorem perform_total (memory : Memory) (bounded : Bounded p parser.mParser) (short : p < 2 ^ 63)
    (ready : parser.mParser.query_start ≤ p ∨ Preceded .startQuery .queryString xs) :
    ∃ after broken, perform memory p xs parser = some (after, broken) ∧
      Bounded p after.mParser ∧
      (broken = false → parser.mParser.query_start ≤ p ∨ .startQuery ∈ xs →
        after.mParser.query_start ≤ p) := by
  induction xs generalizing parser with
  | nil =>
      refine ⟨parser, false, rfl, bounded, ?_⟩
      intro _ started
      exact started.resolve_right List.not_mem_nil
  | cons a xs ih =>
      have asked : a = .queryString → parser.mParser.query_start ≤ p := by
        intro same
        exact ready.resolve_right fun preceded => preceded.head_ne same
      obtain ⟨next, acted⟩ := act_total memory bounded short asked
      have fields := act_moves acted
      have started : parser.mParser.query_start ≤ p ∨ a = .startQuery →
          next.mParser.query_start ≤ p := by
        intro either
        rw [fields, (moved_keeps p parser.mParser a).2.2]
        split
        · exact Nat.le_refl p
        case isFalse other => exact either.resolve_right other
      simp only [perform, acted, Option.bind_some]
      by_cases last : a = .done
      · rw [if_pos last]
        refine ⟨next, true, rfl, ?_, fun impossible => by cases impossible⟩
        rw [fields]
        exact bounded.moved a
      · rw [if_neg last]
        have next_bounded : Bounded p next.mParser := by
          rw [fields]
          exact bounded.moved a
        have next_ready : next.mParser.query_start ≤ p ∨
            Preceded .startQuery .queryString xs := by
          by_cases cue : a = .startQuery
          · exact Or.inl (started (Or.inr cue))
          · exact ready.imp (fun le => started (Or.inl le)) fun preceded => preceded.tail cue
        obtain ⟨after, broken, done, after_bounded, finished⟩ := ih next_bounded next_ready
        refine ⟨after, broken, done, after_bounded, ?_⟩
        intro unbroken either
        refine finished unbroken ?_
        rcases either with le | member
        · exact Or.inl (started (Or.inl le))
        · rcases List.mem_cons.mp member with cue | later
          · exact Or.inl (started (Or.inr cue.symm))
          · exact Or.inr later

/-! ### The loop -/

section Scan

variable {M : ActionMachine} {rest : Bytes} {cs : M.State}
  {parser after : HttpRequestParser M.State}

theorem scan_keeps {last : Option M.State} {q : Nat}
    (done : scan M memory cs p rest parser = some (last, q, after)) :
    after.mParser.cs = parser.mParser.cs ∧ after.mParser.nread = parser.mParser.nread ∧
      p ≤ q ∧ q ≤ p + rest.length := by
  induction rest generalizing cs p parser with
  | nil =>
      cases done
      exact ⟨rfl, rfl, Nat.le_refl _, Nat.le_refl _⟩
  | cons c rest ih =>
      rw [scan] at done
      rw [List.length_cons]
      split at done
      · cases done
        exact ⟨rfl, rfl, Nat.le_refl _, by omega⟩
      · obtain ⟨⟨next, broken⟩, performed, done⟩ := Option.bind_eq_some_iff.mp done
        have kept := perform_keeps performed
        dsimp only at done
        split at done
        · cases done
          exact ⟨kept.1, kept.2, by omega, by omega⟩
        · have later := ih done
          exact ⟨later.1.trans kept.1, later.2.1.trans kept.2, by omega, by omega⟩

variable {R : M.State → Prop}

theorem mem_inOrder {as : List (Nat × Action)} (given : Ragel.Given a as) : a ∈ inOrder as := by
  obtain ⟨k, member⟩ := given
  rw [inOrder, List.mem_eraseDups, List.mem_map]
  exact ⟨(k, a), (List.mem_insertionSort _).mpr member, rfl⟩

/-- From a bounded parser the loop does not throw, and leaves it bounded. -/
theorem scan_total (memory : Memory) (rest : Bytes)
    (waits : M.Waits .startQuery .queryString R)
    (bounded : Bounded (p - 1) parser.mParser) (short : p + rest.length < 2 ^ 63)
    (ready : parser.mParser.query_start ≤ p ∨ R cs) :
    ∃ last q after, scan M memory cs p rest parser = some (last, q, after) ∧
      Bounded (q - 1) after.mParser := by
  induction rest generalizing cs p parser with
  | nil => exact ⟨_, _, _, rfl, bounded⟩
  | cons c rest ih =>
      rw [List.length_cons] at short
      rw [scan]
      cases step : M.step cs c with
      | none => exact ⟨_, _, _, rfl, bounded⟩
      | some t =>
          obtain ⟨as, next⟩ := t
          have waiting : parser.mParser.query_start ≤ p ∨
              (Ragel.Cued .startQuery .queryString as ∧ (Ragel.Given .startQuery as ∨ R next)) :=
            ready.imp_right fun held => waits.step cs c as next held step
          obtain ⟨after, broken, performed, after_bounded, started⟩ :=
            perform_total memory (bounded.mono (Nat.sub_le p 1))
              (Nat.lt_of_le_of_lt (Nat.le_add_right p _) short)
              (waiting.imp_right fun held => Ragel.preceded_inOrder held.1)
          dsimp only
          rw [performed, Option.bind_some]
          dsimp only
          cases broken with
          | true => exact ⟨_, _, _, rfl, after_bounded⟩
          | false =>
              refine ih after_bounded (by omega) ?_
              rcases waiting with le | ⟨-, given | held⟩
              · exact Or.inl ((started rfl (Or.inl le)).trans (Nat.le_succ p))
              · exact Or.inl ((started rfl (Or.inr (mem_inOrder given))).trans (Nat.le_succ p))
              · exact Or.inr held

end Scan

end CorReactor.Http.HttpRequestParser
