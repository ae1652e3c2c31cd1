import Mathlib.Algebra.GroupWithZero.Basic
import CorReactor.HttpClientParser

set_option autoImplicit false

/-! `evaluate_expression`, and the stack size that a fiber takes from it. -/

namespace CorReactor.Expression

open Http (Bytes sign strtol digitValue)

/-- The exceptions of `stoi`, and what the language leaves undefined. -/
inductive Stop
  | invalid_argument
  | out_of_range
  | overflow
  deriving DecidableEq

/-- Whether the number is an `int`. -/
def isInt (n : Int) : Bool := -2 ^ 31 ≤ n && n < 2 ^ 31

/-- `std::stoi(str)`, which does not look at what is behind the number. -/
def stoi (str : Bytes) : Except Stop Int :=
  if ((sign (str.dropWhile Http11.space)).2.takeWhile (digitValue · < 10)) = [] then
    .error .invalid_argument
  else
    let n := strtol str 10
    if isInt n then .ok n else .error .out_of_range

/-- The operators of an expression are the bytes 42. -/
def evaluateExpression (expr : Bytes) : Except Stop Int :=
  match expr.findIdx? (· == 42) with
  | some pos =>
      match stoi (expr.take pos) with
      | .error e => .error e
      | .ok a =>
          match stoi (expr.drop (pos + 1)) with
          | .error e => .error e
          | .ok b => if isInt (a * b) then .ok (a * b) else .error .overflow
  | none => stoi expr

/-- `m_stacksize` of a new fiber. -/
def stackSize (stacksize : UInt64) (expr : Bytes) : Except Stop UInt32 :=
  if stacksize ≠ 0 then .ok stacksize.toUInt32
  else (evaluateExpression expr).map fun n => UInt32.ofNat (n % 2 ^ 32).toNat

/-! ### Expressions -/

inductive Sign
  | none
  | plus
  | minus
  deriving DecidableEq

def Sign.text : Sign → Bytes
  | .none => []
  | .plus => [43]
  | .minus => [45]

def Sign.factor : Sign → Int
  | .none | .plus => 1
  | .minus => -1

/-- The text of a decimal integer. -/
structure Factor where
  sign : Sign
  digits : Bytes
  nonempty : digits ≠ []
  decimal : ∀ c ∈ digits, Http11.digit c = true

namespace Factor

def text (f : Factor) : Bytes := f.sign.text ++ f.digits

def value (f : Factor) : Int :=
  f.sign.factor * (f.digits.foldl (fun n c => 10 * n + (c.toNat - 48)) 0 : Nat)

end Factor

def joined (factors : List Factor) : Bytes := [42].intercalate (factors.map Factor.text)

/-- The product of the numbers and every product on the way is an `int`. -/
def ProductFits (values : List Int) : Prop :=
  ∀ k < values.length, isInt (values.take (k + 1)).prod = true

instance (values : List Int) : Decidable (ProductFits values) :=
  inferInstanceAs (Decidable (∀ k < _, _))

/-- The product where it can be had, and otherwise an exception, for the expression and for the
fiber. -/
def Evaluates (factors : List Factor) : Prop :=
  let product := (factors.map Factor.value).prod
  (ProductFits (factors.map Factor.value) →
    evaluateExpression (joined factors) = .ok product ∧
      stackSize 0 (joined factors) = .ok (UInt32.ofNat (product % 2 ^ 32).toNat)) ∧
  (¬ ProductFits (factors.map Factor.value) →
    ∃ e, e ≠ .overflow ∧ evaluateExpression (joined factors) = .error e ∧
      stackSize 0 (joined factors) = .error e)

/-- The numbers behind the first two do not matter, and a number that is no `int` comes with a
product that is none. -/
def Evaluable : List Int → Prop
  | a :: b :: rest =>
      if isInt a && isInt b then
        ProductFits (a :: b :: rest) ∧ (a * b = 0 ∨ rest.prod = 1)
      else ¬ ProductFits (a :: b :: rest)
  | _ => True

/-! ### Reading a number -/

theorem within_iff {first last c : UInt8} :
    Http11.within first last c = true ↔ first.toNat ≤ c.toNat ∧ c.toNat ≤ last.toNat := by
  simp only [Http11.within, Bool.and_eq_true, decide_eq_true_eq, UInt8.le_iff_toNat_le]

theorem digit_iff {c : UInt8} : Http11.digit c = true ↔ 48 ≤ c.toNat ∧ c.toNat ≤ 57 := within_iff

theorem digitValue_of_digit {c : UInt8} (digit : Http11.digit c = true) :
    digitValue c = c.toNat - 48 := by
  unfold Http.digitValue
  rw [if_pos digit]

theorem digitValue_lt_iff (c : UInt8) : digitValue c < 10 ↔ Http11.digit c = true := by
  constructor
  · intro small
    by_contra other
    unfold Http.digitValue at small
    rw [if_neg other] at small
    split at small
    · rename_i lower
      have first : 97 ≤ c.toNat := (within_iff.mp lower).1
      omega
    · split at small
      · rename_i upper
        have first : 65 ≤ c.toNat := (within_iff.mp upper).1
        omega
      · omega
  · intro digit
    have range := digit_iff.mp digit
    rw [digitValue_of_digit digit]
    omega

theorem not_space {c : UInt8} (high : 32 < c.toNat) : Http11.space c = false := by
  have other : Http11.within 9 13 c = false := by
    rw [Bool.eq_false_iff]
    intro inside
    have last : c.toNat ≤ 13 := (within_iff.mp inside).2
    omega
  have blank : (c == 32) = false := by
    refine beq_eq_false_iff_ne.mpr ?_
    rintro rfl
    exact absurd high (by decide)
  unfold Http11.space
  rw [other, blank]
  rfl

theorem isInt_iff {n : Int} : isInt n = true ↔ -2 ^ 31 ≤ n ∧ n < 2 ^ 31 := by
  simp only [isInt, Bool.and_eq_true, decide_eq_true_eq]

/-- Cutting a number off at the ends of `long` does not make an `int` of it. -/
theorem isInt_clamped (n : Int) :
    isInt (max (-2 ^ 63) (min (2 ^ 63 - 1) n)) = isInt n ∧
      (isInt n = true → max (-2 ^ 63) (min (2 ^ 63 - 1) n) = n) := by
  rw [Bool.eq_iff_iff, isInt_iff, isInt_iff]
  omega

namespace Factor

variable (f : Factor) {rest : Bytes}

/-- The sign is read off, and there is no space in front of it. -/
theorem sign_text : Http.sign ((f.text ++ rest).dropWhile Http11.space) =
    (f.sign.factor, f.digits ++ rest) := by
  obtain ⟨sgn, digits, nonempty, decimal⟩ := f
  unfold text
  cases sgn with
  | plus => rfl
  | minus => rfl
  | none =>
      obtain ⟨c, more, rfl⟩ := List.exists_cons_of_ne_nil nonempty
      have range := digit_iff.mp (decimal c List.mem_cons_self)
      have visible : Http11.space c = false := not_space (by omega)
      have unsigned : c ≠ 45 ∧ c ≠ 43 := by
        refine ⟨?_, ?_⟩
        · rintro rfl
          exact absurd range (by decide)
        · rintro rfl
          exact absurd range (by decide)
      simp only [Sign.text, Sign.factor, List.nil_append, List.cons_append, List.dropWhile_cons,
        visible, Bool.false_eq_true, ↓reduceIte]
      unfold Http.sign
      split
      · rename_i same
        exact absurd (List.cons.inj same).1 unsigned.1
      · rename_i same
        exact absurd (List.cons.inj same).1 unsigned.2
      · rfl

/-- The digits end where the next byte is none. -/
theorem takeWhile_digits (ends : ∀ c ∈ rest.head?, Http11.digit c = false) :
    (f.digits ++ rest).takeWhile (digitValue · < 10) = f.digits := by
  have all : ∀ c ∈ f.digits, decide (digitValue c < 10) = true := fun c inside =>
    decide_eq_true ((digitValue_lt_iff c).mpr (f.decimal c inside))
  rw [List.takeWhile_append_of_pos all]
  cases rest with
  | nil => exact List.append_nil _
  | cons c rest =>
      have other := ends c rfl
      have stops : ¬ digitValue c < 10 := by
        rw [digitValue_lt_iff, other]
        exact Bool.false_ne_true
      rw [List.takeWhile_cons_of_neg (by simpa using stops), List.append_nil]

theorem foldl_digits {digits : Bytes} (decimal : ∀ c ∈ digits, Http11.digit c = true) (n : Nat) :
    digits.foldl (fun n c => 10 * n + digitValue c) n =
      digits.foldl (fun n c => 10 * n + (c.toNat - 48)) n := by
  induction digits generalizing n with
  | nil => rfl
  | cons c digits ih =>
      rw [List.foldl_cons, List.foldl_cons, digitValue_of_digit (decimal c List.mem_cons_self)]
      exact ih (fun d inside => decimal d (List.mem_cons_of_mem c inside)) _

/-- `stoi` reads the factor and does not look at what follows it. -/
theorem stoi_text (ends : ∀ c ∈ rest.head?, Http11.digit c = false) :
    stoi (f.text ++ rest) = if isInt f.value then .ok f.value else .error .out_of_range := by
  have number : strtol (f.text ++ rest) 10 =
      max (-2 ^ 63) (min (2 ^ 63 - 1) f.value) := by
    unfold Http.strtol value
    simp only [f.sign_text, Nat.reduceEqDiff, ↓reduceIte, f.takeWhile_digits ends,
      foldl_digits f.decimal]
  have clamped := isInt_clamped f.value
  unfold stoi
  rw [f.sign_text, f.takeWhile_digits ends, if_neg f.nonempty, number]
  dsimp only
  rw [clamped.1]
  by_cases fits : isInt f.value = true
  · rw [if_pos fits, if_pos fits, clamped.2 fits]
  · rw [if_neg fits, if_neg fits]

/-- No operator is part of a factor. -/
theorem not_mem_text : 42 ∉ f.text := by
  intro inside
  rcases List.mem_append.mp inside with sign | digit
  · cases at_sign : f.sign <;> rw [at_sign] at sign <;> revert sign <;> decide
  · exact absurd (f.decimal 42 digit) (by decide)

theorem findIdx?_text : f.text.findIdx? (· == 42) = none := by
  rw [List.findIdx?_eq_none_iff]
  intro c inside
  exact beq_eq_false_iff_ne.mpr fun same => f.not_mem_text (same ▸ inside)

/-- The factor alone. -/
theorem stoi_eq : stoi f.text = if isInt f.value then .ok f.value else .error .out_of_range := by
  rw [← List.append_nil f.text]
  exact f.stoi_text fun c inside => by cases inside

end Factor

/-! ### Evaluation -/

variable (f g : Factor) (rest : List Factor)

theorem joined_single : joined [f] = f.text := by
  unfold joined
  simp

theorem joined_cons : joined (f :: g :: rest) = f.text ++ 42 :: joined (g :: rest) := by
  unfold joined
  rw [List.map_cons, List.map_cons, List.intercalate_cons_cons, List.append_assoc]
  rfl

/-- Behind a factor the expression ends or goes on with an operator. -/
theorem joined_head : ∃ behind, joined (f :: rest) = f.text ++ behind ∧
    ∀ c ∈ behind.head?, Http11.digit c = false := by
  cases rest with
  | nil => exact ⟨[], by rw [joined_single, List.append_nil], fun c inside => by cases inside⟩
  | cons g rest =>
      refine ⟨42 :: joined (g :: rest), joined_cons f g rest, ?_⟩
      intro c inside
      cases inside
      rfl

theorem evaluate_single : evaluateExpression (joined [f]) =
    if isInt f.value then .ok f.value else .error .out_of_range := by
  unfold evaluateExpression
  rw [joined_single, f.findIdx?_text]
  exact f.stoi_eq

/-- Only the first two factors are read. -/
theorem evaluate_cons : evaluateExpression (joined (f :: g :: rest)) =
    if isInt f.value && isInt g.value then
      if isInt (f.value * g.value) then .ok (f.value * g.value) else .error .overflow
    else .error .out_of_range := by
  have first : (f.text ++ 42 :: joined (g :: rest)).findIdx? (· == 42) = some f.text.length := by
    rw [List.findIdx?_append, f.findIdx?_text, List.findIdx?_cons]
    simp
  obtain ⟨behind, split, ends⟩ := joined_head g rest
  have right := g.stoi_text ends
  rw [← split] at right
  have tail : (f.text ++ 42 :: joined (g :: rest)).drop (f.text.length + 1) =
      joined (g :: rest) := by
    rw [List.drop_append, List.drop_of_length_le (Nat.le_succ _), Nat.add_sub_cancel_left]
    rfl
  unfold evaluateExpression
  rw [joined_cons, first]
  dsimp only
  rw [List.take_left, tail, f.stoi_eq, right]
  cases isInt f.value with
  | false => rfl
  | true => cases isInt g.value <;> rfl

/-! ### Products -/

variable {a b : Int} {values : List Int}

theorem productFits_single : ProductFits [a] ↔ isInt a = true := by
  unfold ProductFits
  simp

/-- The first factor and the first product are `int`s. -/
theorem ProductFits.first_two (fits : ProductFits (a :: b :: values)) :
    isInt a = true ∧ isInt (a * b) = true := by
  have one := fits 0 (by simp)
  have two := fits 1 (by simp)
  simp only [List.take_succ_cons, List.take_zero, List.prod_cons, List.prod_nil, Int.mul_one]
    at one two
  exact ⟨one, two⟩

/-- A result in the two places where it shows. -/
theorem stackSize_ok {expr : Bytes} {n : Int} (evaluated : evaluateExpression expr = .ok n) :
    stackSize 0 expr = .ok (UInt32.ofNat (n % 2 ^ 32).toNat) := by
  unfold stackSize
  rw [evaluated]
  rfl

theorem stackSize_error {expr : Bytes} {e : Stop} (stopped : evaluateExpression expr = .error e) :
    stackSize 0 expr = .error e := by
  unfold stackSize
  rw [stopped]
  rfl

theorem evaluates_iff_of_ok {factors : List Factor} {n : Int}
    (evaluated : evaluateExpression (joined factors) = .ok n) :
    Evaluates factors ↔
      ProductFits (factors.map Factor.value) ∧ (factors.map Factor.value).prod = n := by
  constructor
  · intro right
    by_cases fits : ProductFits (factors.map Factor.value)
    · have result := (right.1 fits).1
      rw [evaluated] at result
      exact ⟨fits, (Except.ok.inj result).symm⟩
    · obtain ⟨e, -, stopped, -⟩ := right.2 fits
      rw [evaluated] at stopped
      cases stopped
  · intro right
    obtain ⟨fits, same⟩ := right
    subst same
    exact ⟨fun _ => ⟨evaluated, stackSize_ok evaluated⟩, fun unfit => absurd fits unfit⟩

theorem evaluates_iff_of_error {factors : List Factor} {e : Stop}
    (stopped : evaluateExpression (joined factors) = .error e) :
    Evaluates factors ↔ ¬ ProductFits (factors.map Factor.value) ∧ e ≠ .overflow := by
  constructor
  · intro right
    have unfit : ¬ ProductFits (factors.map Factor.value) := by
      intro fits
      have result := (right.1 fits).1
      rw [stopped] at result
      cases result
    obtain ⟨e', thrown, stopped', -⟩ := right.2 unfit
    rw [stopped] at stopped'
    exact ⟨unfit, Except.error.inj stopped' ▸ thrown⟩
  · intro right
    exact ⟨fun fits => absurd fits right.1,
      fun _ => ⟨e, right.2, stopped, stackSize_error stopped⟩⟩

/-- Which products are evaluated as they should be. -/
theorem evaluates_iff (f : Factor) (rest : List Factor) :
    Evaluates (f :: rest) ↔ Evaluable ((f :: rest).map Factor.value) := by
  cases rest with
  | nil =>
      have single := evaluate_single f
      refine iff_of_true ?_ trivial
      by_cases fits : isInt f.value = true
      · rw [if_pos fits] at single
        rw [evaluates_iff_of_ok single]
        exact ⟨productFits_single.mpr fits, Int.mul_one _⟩
      · rw [if_neg fits] at single
        rw [evaluates_iff_of_error single]
        exact ⟨fun whole => fits (productFits_single.mp whole), by decide⟩
  | cons g rest =>
      have whole := evaluate_cons f g rest
      rw [List.map_cons, List.map_cons, Evaluable]
      by_cases ints : (isInt f.value && isInt g.value) = true
      · rw [if_pos ints] at whole ⊢
        by_cases product : isInt (f.value * g.value) = true
        · rw [if_pos product] at whole
          rw [evaluates_iff_of_ok whole, List.map_cons, List.map_cons, List.prod_cons,
            List.prod_cons, ← Int.mul_assoc, mul_right_eq_self₀]
          exact and_congr_right fun _ => Or.comm
        · rw [if_neg product] at whole
          rw [evaluates_iff_of_error whole]
          refine iff_of_false (fun right => right.2 rfl) ?_
          intro right
          exact product right.1.first_two.2
      · rw [if_neg ints] at whole ⊢
        rw [evaluates_iff_of_error whole]
        exact and_iff_left (by decide)

example : evaluateExpression (Http.bytes "1024*1024") = .ok 1048576 := by decide

/-- Half of 1024*1024*2, and a product that is no `int`. -/
theorem evaluates_half :
    let n1024 : Factor := ⟨.none, Http.bytes "1024", by decide, List.all_eq_true.mp (by decide)⟩
    let n65536 : Factor := ⟨.none, Http.bytes "65536", by decide, List.all_eq_true.mp (by decide)⟩
    let n2 : Factor := ⟨.none, Http.bytes "2", by decide, List.all_eq_true.mp (by decide)⟩
    joined [n1024, n1024, n2] = Http.bytes "1024*1024*2" ∧
      evaluateExpression (Http.bytes "1024*1024*2") = .ok 1048576 ∧
      ¬ Evaluates [n1024, n1024, n2] ∧
      evaluateExpression (Http.bytes "65536*65536") = .error .overflow ∧
      ¬ Evaluates [n65536, n65536] := by
  intro n1024 n65536 n2
  refine ⟨by decide, by decide, ?_, by decide, ?_⟩
  · rw [evaluates_iff_of_ok (n := 1048576) (by decide)]
    decide
  · rw [evaluates_iff_of_error (e := .overflow) (by decide)]
    decide

end CorReactor.Expression
