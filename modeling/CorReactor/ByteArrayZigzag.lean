import Mathlib.Data.FinEnum
import CorReactor.ByteArrayCodec

set_option autoImplicit false

/-! Which values the zigzag encoding takes without an overflow, and that it is a bijection where
the machine wraps around. -/

namespace CorReactor

variable {w : Nat}

/-- `EncodeZigzag32` and `EncodeZigzag64`; `none` is a signed result outside of its type. Behind the
cast the arithmetic is unsigned. -/
def EncodeZigzag? (v : BitVec w) : Option (BitVec w) :=
  if v.slt 0 then
    if v.negOverflow then none else some (-v * 2 - 1)
  else
    if v.smulOverflow 2 then none else some (v * 2)

/-- The code of a number. -/
def zigzag (v : Int) : Int := if 0 ≤ v then 2 * v else -2 * v - 1

/-- The value is encoded as the specification says, and the code stands for it. -/
def ZigzagExact (v : BitVec w) : Prop :=
  ∃ u, EncodeZigzag? v = some u ∧ u.toNat = zigzag v.toInt ∧ DecodeZigzag w u = v

theorem EncodeZigzag?_eq_some {v u : BitVec w} (encoded : EncodeZigzag? v = some u) :
    u = EncodeZigzag w v := by
  unfold EncodeZigzag? at encoded
  unfold EncodeZigzag
  split at encoded
  · rw [if_pos (by assumption)]
    split at encoded
    · cases encoded
    · exact (Option.some.inj encoded).symm
  · rw [if_neg (by assumption)]
    split at encoded
    · cases encoded
    · exact (Option.some.inj encoded).symm

/-- Where the machine wraps around it gives every value its code. -/
theorem toNat_EncodeZigzag (v : BitVec w) : (EncodeZigzag w v).toNat = zigzag v.toInt := by
  have bound := v.isLt
  rw [EncodeZigzag_eq]
  unfold zigzag
  cases negative : v.msb with
  | true =>
      have large := BitVec.msb_eq_true_iff_two_mul_ge.mp negative
      rw [if_pos rfl, BitVec.toInt_eq_msb_cond, if_pos negative, if_neg (by omega),
        BitVec.toNat_not, BitVec.toNat_shiftLeft, Nat.shiftLeft_eq, Nat.pow_one,
        Nat.mod_eq_sub_mod (by omega), Nat.mod_eq_of_lt (by omega)]
      omega
  | false =>
      have small := BitVec.msb_eq_false_iff_two_mul_lt.mp negative
      rw [if_neg Bool.false_ne_true, BitVec.toInt_eq_msb_cond, negative,
        if_neg Bool.false_ne_true, if_pos (by omega), BitVec.toNat_shiftLeft, Nat.shiftLeft_eq,
        Nat.pow_one, Nat.mod_eq_of_lt (by omega)]
      omega

theorem EncodeZigzag_bijective : Function.Bijective (EncodeZigzag w) := by
  have injective : Function.Injective (EncodeZigzag w) :=
    Function.LeftInverse.injective DecodeZigzag_EncodeZigzag
  exact ⟨injective, Finite.injective_iff_surjective.mp injective⟩

theorem EncodeZigzag_DecodeZigzag (u : BitVec w) : EncodeZigzag w (DecodeZigzag w u) = u := by
  obtain ⟨v, rfl⟩ := EncodeZigzag_bijective.2 u
  rw [DecodeZigzag_EncodeZigzag]

/-- A value is exact as soon as its encoding is defined. -/
theorem zigzagExact_iff_isSome {v : BitVec w} :
    ZigzagExact v ↔ (EncodeZigzag? v).isSome = true := by
  constructor
  · intro exact
    obtain ⟨u, encoded, -, -⟩ := exact
    rw [encoded]
    rfl
  · intro defined
    obtain ⟨u, encoded⟩ := Option.isSome_iff_exists.mp defined
    have wrapped := EncodeZigzag?_eq_some encoded
    subst wrapped
    exact ⟨_, encoded, toNat_EncodeZigzag v, DecodeZigzag_EncodeZigzag v⟩

/-- The smallest value cannot be negated and the upper half of the positive ones not doubled. -/
theorem zigzagExact_iff (wide : 3 ≤ w) (v : BitVec w) :
    ZigzagExact v ↔ -2 ^ (w - 1) < v.toInt ∧ v.toInt < 2 ^ (w - 2) := by
  have two : (2#w).toInt = 2 := by
    have room : 2 ^ 3 ≤ 2 ^ w := Nat.pow_le_pow_right (by decide) wide
    rw [BitVec.toInt_eq_toNat_of_lt] <;> rw [BitVec.toNat_ofNat, Nat.mod_eq_of_lt] <;> omega
  have half : (2 : Int) ^ (w - 1) = 2 * 2 ^ (w - 2) := by
    rw [show w - 1 = w - 2 + 1 by omega, Int.pow_succ, Int.mul_comm]
  have positive : (0 : Int) < 2 ^ (w - 2) := Int.pow_pos (by decide)
  have least := v.le_toInt
  have zero : (0 : BitVec w).toInt = 0 := BitVec.toInt_zero
  rw [zigzagExact_iff_isSome]
  unfold EncodeZigzag?
  by_cases negative : v.toInt < 0
  · have sign : v.slt 0 = true := by
      rw [BitVec.slt_eq_decide, zero]
      exact decide_eq_true negative
    rw [if_pos sign]
    unfold BitVec.negOverflow
    by_cases smallest : v.toInt = -2 ^ (w - 1)
    · rw [if_pos (beq_iff_eq.mpr smallest)]
      exact iff_of_false Bool.false_ne_true fun range => by omega
    · rw [if_neg fun same => smallest (beq_iff_eq.mp same)]
      exact iff_of_true rfl ⟨by omega, by omega⟩
  · have sign : ¬ v.slt 0 = true := by
      rw [BitVec.slt_eq_decide, zero]
      exact fun less => negative (of_decide_eq_true less)
    rw [if_neg sign]
    unfold BitVec.smulOverflow
    rw [show (2 : BitVec w) = 2#w from rfl, two]
    by_cases large : 2 ^ (w - 2) ≤ v.toInt
    · rw [if_pos]
      · exact iff_of_false Bool.false_ne_true fun range => by omega
      · rw [Bool.or_eq_true, decide_eq_true_eq]
        exact Or.inl (by omega)
    · rw [if_neg]
      · exact iff_of_true rfl ⟨by omega, by omega⟩
      · rw [Bool.or_eq_true, decide_eq_true_eq, decide_eq_true_eq]
        omega

/-- The codes of the values that are encoded without an overflow come back. -/
theorem code_exact_iff (wide : 3 ≤ w) (u : BitVec w) :
    EncodeZigzag? (DecodeZigzag w u) = some u ↔
      u.toNat < 2 ^ (w - 1) ∨ u.toNat % 2 = 1 ∧ u.toNat ≠ 2 ^ w - 1 := by
  have defined : EncodeZigzag? (DecodeZigzag w u) = some u ↔ ZigzagExact (DecodeZigzag w u) := by
    rw [zigzagExact_iff_isSome]
    constructor
    · intro encoded
      rw [encoded]
      rfl
    · intro defined
      obtain ⟨u', encoded⟩ := Option.isSome_iff_exists.mp defined
      rw [encoded, EncodeZigzag?_eq_some encoded, EncodeZigzag_DecodeZigzag]
  rw [defined, zigzagExact_iff wide]
  have code := toNat_EncodeZigzag (DecodeZigzag w u)
  rw [EncodeZigzag_DecodeZigzag] at code
  have bound := u.isLt
  have half : (2 : Nat) ^ (w - 1) = 2 * 2 ^ (w - 2) := by
    rw [show w - 1 = w - 2 + 1 by omega, Nat.pow_succ, Nat.mul_comm]
  have whole : (2 : Nat) ^ w = 2 * 2 ^ (w - 1) := by
    rw [Nat.mul_comm, ← Nat.pow_succ, show (w - 1).succ = w by omega]
  have cast : ∀ n : Nat, (2 : Int) ^ n = (2 ^ n : Nat) := fun n => (Int.natCast_pow 2 n).symm
  rw [cast, cast]
  generalize (DecodeZigzag w u).toInt = v at code
  unfold zigzag at code
  split at code <;> omega

/-- The two encodings are exact on the values whose code takes no overflow, and there the decoding
is their inverse. With wrap-around they are bijections. -/
theorem zigzag_exact_iff (v u : BitVec 32) (v' u' : BitVec 64) :
    (ZigzagExact v ↔ -2 ^ 31 < v.toInt ∧ v.toInt < 2 ^ 30) ∧
      (EncodeZigzag? (DecodeZigzag32 u) = some u ↔
        u.toNat < 2 ^ 31 ∨ u.toNat % 2 = 1 ∧ u.toNat ≠ 2 ^ 32 - 1) ∧
      (ZigzagExact v' ↔ -2 ^ 63 < v'.toInt ∧ v'.toInt < 2 ^ 62) ∧
      (EncodeZigzag? (DecodeZigzag64 u') = some u' ↔
        u'.toNat < 2 ^ 63 ∨ u'.toNat % 2 = 1 ∧ u'.toNat ≠ 2 ^ 64 - 1) ∧
      Function.Bijective EncodeZigzag32 ∧ Function.Bijective EncodeZigzag64 :=
  ⟨zigzagExact_iff (by decide) v, code_exact_iff (by decide) u, zigzagExact_iff (by decide) v',
    code_exact_iff (by decide) u', EncodeZigzag_bijective, EncodeZigzag_bijective⟩

/-- Doubling 2 ^ 30 and negating the smallest value leave the type. -/
theorem zigzag_overflows :
    EncodeZigzag? (BitVec.ofInt 32 (2 ^ 30)) = none ∧ ¬ ZigzagExact (BitVec.ofInt 32 (2 ^ 30)) ∧
      EncodeZigzag? (BitVec.intMin 64) = none ∧ ¬ ZigzagExact (BitVec.intMin 64) := by
  have doubled : EncodeZigzag? (BitVec.ofInt 32 (2 ^ 30)) = none := by decide
  have negated : EncodeZigzag? (BitVec.intMin 64) = none := by decide
  refine ⟨doubled, ?_, negated, ?_⟩
  · rw [zigzagExact_iff_isSome, doubled]
    exact Bool.false_ne_true
  · rw [zigzagExact_iff_isSome, negated]
    exact Bool.false_ne_true

end CorReactor
