import Ssms.Kernel.Utility
import Mathlib.Tactic.Ring

/-!
# Integers and doubles (`(int64_t)dv`, `(double)iv`, `==`)

The conversions the compiler makes between an `int64_t` and an IEEE 754 double. `toInt64` drops the
fraction and is undefined out of range (`none`); `ofInt64` rounds to the nearest double, half to
even. `IsInt x n`: the finite double `x` is the integer `n`, of which `0` has two, `negZero` being
the other one.

* `ext`: sign and magnitude determine a double.
* `toInt64_ofInt64`, `ofInt64_of_isInt`: **between the integers up to `2 ^ 53` and the doubles that
  are such an integer and not `negZero`, the conversions are inverse to each other.**
-/

namespace Ssms.Kernel.Double

/-- The double with this sign, and these bits as exponent and fraction. -/
def make (negative : Bool) (bits : Nat) : Double :=
  BitVec.ofNat 64 ((if negative then 2 ^ 63 else 0) + bits)

/-- `-0.0`. -/
def negZero : Double := make true 0

/-- A not-a-number. -/
def IsNan (x : Double) : Prop := x.exponent = 2047 ∧ x.fraction ≠ 0

instance : DecidablePred IsNan := fun x => by unfold IsNan; infer_instance

/-- `x == y`: both zeros are equal, and a not-a-number is equal to nothing. -/
def eq (x y : Double) : Bool :=
  decide (¬ x.IsNan ∧ ¬ y.IsNan ∧ (x = y ∨ x.scaled = 0 ∧ y.scaled = 0))

/-- The finite double without its fraction. -/
def truncate (x : Double) : Int :=
  if x.msb then -((x.scaled / 2 ^ 1074 : Nat) : Int) else (x.scaled / 2 ^ 1074 : Nat)

/-- `(int64_t)x`. -/
def toInt64 (x : Double) : Option (BitVec 64) :=
  if x.exponent ≠ 2047 ∧ -2 ^ 63 ≤ x.truncate ∧ x.truncate < 2 ^ 63 then
    some (BitVec.ofInt 64 x.truncate)
  else none

/-- The nearest number with 53 bits, half to even, without its exponent. -/
def significand (n : Nat) : Nat :=
  if n.log2 ≤ 52 then n * 2 ^ (52 - n.log2) else roundHalfEven n (2 ^ (n.log2 - 52))

/-- Exponent and fraction of the double nearest to a number; a significand of `2 ^ 53` carries into
the exponent. -/
def bitsOf (n : Nat) : Nat := if n = 0 then 0 else (1022 + n.log2) * 2 ^ 52 + significand n

/-- `(double)value`. -/
def ofInt64 (value : BitVec 64) : Double := make (value.toInt < 0) (bitsOf value.toInt.natAbs)

/-- The finite double `x` is the integer `n`. -/
def IsInt (x : Double) (n : Int) : Prop :=
  x.exponent ≠ 2047 ∧ (if x.msb then -(x.scaled : Int) else x.scaled) = n * 2 ^ 1074

instance (x : Double) (n : Int) : Decidable (x.IsInt n) := by unfold IsInt; infer_instance

/-! ## Sign, exponent and fraction -/

theorem msb_eq (x : Double) : x.msb = decide (2 ^ 63 ≤ x.toNat) := by
  rw [BitVec.msb_eq_decide]

theorem exponent_eq (x : Double) : x.exponent = x.toNat / 2 ^ 52 % 2 ^ 11 := by
  simp [exponent, BitVec.extractLsb'_toNat, Nat.shiftRight_eq_div_pow]

theorem fraction_eq (x : Double) : x.fraction = x.toNat % 2 ^ 52 := by
  simp [fraction, BitVec.extractLsb'_toNat]

theorem fraction_lt (x : Double) : x.fraction < 2 ^ 52 := by
  rw [fraction_eq]
  exact Nat.mod_lt _ (Nat.two_pow_pos 52)

section Make

variable {negative : Bool} {bits : Nat} (h : bits < 2 ^ 63)
include h

theorem toNat_make : (make negative bits).toNat = (if negative then 2 ^ 63 else 0) + bits := by
  rw [make, BitVec.toNat_ofNat]
  cases negative <;> simp only [if_true, Bool.false_eq_true, if_false] <;> omega

theorem msb_make : (make negative bits).msb = negative := by
  rw [msb_eq, toNat_make h]
  cases negative <;> simp
  omega

theorem exponent_make : (make negative bits).exponent = bits / 2 ^ 52 := by
  rw [exponent_eq, toNat_make h]
  cases negative <;> simp only [if_true, Bool.false_eq_true, if_false] <;> omega

theorem fraction_make : (make negative bits).fraction = bits % 2 ^ 52 := by
  rw [fraction_eq, toNat_make h]
  cases negative <;> simp only [if_true, Bool.false_eq_true, if_false] <;> omega

end Make

/-! ## Sign and magnitude determine a double -/

/-- A larger exponent is a larger magnitude. -/
theorem scaled_lt {x y : Double} (h : x.exponent < y.exponent) : x.scaled < y.scaled := by
  have hx := x.fraction_lt
  have hbound : x.scaled < 2 ^ 52 * 2 ^ x.exponent := by
    unfold scaled
    split_ifs with hzero
    · rw [hzero]
      omega
    · obtain ⟨e, he⟩ := Nat.exists_eq_succ_of_ne_zero hzero
      have hdouble : 2 ^ 52 * 2 ^ (e + 1) = 2 ^ 53 * 2 ^ e := by ring
      rw [he, Nat.succ_sub_one, Nat.succ_eq_add_one, hdouble]
      exact Nat.mul_lt_mul_of_pos_right (by omega) (Nat.two_pow_pos e)
  have hy : y.scaled = (2 ^ 52 + y.fraction) * 2 ^ (y.exponent - 1) := if_neg (by omega)
  calc x.scaled < 2 ^ 52 * 2 ^ x.exponent := hbound
    _ ≤ 2 ^ 52 * 2 ^ (y.exponent - 1) :=
      Nat.mul_le_mul_left _ (Nat.pow_le_pow_right (by decide) (by omega))
    _ ≤ y.scaled := by
      rw [hy]
      exact Nat.mul_le_mul_right _ (Nat.le_add_right _ _)

/-- **Sign and magnitude determine a double.** -/
theorem ext {x y : Double} (hsign : x.msb = y.msb) (h : x.scaled = y.scaled) : x = y := by
  have hexponent : x.exponent = y.exponent := by
    rcases Nat.lt_trichotomy x.exponent y.exponent with hlt | heq | hlt
    · exact absurd h (scaled_lt hlt).ne
    · exact heq
    · exact absurd h (scaled_lt hlt).ne'
  have hfraction : x.fraction = y.fraction := by
    unfold scaled at h
    rw [hexponent] at h
    split_ifs at h with hzero
    · exact h
    · have := Nat.eq_of_mul_eq_mul_right (Nat.two_pow_pos _) h
      omega
  rw [msb_eq, msb_eq, decide_eq_decide] at hsign
  rw [exponent_eq, exponent_eq] at hexponent
  rw [fraction_eq, fraction_eq] at hfraction
  apply BitVec.eq_of_toNat_eq
  have hx := x.isLt
  have hy := y.isLt
  omega

/-! ## Small integers are exact -/

/-- A number up to `2 ^ 53` has a significand of 53 bits. -/
theorem significand_spec {n : Nat} (hpos : n ≠ 0) (hn : n ≤ 2 ^ 53) :
    n.log2 ≤ 53 ∧ 2 ^ 52 ≤ significand n ∧ significand n < 2 ^ 53 ∧
      significand n * 2 ^ n.log2 = n * 2 ^ 52 := by
  have hlow := Nat.log2_self_le hpos
  have hhigh := Nat.lt_log2_self (n := n)
  rcases Nat.lt_or_ge n (2 ^ 53) with hlt | hge
  · have hlog : n.log2 ≤ 52 := Nat.le_of_lt_succ ((Nat.log2_lt hpos).mpr hlt)
    have hsig : significand n = n * 2 ^ (52 - n.log2) := if_pos hlog
    have hsplit : 2 ^ (52 - n.log2) * 2 ^ n.log2 = 2 ^ 52 := by
      rw [← Nat.pow_add, Nat.sub_add_cancel hlog]
    refine ⟨by omega, ?_, ?_, ?_⟩
    · calc 2 ^ 52 = 2 ^ n.log2 * 2 ^ (52 - n.log2) := by rw [Nat.mul_comm, hsplit]
        _ ≤ significand n := by
          rw [hsig]
          exact Nat.mul_le_mul_right _ hlow
    · calc significand n = n * 2 ^ (52 - n.log2) := hsig
        _ < 2 ^ (n.log2 + 1) * 2 ^ (52 - n.log2) :=
          Nat.mul_lt_mul_of_pos_right hhigh (Nat.two_pow_pos _)
        _ = 2 ^ 53 := by
          rw [Nat.pow_succ, Nat.mul_right_comm, Nat.mul_comm (2 ^ n.log2), hsplit]
          rfl
    · rw [hsig, Nat.mul_assoc, hsplit]
  · obtain rfl : n = 2 ^ 53 := le_antisymm hn hge
    decide

theorem bitsOf_lt {n : Nat} (hn : n ≤ 2 ^ 53) : bitsOf n < 2 ^ 63 := by
  unfold bitsOf
  split_ifs with hzero
  · decide
  · obtain ⟨hlog, -, hlt, -⟩ := significand_spec hzero hn
    omega

/-- **A number up to `2 ^ 53` is a double.** -/
theorem scaled_make_bitsOf (negative : Bool) {n : Nat} (hn : n ≤ 2 ^ 53) :
    (make negative (bitsOf n)).exponent ≠ 2047 ∧
      (make negative (bitsOf n)).scaled = n * 2 ^ 1074 := by
  have hbits := bitsOf_lt hn
  unfold scaled
  rw [exponent_make hbits, fraction_make hbits]
  by_cases hzero : n = 0
  · subst hzero
    simp [bitsOf]
  · obtain ⟨hlog, hge, hlt, hvalue⟩ := significand_spec hzero hn
    have hdef : bitsOf n = (1022 + n.log2) * 2 ^ 52 + significand n := if_neg hzero
    have hexponent : bitsOf n / 2 ^ 52 = 1023 + n.log2 := by omega
    have hfraction : 2 ^ 52 + bitsOf n % 2 ^ 52 = significand n := by omega
    rw [hexponent, hfraction, if_neg (by omega)]
    refine ⟨by omega, ?_⟩
    calc significand n * 2 ^ (1023 + n.log2 - 1)
        = significand n * 2 ^ n.log2 * 2 ^ 1022 := by
          rw [Nat.mul_assoc, ← Nat.pow_add]
          congr 2
          omega
      _ = n * 2 ^ 1074 := by
          rw [hvalue, Nat.mul_assoc, ← Nat.pow_add]

theorem natAbs_of_isInt {x : Double} {n : Int} (h : x.IsInt n) :
    x.scaled = n.natAbs * 2 ^ 1074 := by
  have hvalue := congrArg Int.natAbs h.2
  have hscaled : (if x.msb then -(x.scaled : Int) else x.scaled).natAbs = x.scaled := by
    split_ifs <;> simp
  rw [hscaled, Int.natAbs_mul] at hvalue
  rw [hvalue]
  rfl

/-- The sign of an integer that is not `negZero`. -/
theorem msb_of_isInt {x : Double} {n : Int} (h : x.IsInt n) (hx : x ≠ negZero) :
    x.msb = decide (n < 0) := by
  have hpos : (0 : Int) < 2 ^ 1074 := Int.pow_pos (by decide)
  have hvalue := h.2
  cases hm : x.msb with
  | true =>
    rw [hm, if_pos rfl] at hvalue
    refine (decide_eq_true ?_).symm
    by_contra hn
    have hzero : x.scaled = 0 := by
      have := Int.mul_nonneg (not_lt.mp hn) hpos.le
      omega
    exact hx (ext hm hzero)
  | false =>
    rw [hm] at hvalue
    refine (decide_eq_false fun hn => ?_).symm
    have := Int.mul_neg_of_neg_of_pos hn hpos
    simp only [Bool.false_eq_true, if_false] at hvalue
    omega

theorem truncate_of_isInt {x : Double} {n : Int} (h : x.IsInt n) (hx : x ≠ negZero) :
    x.truncate = n := by
  unfold truncate
  rw [natAbs_of_isInt h, Nat.mul_div_cancel _ (Nat.two_pow_pos 1074), msb_of_isInt h hx]
  by_cases hn : n < 0 <;> simp only [hn, decide_true, decide_false, if_true, Bool.false_eq_true,
    if_false] <;> omega

/-- The conversion of an integer in range. -/
theorem toInt64_of_isInt {x : Double} {n : Int} (h : x.IsInt n) (hx : x ≠ negZero)
    (hn : n.natAbs ≤ 2 ^ 53) : x.toInt64 = some (BitVec.ofInt 64 n) := by
  have htruncate := truncate_of_isInt h hx
  unfold toInt64
  rw [htruncate, if_pos ⟨h.1, by omega, by omega⟩]

/-- **An integer goes to the double it is.** -/
theorem isInt_ofInt64 {value : BitVec 64} (h : value.toInt.natAbs ≤ 2 ^ 53) :
    (ofInt64 value).IsInt value.toInt ∧ ofInt64 value ≠ negZero := by
  have hbits := bitsOf_lt h
  obtain ⟨hexponent, hscaled⟩ := scaled_make_bitsOf (decide (value.toInt < 0)) h
  have hmsb : (ofInt64 value).msb = decide (value.toInt < 0) := msb_make hbits
  refine ⟨⟨hexponent, ?_⟩, fun hzero => ?_⟩
  · rw [hmsb, show (ofInt64 value).scaled = _ from hscaled]
    push_cast
    by_cases hn : value.toInt < 0
    · rw [if_pos (decide_eq_true hn), abs_of_neg hn, Int.neg_mul, neg_neg]
    · rw [if_neg (by simpa using hn), abs_of_nonneg (not_lt.mp hn)]
  · have hm : (ofInt64 value).msb = true := by rw [hzero]; decide
    have hs : (ofInt64 value).scaled = 0 := by rw [hzero]; decide
    rw [hmsb, decide_eq_true_eq] at hm
    have hzero' : value.toInt.natAbs = 0 :=
      (Nat.mul_eq_zero.mp (hscaled.symm.trans hs)).resolve_right (Nat.two_pow_pos 1074).ne'
    omega

/-- **The integers up to `2 ^ 53` survive the way to a double and back.** -/
theorem toInt64_ofInt64 {value : BitVec 64} (h : value.toInt.natAbs ≤ 2 ^ 53) :
    (ofInt64 value).toInt64 = some value := by
  obtain ⟨hint, hne⟩ := isInt_ofInt64 h
  rw [toInt64_of_isInt hint hne h, BitVec.ofInt_toInt]

theorem eq_self {x : Double} (h : x.exponent ≠ 2047) : x.eq x = true :=
  decide_eq_true ⟨fun hnan => h hnan.1, fun hnan => h hnan.1, Or.inl rfl⟩

/-- `2 ^ 53 + 3` is halfway between two doubles: `2 ^ 53 + 4`. -/
example : ofInt64 0x20000000000003#64 = 0x4340000000000002#64 := by decide

end Ssms.Kernel.Double
