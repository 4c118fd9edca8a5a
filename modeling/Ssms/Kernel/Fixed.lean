import Ssms.Kernel.Double
import Ssms.Lib.NumberValue
import Mathlib.Tactic.FieldSimp

/-!
# A double with two fraction digits (`%.2f`)

`toRat` is the rational a finite double stands for. `fixed2` prints its magnitude in `hundredths`,
rounded, so it is off by half a hundredth at most (`abs_hundredths_sub_le`). From `2 ^ 53` on a
double is an integer, and `fixed2` prints that (`digits_of_large`); how many digits it has is a
matter of its size (`length_digits_hundredths_iff`).
-/

namespace Ssms.Kernel.Double

open Ssms.Lib.Decimal Ssms.Lib.Rfc8259

/-- The absolute value of a finite double. -/
def magnitude (x : Double) : ℚ := x.scaled / 2 ^ 1074

/-- The rational that a finite double stands for. -/
def toRat (x : Double) : ℚ := signOf x.msb * x.magnitude

theorem magnitude_nonneg (x : Double) : 0 ≤ x.magnitude := by
  unfold magnitude
  positivity

/-- A value with the sign of `x` is as far from it as the magnitudes are. -/
theorem abs_sub_toRat (x : Double) (q : ℚ) : |signOf x.msb * q - x.toRat| = |q - x.magnitude| := by
  rw [toRat, ← mul_sub, abs_mul]
  have hsign : |signOf x.msb| = 1 := by
    cases x.msb <;> simp [signOf]
  rw [hsign, one_mul]

theorem abs_toRat (x : Double) : |x.toRat| = x.magnitude := by
  have h := x.abs_sub_toRat 0
  rwa [mul_zero, zero_sub, zero_sub, abs_neg, abs_neg, abs_of_nonneg x.magnitude_nonneg] at h

/-! ## Rounding -/

/-- Rounding is off by one half at most. -/
theorem abs_roundHalfEven_sub_le (a : Nat) {b : Nat} (hb : 0 < b) :
    |(roundHalfEven a b : ℚ) - a / b| ≤ 1 / 2 := by
  have herror : 2 * (b * roundHalfEven a b) ≤ 2 * a + b ∧
      2 * a ≤ 2 * (b * roundHalfEven a b) + b := by
    have hdiv := Nat.div_add_mod a b
    have hmod := Nat.mod_lt a hb
    unfold roundHalfEven
    split_ifs with h
    · omega
    · rw [Nat.mul_add, Nat.mul_one]
      omega
  generalize roundHalfEven a b = r at herror ⊢
  have hlow : (2 * (b * r) : ℚ) ≤ 2 * a + b := by exact_mod_cast herror.1
  have hhigh : (2 * a : ℚ) ≤ 2 * (b * r) + b := by exact_mod_cast herror.2
  have hpos : (0 : ℚ) < 2 * b := by exact_mod_cast Nat.mul_pos two_pos hb
  have heq : (r : ℚ) - a / b = (2 * (b * r) - 2 * a) / (2 * b) := by
    field_simp
  rw [heq, abs_le, le_div_iff₀ hpos, div_le_iff₀ hpos]
  constructor <;> linarith

/-- There is nothing to round in a multiple. -/
theorem roundHalfEven_mul {b : Nat} (hb : 0 < b) (n : Nat) : roundHalfEven (b * n) b = n := by
  have hmod : b * n % b = 0 := Nat.mul_mod_right b n
  rw [roundHalfEven, hmod, if_pos (Or.inl (by omega)), Nat.mul_div_cancel_left n hb]

/-- **What is printed is off by half a hundredth at most.** -/
theorem abs_hundredths_sub_le (x : Double) :
    |(x.hundredths / 100 : ℚ) - x.magnitude| ≤ 1 / 200 := by
  have h := abs_roundHalfEven_sub_le (100 * x.scaled) (Nat.two_pow_pos 1074)
  have heq : (x.hundredths / 100 : ℚ) - x.magnitude =
      ((x.hundredths : ℚ) - (100 * x.scaled : Nat) / (2 ^ 1074 : Nat)) / 100 := by
    rw [magnitude, Nat.cast_mul, Nat.cast_pow, Nat.cast_ofNat, Nat.cast_ofNat]
    ring
  rw [heq, abs_div, abs_of_pos (by norm_num : (0 : ℚ) < 100), div_le_iff₀ (by norm_num)]
  exact h.trans (by norm_num)

/-! ## Large doubles -/

/-- A double of `2 ^ 53` or more is an integer. -/
theorem exists_scaled_eq {x : Double} (h : 2 ^ 53 * 2 ^ 1074 ≤ x.scaled) :
    ∃ n, x.scaled = 2 ^ 1074 * n := by
  have hf := x.fraction_lt
  unfold scaled at h ⊢
  split_ifs at h ⊢ with hzero
  · exfalso
    have hone : 1 ≤ 2 ^ 1074 := Nat.one_le_two_pow
    have := Nat.le_trans (Nat.mul_le_mul_left (2 ^ 53) hone) h
    omega
  · have hlt : 2 ^ 1074 < 2 ^ (x.exponent - 1) * 1 := by
      refine Nat.lt_of_mul_lt_mul_left (a := 2 ^ 53) (lt_of_le_of_lt h ?_)
      rw [Nat.mul_one]
      exact Nat.mul_lt_mul_of_pos_right (by omega) (Nat.two_pow_pos _)
    rw [Nat.mul_one] at hlt
    obtain ⟨k, hk⟩ := Nat.exists_eq_add_of_lt ((Nat.pow_lt_pow_iff_right (by decide)).mp hlt)
    exact ⟨(2 ^ 52 + x.fraction) * 2 ^ (k + 1), by rw [hk, Nat.add_assoc, pow_add]; ring⟩

/-- Its hundredths are exact. -/
theorem hundredths_of_scaled_eq {x : Double} {n : Nat} (h : x.scaled = 2 ^ 1074 * n) :
    x.hundredths = 100 * n := by
  rw [hundredths, h, show 100 * (2 ^ 1074 * n) = 2 ^ 1074 * (100 * n) by ring]
  exact roundHalfEven_mul (Nat.two_pow_pos 1074) _

theorem magnitude_of_scaled_eq {x : Double} {n : Nat} (h : x.scaled = 2 ^ 1074 * n) :
    x.magnitude = n := by
  rw [magnitude, h, Nat.cast_mul, Nat.cast_pow, Nat.cast_two]
  exact mul_div_cancel_left₀ _ (by positivity)

/-- **How many digits are printed before the point.** -/
theorem length_digits_hundredths_iff (x : Double) {k : Nat} (hk : 16 ≤ k) :
    (digits (x.hundredths / 100)).length ≤ k ↔ x.magnitude < 10 ^ k := by
  rw [length_digits_le_iff (by omega)]
  by_cases h : 2 ^ 53 * 2 ^ 1074 ≤ x.scaled
  · obtain ⟨n, hn⟩ := exists_scaled_eq h
    rw [hundredths_of_scaled_eq hn, magnitude_of_scaled_eq hn,
      Nat.mul_div_cancel_left n (by decide)]
    exact_mod_cast Iff.rfl
  · -- below `2 ^ 53` both sides hold
    have hsmall : x.magnitude < 2 ^ 53 := by
      rw [magnitude, div_lt_iff₀ (by positivity)]
      exact_mod_cast not_le.mp h
    have hprint : (x.hundredths : ℚ) < 100 * (2 ^ 53 + 1) := by
      have := (abs_le.mp x.abs_hundredths_sub_le).2
      linarith
    have hnat : x.hundredths < 100 * (2 ^ 53 + 1) := by exact_mod_cast hprint
    have hpow : 10 ^ 16 ≤ 10 ^ k := Nat.pow_le_pow_right (by decide) hk
    have hpowQ : (10 ^ 16 : ℚ) ≤ 10 ^ k := by exact_mod_cast hpow
    refine iff_of_true ?_ ?_
    · have hdiv : x.hundredths / 100 < 2 ^ 53 + 1 := Nat.div_lt_of_lt_mul hnat
      omega
    · calc x.magnitude < 2 ^ 53 := hsmall
        _ ≤ 10 ^ 16 := by norm_num
        _ ≤ 10 ^ k := hpowQ

/-! ## The text -/

/-- A digit of `fixed2`. -/
theorem fixed2_digit : ∀ d < 10, IsDigit (UInt8.ofNat (0x30 + d)) ∧
    (UInt8.ofNat (0x30 + d)).toNat - 0x30 = d := by decide

/-- The two fraction digits of `fixed2`. -/
def cents (x : Double) : Bytes :=
  [UInt8.ofNat (0x30 + x.hundredths / 10 % 10), UInt8.ofNat (0x30 + x.hundredths % 10)]

theorem fixed2_eq {x : Double} (h : x.exponent ≠ 2047) :
    x.fixed2 = signed x.msb (digits (x.hundredths / 100) ++ 0x2E :: x.cents) := by
  rw [fixed2, if_neg h]
  rfl

theorem isDigit_cents (x : Double) : ∀ c ∈ x.cents, IsDigit c := by
  have h1 := (fixed2_digit (x.hundredths / 10 % 10) (Nat.mod_lt _ (by decide))).1
  have h2 := (fixed2_digit (x.hundredths % 10) (Nat.mod_lt _ (by decide))).1
  exact List.forall_mem_cons.mpr ⟨h1, List.forall_mem_singleton.mpr h2⟩

theorem value_cents (x : Double) : value x.cents = x.hundredths % 100 := by
  show 10 * (10 * 0 + _) + _ = _
  rw [(fixed2_digit (x.hundredths / 10 % 10) (Nat.mod_lt _ (by decide))).2,
    (fixed2_digit (x.hundredths % 10) (Nat.mod_lt _ (by decide))).2]
  omega

/-- **The text of an integer.** From `2 ^ 53` on, both fraction digits are zero. -/
theorem digits_of_large {x : Double} (h : 10 ^ 16 ≤ x.magnitude) :
    ∃ n : Nat, x.magnitude = n ∧ x.hundredths / 100 = n ∧ x.cents = [0x30, 0x30] := by
  have hscaled : 2 ^ 53 * 2 ^ 1074 ≤ x.scaled := by
    rw [magnitude, le_div_iff₀ (by positivity)] at h
    have hcast : ((2 ^ 53 * 2 ^ 1074 : Nat) : ℚ) ≤ x.scaled := by
      refine le_trans ?_ h
      rw [Nat.cast_mul, Nat.cast_pow, Nat.cast_pow, Nat.cast_ofNat]
      exact mul_le_mul_of_nonneg_right (by norm_num) (by positivity)
    exact_mod_cast hcast
  obtain ⟨n, hn⟩ := exists_scaled_eq hscaled
  have hhundredths := hundredths_of_scaled_eq hn
  refine ⟨n, magnitude_of_scaled_eq hn, by omega, ?_⟩
  rw [cents, show x.hundredths / 10 % 10 = 0 by omega, show x.hundredths % 10 = 0 by omega]
  rfl

end Ssms.Kernel.Double
