import Mathlib.Algebra.Order.Group.Nat
import Mathlib.Data.List.Induction
import Mathlib.Tactic.Ring

/-!
# Decimal numerals as byte strings

`digits n` is the decimal numeral of `n` without leading zeros, in ASCII, and `value` reads a string
of digits back (`value_digits`). The digits are those of `Nat.toDigits`. `numeral` and `intValue`
are the same with a sign (`intValue_numeral`).
-/

namespace Ssms.Lib.Decimal

/-- An ASCII digit. -/
def IsDigit (c : UInt8) : Prop := 0x30 ≤ c ∧ c ≤ 0x39

instance : DecidablePred IsDigit := fun c => by unfold IsDigit; infer_instance

/-- The decimal numeral of a number. -/
def digits (n : Nat) : List UInt8 := (Nat.toDigits 10 n).map fun c => UInt8.ofNat c.toNat

/-- The number a string of digits denotes. -/
def value (l : List UInt8) : Nat := l.foldl (fun n c => 10 * n + (c.toNat - 0x30)) 0

def minus : UInt8 := 0x2D

/-- The decimal numeral of an integer. -/
def numeral (n : Int) : List UInt8 := (if n < 0 then [minus] else []) ++ digits n.natAbs

/-- The integer a string of digits denotes, after a minus sign or not. -/
def intValue (l : List UInt8) : Option Int :=
  let d := if l.head? = some minus then l.tail else l
  if d.all fun c => decide (IsDigit c) then
    some (if l.head? = some minus then -(value d : Int) else value d)
  else none

theorem value_concat (l : List UInt8) (c : UInt8) :
    value (l ++ [c]) = 10 * value l + (c.toNat - 0x30) := by
  rw [value, List.foldl_append]
  rfl

/-- The digits `0` to `9`. -/
theorem digitByte : ∀ d < 10, IsDigit (UInt8.ofNat d.digitChar.toNat) ∧
    (UInt8.ofNat d.digitChar.toNat).toNat - 0x30 = d ∧
    (UInt8.ofNat d.digitChar.toNat = 0x30 → d = 0) := by decide

theorem digits_of_lt {n : Nat} (h : n < 10) : digits n = [UInt8.ofNat n.digitChar.toNat] := by
  rw [digits, Nat.toDigits_of_lt_base h]
  rfl

theorem digits_of_le {n : Nat} (h : 10 ≤ n) :
    digits n = digits (n / 10) ++ [UInt8.ofNat (n % 10).digitChar.toNat] := by
  rw [digits, Nat.toDigits_of_base_le (by decide) h, List.map_append]
  rfl

theorem digits_ne_nil (n : Nat) : digits n ≠ [] := by
  rcases lt_or_ge n 10 with h | h
  · rw [digits_of_lt h]
    exact List.cons_ne_nil _ _
  · rw [digits_of_le h]
    exact List.append_ne_nil_of_right_ne_nil _ (List.cons_ne_nil _ _)

/-- A numeral consists of digits. -/
theorem isDigit_of_mem_digits (n : Nat) : ∀ c ∈ digits n, IsDigit c := by
  induction n using Nat.strong_induction_on with
  | _ n ih =>
    intro c hc
    rcases lt_or_ge n 10 with h | h
    · rw [digits_of_lt h, List.mem_singleton] at hc
      exact hc ▸ (digitByte n h).1
    · rw [digits_of_le h] at hc
      rcases List.mem_append.mp hc with hc | hc
      · exact ih (n / 10) (by omega) c hc
      · exact List.mem_singleton.mp hc ▸ (digitByte (n % 10) (by omega)).1

/-- **Reading a numeral gives the number back.** -/
theorem value_digits (n : Nat) : value (digits n) = n := by
  induction n using Nat.strong_induction_on with
  | _ n ih =>
    rcases lt_or_ge n 10 with h | h
    · rw [digits_of_lt h]
      show 10 * 0 + ((UInt8.ofNat n.digitChar.toNat).toNat - 0x30) = n
      rw [(digitByte n h).2.1, Nat.mul_zero, Nat.zero_add]
    · rw [digits_of_le h, value_concat, ih (n / 10) (by omega), (digitByte (n % 10) (by omega)).2.1]
      omega

/-- Only the numeral of zero begins with a zero. -/
theorem digits_head_zero (n : Nat) {l : List UInt8} (h : digits n = 0x30 :: l) : l = [] := by
  induction n using Nat.strong_induction_on generalizing l with
  | _ n ih =>
    rcases lt_or_ge n 10 with hn | hn
    · rw [digits_of_lt hn] at h
      exact (List.cons_eq_cons.mp h).2.symm
    · rw [digits_of_le hn] at h
      exfalso
      cases hd : digits (n / 10) with
      | nil => exact digits_ne_nil _ hd
      | cons c l' =>
        rw [hd, List.cons_append] at h
        obtain ⟨rfl, -⟩ := List.cons_eq_cons.mp h
        have hnil := ih (n / 10) (by omega) hd
        rw [hnil] at hd
        have hvalue := congrArg value hd
        rw [value_digits] at hvalue
        have hzero : value [0x30] = 0 := rfl
        omega

/-- A number below `10 ^ k` has at most `k` digits. -/
theorem length_digits_le {k n : Nat} (hk : 0 < k) (h : n < 10 ^ k) : (digits n).length ≤ k := by
  induction k generalizing n with
  | zero => exact absurd hk (lt_irrefl 0)
  | succ k ih =>
    rcases lt_or_ge n 10 with hn | hn
    · rw [digits_of_lt hn]
      exact Nat.succ_le_succ (Nat.zero_le k)
    · have hdiv : n / 10 < 10 ^ k := Nat.div_lt_of_lt_mul (by rwa [← Nat.pow_succ'])
      have hpos : 0 < k := by
        rcases Nat.eq_zero_or_pos k with rfl | hpos
        · exact absurd hdiv (by omega)
        · exact hpos
      rw [digits_of_le hn, List.length_append]
      exact Nat.succ_le_succ (ih hpos hdiv)

/-- A string of digits denotes its front, moved to the left, and its rest. -/
theorem value_append (l l' : List UInt8) :
    value (l ++ l') = value l * 10 ^ l'.length + value l' := by
  induction l' using List.reverseRecOn with
  | nil => simp [value]
  | append_singleton l' c ih =>
    rw [← List.append_assoc, value_concat, ih, value_concat, List.length_append,
      List.length_singleton, pow_succ]
    ring

/-- `k` digits denote a number below `10 ^ k`. -/
theorem value_lt {l : List UInt8} (h : ∀ c ∈ l, IsDigit c) : value l < 10 ^ l.length := by
  induction l using List.reverseRecOn with
  | nil => exact one_pos
  | append_singleton l c ih =>
    obtain ⟨hl, hc⟩ := List.forall_mem_append.mp h
    have hlt := ih hl
    have hdigit : c.toNat ≤ 0x39 := (List.forall_mem_singleton.mp hc).2
    rw [value_concat, List.length_append, List.length_singleton, pow_succ]
    omega

/-- **The numbers of at most `k` digits are those below `10 ^ k`.** -/
theorem length_digits_le_iff {k n : Nat} (hk : 0 < k) : (digits n).length ≤ k ↔ n < 10 ^ k := by
  refine ⟨fun h => ?_, length_digits_le hk⟩
  calc n = value (digits n) := (value_digits n).symm
    _ < 10 ^ (digits n).length := value_lt (isDigit_of_mem_digits n)
    _ ≤ 10 ^ k := Nat.pow_le_pow_right (by decide) h

/-! ## Integers -/

theorem digits_head_ne_minus (n : Nat) : (digits n).head? ≠ some minus := fun h =>
  absurd (isDigit_of_mem_digits n minus (List.mem_of_head? h)) (by decide)

/-- **The numeral of an integer denotes it.** -/
theorem intValue_numeral (n : Int) : intValue (numeral n) = some n := by
  have hdigits : ((digits n.natAbs).all fun c => decide (IsDigit c)) = true :=
    List.all_eq_true.mpr fun c hc => decide_eq_true (isDigit_of_mem_digits _ c hc)
  unfold intValue numeral
  by_cases hn : n < 0
  · have hhead : ([minus] ++ digits n.natAbs).head? = some minus := rfl
    have htail : ([minus] ++ digits n.natAbs).tail = digits n.natAbs := rfl
    simp only [if_pos hn, if_pos hhead, htail, if_pos hdigits,
      value_digits]
    exact congrArg some (by omega)
  · simp only [if_neg hn, List.nil_append, if_neg (digits_head_ne_minus n.natAbs),
      if_pos hdigits, value_digits]
    exact congrArg some (by omega)

end Ssms.Lib.Decimal
