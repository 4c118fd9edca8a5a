import Ssms.Json.Names
import Ssms.Kernel.Fixed

/-!
# The literals of `dumps` (`json_serialize_string`, `SrsJsonNumber`)

A string is escaped byte by byte, with the seven two-character escapes that `json_serialize_string`
knows and no `\u` escape. A number is printed with `%.2f` into a buffer of 22 bytes, of which 21 are
for characters.

* `stringLiteral_iff`: what is written for a string is a string literal for it, exactly if every
  control byte of the string has a two-character escape.
* `numberText_iff`: what is written for a finite double is a number within half a hundredth of it,
  exactly if one character at most, or precisely three, are cut off.
-/

namespace Ssms.Json

open Ssms.Kernel Ssms.Lib.Decimal
open Ssms.Lib.Rfc8259 hiding Bytes

/-! ## Strings -/

/-- `l` is a string literal, and its characters are the bytes `v`. -/
def IsStringLiteral (l v : Bytes) : Prop :=
  ∃ i s, l = quotationMark :: i ∧ Characters i s [] ∧ bytesOf s = some v

/-- A byte that a two-character escape stands for is printable. -/
theorem isPrintable_of_escaped {e c : UInt8} (h : escaped e = some c) : IsPrintable c := by
  unfold escaped at h
  split_ifs at h <;> cases h <;> decide

/-- Where a string is read, a byte that was written is printable, and the rest is a string. -/
theorem characters_of_serializeByte {c : UInt8} {i o : Bytes} {s : List Character}
    (h : Characters (jsonSerializeByte c ++ i) s o) : IsPrintable c ∧ ∃ s', Characters i s' o := by
  rcases serializeByte_cases c with ⟨hb, hq, he⟩ | ⟨e, hb, he⟩
  · rw [hb, List.singleton_append] at h
    cases h with
    | close => exact absurd rfl hq
    | unescaped hc h => exact ⟨Or.inl hc.1, _, h⟩
    | escaped => exact absurd rfl he
    | unit => exact absurd rfl he
  · rw [hb] at h
    cases h with
    | unescaped hc h => exact absurd rfl hc.2.2
    | escaped _ h => exact ⟨isPrintable_of_escaped he, _, h⟩
    | unit => cases he

theorem printable_of_characters {v o o' : Bytes} {s : List Character}
    (h : Characters (v.flatMap jsonSerializeByte ++ o) s o') : ∀ c ∈ v, IsPrintable c := by
  induction v generalizing s with
  | nil => simp
  | cons c v ih =>
    rw [List.flatMap_cons, List.append_assoc] at h
    obtain ⟨hc, s', h'⟩ := characters_of_serializeByte h
    exact List.forall_mem_cons.mpr ⟨hc, ih h'⟩

/-- **What is written for a string is a literal for it exactly if its control bytes are `\b`, `\t`,
`\n`, `\f` and `\r`.** -/
theorem stringLiteral_iff (v : Bytes) :
    IsStringLiteral (jsonSerializeString v) v ↔ ∀ c ∈ v, IsPrintable c := by
  have htext : jsonSerializeString v =
      quotationMark :: (v.flatMap jsonSerializeByte ++ [quotationMark]) := rfl
  constructor
  · rintro ⟨i, s, hl, hs, -⟩
    rw [htext] at hl
    obtain rfl := (List.cons_eq_cons.mp hl).2
    exact printable_of_characters hs
  · intro hv
    exact ⟨_, _, htext, characters_serialize hv [], bytesOf_map v⟩

/-- The byte `01` is written as it is, between quotation marks: no string literal of any string. -/
theorem controlByte_written :
    jsonSerializeString [0x01] = [0x22, 0x01, 0x22] ∧
    ∀ v, ¬ IsStringLiteral [0x22, 0x01, 0x22] v := by
  refine ⟨rfl, fun v ⟨i, s, hl, hs, _⟩ => ?_⟩
  obtain rfl := (List.cons_eq_cons.mp hl).2
  cases hs with
  | unescaped hc _ => exact absurd hc.1 (by decide)

/-! ## Numbers -/

/-- `l` is a number within half a hundredth of `x`. -/
def IsNumberText (l : Bytes) (x : Double) : Prop :=
  ∃ q, NumberValue l q ∧ |q - x.toRat| ≤ 1 / 200

/-- The number of integer digits for which one character is cut off. -/
def room (x : Double) : Nat := if x.msb then 18 else 19

/-- One character at most is cut off, or precisely three. -/
def FitsBuffer (x : Double) : Prop :=
  |x.toRat| < 10 ^ room x ∨ 10 ^ (room x + 1) ≤ |x.toRat| ∧ |x.toRat| < 10 ^ (room x + 2)

theorem take_signed (negative : Bool) (l : Bytes) :
    (signed negative l).take 21 = signed negative (l.take (if negative then 20 else 21)) := by
  cases negative <;> rfl

/-- What is left of the text of a finite double. -/
theorem dumps_number {x : Double} (h : x.exponent ≠ 2047) :
    (SrsJsonAny.number x).dumps = signed x.msb
      ((digits (x.hundredths / 100)).take (room x + 2) ++
        (0x2E :: x.cents).take (room x + 2 - (digits (x.hundredths / 100)).length)) := by
  have hroom : (if x.msb then 20 else 21) = room x + 2 := by
    unfold room
    split_ifs <;> rfl
  rw [← List.take_append, ← hroom, ← take_signed, ← Double.fixed2_eq h]
  rfl

theorem le_room (x : Double) : 18 ≤ room x := by
  unfold room
  split_ifs <;> decide

/-- A number with the sign of `x` is as near to it as its magnitude is. -/
theorem isNumberText_of_value {x : Double} {l : Bytes} {q : ℚ}
    (h : NumberValue l (signOf x.msb * q)) (herror : |q - x.magnitude| ≤ 1 / 200) :
    IsNumberText l x :=
  ⟨_, h, by rwa [x.abs_sub_toRat]⟩

/-- The number of integer digits of the text, by the size of the double. -/
theorem length_digits_le_iff_abs (x : Double) {k : Nat} (hk : 16 ≤ k) :
    (digits (x.hundredths / 100)).length ≤ k ↔ |x.toRat| < 10 ^ k := by
  rw [x.length_digits_hundredths_iff hk, x.abs_toRat]

/-- With more than 17 digits the double is the integer that is printed. -/
theorem digits_of_long {x : Double} (h : 17 < (digits (x.hundredths / 100)).length) :
    x.magnitude = (x.hundredths / 100 : Nat) ∧ x.cents = [0x30, 0x30] := by
  have hlarge : (10 ^ 16 : ℚ) ≤ x.magnitude := by
    by_contra hlt
    have := (x.length_digits_hundredths_iff (le_refl 16)).mpr (not_le.mp hlt)
    omega
  obtain ⟨n, hn, hdigits, hcents⟩ := Double.digits_of_large hlarge
  exact ⟨by rw [hn, hdigits], hcents⟩

section Lengths

variable {x : Double} (hfinite : x.exponent ≠ 2047)
include hfinite

/-- The whole text. -/
theorem numberText_whole (h : (digits (x.hundredths / 100)).length < room x) :
    IsNumberText (SrsJsonAny.number x).dumps x := by
  have hlen : (0x2E :: x.cents).length = 3 := rfl
  rw [dumps_number hfinite, List.take_of_length_le (by omega), List.take_of_length_le (by omega)]
  refine isNumberText_of_value (numberValue_frac x.msb (isInt_digits _) (List.cons_ne_nil _ _)
    x.isDigit_cents) ?_
  rw [value_digits, x.value_cents]
  have hsplit : ((x.hundredths / 100 : Nat) : ℚ) + ((x.hundredths % 100 : Nat) : ℚ) / 10 ^ 2 =
      x.hundredths / 100 := by
    have hnat : ((100 * (x.hundredths / 100) + x.hundredths % 100 : Nat) : ℚ) = x.hundredths :=
      congrArg _ (Nat.div_add_mod x.hundredths 100)
    push_cast at hnat ⊢
    linarith
  show |((x.hundredths / 100 : Nat) : ℚ) + ((x.hundredths % 100 : Nat) : ℚ) / 10 ^ 2 - _| ≤ _
  rw [hsplit]
  exact x.abs_hundredths_sub_le

/-- One character is cut off, a zero. -/
theorem numberText_cut_one (h : (digits (x.hundredths / 100)).length = room x) :
    IsNumberText (SrsJsonAny.number x).dumps x := by
  have hroom := le_room x
  obtain ⟨hmagnitude, hcents⟩ := digits_of_long (x := x) (by omega)
  rw [dumps_number hfinite, List.take_of_length_le (by omega), h, Nat.add_sub_cancel_left, hcents]
  refine isNumberText_of_value (numberValue_frac x.msb (isInt_digits _) (d := [0x30])
    (List.cons_ne_nil _ _) (List.forall_mem_singleton.mpr (by decide))) ?_
  rw [value_digits, hmagnitude]
  simp [value]

/-- Two characters are cut off, and the text ends with the point. -/
theorem numberText_cut_two (h : (digits (x.hundredths / 100)).length = room x + 1) :
    ¬ IsNumberText (SrsJsonAny.number x).dumps x := by
  rintro ⟨q, hq, -⟩
  rw [dumps_number hfinite, List.take_of_length_le (by omega), h,
    show room x + 2 - (room x + 1) = 1 by omega, signed, ← List.append_assoc] at hq
  exact absurd hq.last_digit (by decide)

/-- Three characters are cut off, the point and the zeros after it. -/
theorem numberText_cut_three (h : (digits (x.hundredths / 100)).length = room x + 2) :
    IsNumberText (SrsJsonAny.number x).dumps x := by
  have hroom := le_room x
  obtain ⟨hmagnitude, -⟩ := digits_of_long (x := x) (by omega)
  rw [dumps_number hfinite, List.take_of_length_le (by omega), h, Nat.sub_self, List.take_zero,
    List.append_nil]
  refine isNumberText_of_value (numberValue_int x.msb (isInt_digits _)) ?_
  rw [value_digits, hmagnitude]
  simp

/-- Digits before the point are cut off, and what is left is less than a tenth. -/
theorem numberText_cut_digits (h : room x + 2 < (digits (x.hundredths / 100)).length) :
    ¬ IsNumberText (SrsJsonAny.number x).dumps x := by
  have hroom := le_room x
  obtain ⟨hmagnitude, -⟩ := digits_of_long (x := x) (by omega)
  set n := x.hundredths / 100 with hn
  set v := value ((digits n).take (room x + 2)) with hv
  have htenth : 10 * v ≤ n := by
    have hsplit := value_append ((digits n).take (room x + 2)) ((digits n).drop (room x + 2))
    rw [List.take_append_drop, value_digits, List.length_drop] at hsplit
    obtain ⟨j, hj⟩ := Nat.exists_eq_add_of_lt h
    rw [show (digits n).length - (room x + 2) = j + 1 by omega, pow_succ, ← hv] at hsplit
    have hone : 1 ≤ 10 ^ j := Nat.one_le_pow _ _ (by decide)
    calc 10 * v ≤ 10 * v * 10 ^ j := Nat.le_mul_of_pos_right _ hone
      _ = v * (10 ^ j * 10) := by ring
      _ ≤ n := by omega
  have hpos : 0 < n := by
    by_contra hzero
    have := (length_digits_le_iff (n := n) (k := 1) (by decide)).mpr (by omega)
    omega
  rintro ⟨q, hq, herror⟩
  have htext := numberValue_int x.msb ((isInt_digits n).take (k := room x + 2) (by omega))
  rw [dumps_number hfinite, Nat.sub_eq_zero_of_le h.le, List.take_zero, List.append_nil] at hq
  obtain rfl := htext.unique hq
  rw [x.abs_sub_toRat, hmagnitude, ← hv, abs_le] at herror
  have hle : (n : ℚ) ≤ v + 1 / 200 := by linarith [herror.1]
  have htenthQ : (10 * v : ℚ) ≤ n := by exact_mod_cast htenth
  have hposQ : (1 : ℚ) ≤ n := by exact_mod_cast hpos
  linarith

end Lengths

/-- **What is written for a finite double is a number within half a hundredth of it, exactly if one
character at most is cut off, or precisely three.** -/
theorem numberText_iff (x : Double) (hfinite : x.exponent ≠ 2047) :
    IsNumberText (SrsJsonAny.number x).dumps x ↔ FitsBuffer x := by
  have hroom := le_room x
  have h0 := length_digits_le_iff_abs x (k := room x) (by omega)
  have h1 : room x + 1 < (digits (x.hundredths / 100)).length ↔ 10 ^ (room x + 1) ≤ |x.toRat| := by
    rw [← not_le, length_digits_le_iff_abs x (by omega), not_lt]
  have h2 := length_digits_le_iff_abs x (k := room x + 2) (by omega)
  unfold FitsBuffer
  rw [← h0, ← h1, ← h2]
  rcases lt_trichotomy (digits (x.hundredths / 100)).length (room x + 1) with hlt | heq | hgt
  · refine iff_of_true ?_ (Or.inl (by omega))
    rcases Nat.lt_succ_iff_lt_or_eq.mp hlt with hlt | heq
    · exact numberText_whole hfinite hlt
    · exact numberText_cut_one hfinite heq
  · exact iff_of_false (numberText_cut_two hfinite heq) (by omega)
  · by_cases h3 : (digits (x.hundredths / 100)).length = room x + 2
    · exact iff_of_true (numberText_cut_three hfinite h3) (Or.inr ⟨by omega, by omega⟩)
    · exact iff_of_false (numberText_cut_digits hfinite (by omega)) (by omega)

/-- `1.00`, for the double `1`. -/
theorem numberText_one : IsNumberText (SrsJsonAny.number 0x3FF0000000000000#64).dumps
    0x3FF0000000000000#64 := by
  refine (numberText_iff 0x3FF0000000000000#64 (by decide)).mpr (Or.inl ?_)
  rw [Double.abs_toRat, Double.magnitude_of_scaled_eq (n := 1) (by decide +kernel)]
  exact one_lt_pow₀ (by norm_num) (by decide)

/-- The double `10 ^ 19` is written as its twenty digits and the point. -/
theorem number_written_without_fraction :
    (SrsJsonAny.number 0x43E158E460913D00#64).dumps =
      [0x31, 0x30, 0x30, 0x30, 0x30, 0x30, 0x30, 0x30, 0x30, 0x30, 0x30, 0x30, 0x30, 0x30, 0x30,
        0x30, 0x30, 0x30, 0x30, 0x30, 0x2E] ∧
    ∀ x, ¬ IsNumberText [0x31, 0x30, 0x30, 0x30, 0x30, 0x30, 0x30, 0x30, 0x30, 0x30, 0x30, 0x30,
        0x30, 0x30, 0x30, 0x30, 0x30, 0x30, 0x30, 0x30, 0x2E] x := by
  refine ⟨by decide +kernel, fun x ⟨q, hq, _⟩ => ?_⟩
  exact absurd (NumberValue.last_digit (l := 0x31 :: List.replicate 19 0x30) hq) (by decide)

end Ssms.Json
