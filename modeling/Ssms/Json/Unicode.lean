import Ssms.Json.Standard
import Ssms.Lib.Utf16

/-!
# The characters that the JSON parser makes of escapes

`unicodeBytes` is UTF-8. A surrogate pair is put together with a bitwise or where it has to be added
to `0x10000`, so a character whose number minus `0x10000` has bit 16 loses that bit: the characters
of every other plane become those of the plane before.

* `unicodeBytes_val`: `unicodeBytes` is UTF-8.
* `ucharOfPair_eq_iff`: a pair is read right exactly where bit 6 of its first surrogate is clear.
* `jsonParse_literal_iff`: `json_parse` returns the UTF-8 of a string literal exactly where this
  holds of every pair in it.
-/

namespace Ssms.Json

open Ssms.Kernel Ssms.Lib
open Ssms.Lib.Rfc8259 hiding Bytes

/-! ## UTF-8 -/

theorem trailByte_eq (u k : UInt32) : trailByte u k = (u >>> k).toUInt8 &&& 0x3F ||| 0x80 := by
  rw [trailByte, UInt32.toUInt8_or, UInt32.toUInt8_and, UInt8.or_comm]
  rfl

theorem trailByte_zero (u : UInt32) : trailByte u 0 = u.toUInt8 &&& 0x3F ||| 0x80 := by
  rw [trailByte_eq, UInt32.shiftRight_zero]

/-- A first byte with `j` bits of the number, of which `m` is the mask. -/
theorem leadByte_eq {u k : UInt32} {j n : Nat} (l : UInt32) (m : UInt8) (hm : m.toNat = 2 ^ j - 1)
    (hk : k.toNat % 32 = n) (hu : u.toNat < 2 ^ n * 2 ^ j) :
    leadByte l u k = (u >>> k).toUInt8 &&& m ||| l.toUInt8 := by
  have hlt : (u >>> k).toUInt8.toNat < 2 ^ j := by
    rw [UInt32.toNat_toUInt8, UInt32.toNat_shiftRight, hk, Nat.shiftRight_eq_div_pow]
    exact (Nat.mod_le _ _).trans_lt (Nat.div_lt_of_lt_mul hu)
  have hmask : (u >>> k).toUInt8 &&& m = (u >>> k).toUInt8 := by
    rw [← UInt8.toNat_inj, UInt8.toNat_and, hm, Nat.and_two_pow_sub_one_of_lt_two_pow hlt]
  rw [leadByte, UInt32.toUInt8_or, UInt8.or_comm, hmask]

/-- **`unicodeBytes` is UTF-8.** -/
theorem unicodeBytes_val (c : Char) : unicodeBytes c.val = String.utf8EncodeChar c := by
  have hvalid : c.val.toNat < 0x110000 := by
    obtain h | ⟨-, h⟩ := c.valid
    · exact h.trans (by decide)
    · exact h
  rw [String.utf8EncodeChar_eq_utf8EncodeCharFast, String.utf8EncodeCharFast, unicodeBytes]
  simp only [UInt32.le_iff_toNat_le, UInt32.reduceToNat]
  split_ifs with h₁ h₂ h₃
  · rfl
  · rw [leadByte_eq (j := 5) (n := 6) 0xC0 0x1F rfl rfl (by omega), trailByte_zero]
    rfl
  · rw [leadByte_eq (j := 4) (n := 12) 0xE0 0x0F rfl rfl (by omega), trailByte_eq, trailByte_zero]
    rfl
  · rw [leadByte_eq (j := 3) (n := 18) 0xF0 0x07 rfl rfl (by omega), trailByte_eq, trailByte_eq,
      trailByte_zero]
    rfl

/-! ## Surrogates -/

@[simp]
theorem toNat_ucharOfUnit (u : BitVec 16) : (ucharOfUnit u).toNat = u.toNat :=
  UInt32.toNat_ofNat_of_lt' (u.isLt.trans (by decide))

theorem isSurrogate_iff (u : BitVec 16) :
    isSurrogate (ucharOfUnit u) = true ↔ IsHigh u ∨ IsLow u := by
  have hlt := u.isLt
  have hdiv := Nat.and_div_two_pow (a := u.toNat) (b := 0xF800) (n := 11)
  have hmod := Nat.and_mod_two_pow (a := u.toNat) (b := 0xF800) (n := 11)
  have hmask := Nat.and_two_pow_sub_one_eq_mod (u.toNat / 2 ^ 11) 5
  simp only [isSurrogate, decide_eq_true_eq, ← UInt32.toNat_inj, UInt32.toNat_and,
    toNat_ucharOfUnit, UInt32.reduceToNat]
  norm_num at hdiv hmod hmask
  rw [hmask] at hdiv
  unfold IsHigh IsLow
  omega

/-- The number that the parser makes of a pair. -/
theorem toNat_ucharOfPair (u u' : BitVec 16) :
    (ucharOfPair (ucharOfUnit u) (ucharOfUnit u')).toNat =
      (64 ||| u.toNat % 1024) * 1024 + u'.toNat % 1024 := by
  have hmask : ∀ n : Nat, n &&& 0x3FF = n % 1024 := fun n => Nat.and_two_pow_sub_one_eq_mod n 10
  have hlt := Nat.mod_lt u.toNat (by decide : 1024 > 0)
  have hlt' : u'.toNat % 1024 < 2 ^ 10 := Nat.mod_lt _ (by decide)
  have hshift : (u.toNat % 1024) <<< 10 % 2 ^ 32 = (u.toNat % 1024) <<< 10 := by
    rw [Nat.shiftLeft_eq]
    omega
  have hdistrib : 0x10000 ||| (u.toNat % 1024) <<< 10 = (64 ||| u.toNat % 1024) <<< 10 := by
    rw [Nat.shiftLeft_or_distrib]
    rfl
  rw [ucharOfPair, UInt32.toNat_or, UInt32.toNat_or, UInt32.toNat_shiftLeft, UInt32.toNat_and,
    UInt32.toNat_and, toNat_ucharOfUnit, toNat_ucharOfUnit]
  simp only [UInt32.reduceToNat, Nat.reduceMod, hmask]
  rw [hshift, hdistrib, ← Nat.shiftLeft_add_eq_or_of_lt hlt', Nat.shiftLeft_eq]

/-- **A pair is read right exactly where bit 6 of its first surrogate is clear.** -/
theorem ucharOfPair_eq_iff {u u' : BitVec 16} (hu : IsHigh u) (hu' : IsLow u') :
    ucharOfPair (ucharOfUnit u) (ucharOfUnit u') = (charOfPair u u').val ↔
      u.toNat.testBit 6 = false := by
  have hbit : ∀ h < 1024, 64 ||| h = 64 + h ↔ h.testBit 6 = false := by decide +kernel
  have htest : (u.toNat % 1024).testBit 6 = u.toNat.testBit 6 := by
    rw [Nat.testBit_mod_two_pow (j := 10)]
    simp
  have hhigh := hbit (u.toNat % 1024) (Nat.mod_lt _ (by decide))
  rw [← UInt32.toNat_inj, toNat_ucharOfPair, toNat_charOfPair hu hu', ← htest, ← hhigh]
  unfold IsHigh at hu
  unfold IsLow at hu'
  omega

/-! ## Strings -/

/-- Every pair of the string is read right. -/
def PairsRead (s : List Character) : Prop := ∀ u, .unit u ∈ s → IsHigh u → u.toNat.testBit 6 = false

/-- What is made of a pair is a character. -/
theorem exists_char_ucharOfPair (u u' : BitVec 16) :
    ∃ c : Char, ucharOfPair (ucharOfUnit u) (ucharOfUnit u') = c.val := by
  have hlt := Nat.mod_lt u.toNat (by decide : 1024 > 0)
  have hlt' := Nat.mod_lt u'.toNat (by decide : 1024 > 0)
  have hor : 64 ||| u.toNat % 1024 < 2 ^ 10 := Nat.or_lt_two_pow (by decide) hlt
  have hle : 64 ≤ 64 ||| u.toNat % 1024 := Nat.left_le_or
  have hvalid : (ucharOfPair (ucharOfUnit u) (ucharOfUnit u')).isValidChar := by
    refine Or.inr ?_
    rw [toNat_ucharOfPair]
    omega
  exact ⟨⟨_, hvalid⟩, rfl⟩

/-- A code unit that is no surrogate is its character. -/
theorem unicodeBytes_unit {u : BitVec 16} (hu : ¬ IsHigh u) (hu' : ¬ IsLow u) :
    unicodeBytes (ucharOfUnit u) = String.utf8EncodeChar (Char.ofNat u.toNat) := by
  have hvalid : u.toNat.isValidChar := by
    have hlt := u.isLt
    unfold IsHigh at hu
    unfold IsLow at hu'
    unfold Nat.isValidChar
    omega
  have hval : ucharOfUnit u = (Char.ofNat u.toNat).val := by
    rw [← UInt32.toNat_inj, toNat_ucharOfUnit, toNat_val_ofNat hvalid]
  rw [hval, unicodeBytes_val]

theorem pairsRead_byte {c : UInt8} {s : List Character} :
    PairsRead (.byte c :: s) ↔ PairsRead s := by
  simp [PairsRead]

theorem pairsRead_unit {u : BitVec 16} {s : List Character} :
    PairsRead (.unit u :: s) ↔ (IsHigh u → u.toNat.testBit 6 = false) ∧ PairsRead s := by
  simp [PairsRead, or_imp, forall_and]

/-- **The parser makes the UTF-8 of a string exactly where every pair is read right.** -/
theorem stringBytes_iff {s : List Character} {w : Bytes} (hs : utf8Of s = some w) :
    stringBytes s = some w ↔ PairsRead s := by
  fun_induction utf8Of s generalizing w with
  | case1 =>
    cases hs
    simp [stringBytes, PairsRead]
  | case2 c s ih =>
    obtain ⟨w, hw, rfl⟩ := Option.map_eq_some_iff.mp hs
    rw [pairsRead_byte, ← ih hw]
    simp [stringBytes]
  | case3 u hu u' s hu' ih =>
    obtain ⟨w, hw, rfl⟩ := Option.map_eq_some_iff.mp hs
    obtain ⟨c, hc⟩ := exists_char_ucharOfPair u u'
    have hhigh : ¬ IsHigh u' := fun h => Nat.not_lt.mpr hu'.1 h.2
    rw [pairsRead_unit, pairsRead_unit, ← ih hw]
    simp only [hu, hhigh, forall_const, IsEmpty.forall_iff, true_and,
      ← ucharOfPair_eq_iff hu hu', hc]
    rw [stringBytes, if_pos ((isSurrogate_iff u).mpr (Or.inl hu)), Option.map_eq_some_iff]
    constructor
    · rintro ⟨w', hw', heq⟩
      rw [hc, unicodeBytes_val] at heq
      obtain ⟨hchar, rfl⟩ := append_utf8 heq
      exact ⟨congrArg Char.val hchar, hw'⟩
    · rintro ⟨hval, hw'⟩
      exact ⟨w, hw', by rw [hc, hval, unicodeBytes_val]⟩
  | case4 | case5 | case6 => cases hs
  | case7 u s hu hu' ih =>
    obtain ⟨w, hw, rfl⟩ := Option.map_eq_some_iff.mp hs
    have hsurrogate : isSurrogate (ucharOfUnit u) = false := by
      rw [Bool.eq_false_iff, Ne, isSurrogate_iff]
      exact not_or.mpr ⟨hu, hu'⟩
    rw [pairsRead_unit, ← ih hw, stringBytes.eq_def]
    simp [hu, hsurrogate, unicodeBytes_unit hu hu']

/-- **`json_parse` returns the UTF-8 of a string literal exactly where every pair in it is read
right.** -/
theorem jsonParse_literal_iff {arith : Arithmetic} {i : Bytes} {s : List Character} {w : Bytes}
    (hi : Characters i s []) (hlen : i.length < 2 ^ 28 - 1) (hs : utf8Of s = some w) :
    jsonParse arith (quotationMark :: i) = .string w ↔ PairsRead s := by
  have htext : Text (quotationMark :: i) (.string s) :=
    ⟨_, _, Ws.none _, .string rfl hi, Ws.none _⟩
  rw [← stringBytes_iff hs, jsonParse_text arith htext (by rw [List.length_cons]; omega), parsed]
  cases stringBytes s <;> simp

/-- `"\ud840\udc00"` is not read as the first character of plane 2. -/
theorem jsonParse_literal_plane :
    jsonParse noArithmetic (quotationMark ::
      [0x5C, 0x75, 0x64, 0x38, 0x34, 0x30, 0x5C, 0x75, 0x64, 0x63, 0x30, 0x30, 0x22]) ≠
        .string [0xF0, 0xA0, 0x80, 0x80] := by
  have hi : Characters
      [0x5C, 0x75, 0x64, 0x38, 0x34, 0x30, 0x5C, 0x75, 0x64, 0x63, 0x30, 0x30, 0x22]
      [.unit 0xD840, .unit 0xDC00] [] :=
    .unit (p := 0xD) (q := 8) (r := 4) (t := 0) rfl rfl rfl rfl
      (.unit (p := 0xD) (q := 0xC) (r := 0) (t := 0) rfl rfl rfl rfl .close)
  intro h
  have hread := (jsonParse_literal_iff hi (by simp) rfl).mp h 0xD840 List.mem_cons_self (by decide)
  exact absurd hread (by decide)

end Ssms.Json
