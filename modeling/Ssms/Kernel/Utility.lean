import Ssms.Kernel.Error
import Ssms.Lib.Decimal

/-!
# Text of numbers (`srs_int2str`, `snprintf`)

`snprintf` writes at most `size - 1` characters of the text of its format, and the callers read the
buffer back as a C string. `%PRId64` is the numeral of the integer. `%.2f` is the exact decimal
expansion of the double, rounded half to even to two fraction digits; a finite double is
`scaled / 2 ^ 1074`.

* `srsInt2str_eq`: an `int64_t` fits the buffer of `srs_int2str`, whole.
-/

namespace Ssms.Kernel

open Ssms.Lib.Decimal

/-- `snprintf(tmp, size, ..)` of a text, and `tmp` read back. -/
def snprintf (size : Nat) (text : Bytes) : Bytes := text.take (size - 1)

/-- `srs_int2str(value)`. -/
def srsInt2str (value : BitVec 64) : Bytes := snprintf 22 (numeral value.toInt)

theorem srsInt2str_eq (value : BitVec 64) : srsInt2str value = numeral value.toInt := by
  have hlt := value.toInt_lt
  have hle := value.le_toInt
  have hdigits : (digits value.toInt.natAbs).length ≤ 19 :=
    length_digits_le (by decide) (by omega)
  have hsign : (if value.toInt < 0 then [minus] else []).length ≤ 1 := by
    split_ifs <;> decide
  refine List.take_of_length_le ?_
  rw [numeral, List.length_append]
  omega

/-! ## Doubles -/

/-- A double, by its bits. -/
abbrev Double := BitVec 64

namespace Double

def exponent (x : Double) : Nat := (x.extractLsb' 52 11).toNat

def fraction (x : Double) : Nat := (x.extractLsb' 0 52).toNat

/-- The absolute value of a finite double is `scaled / 2 ^ 1074`. -/
def scaled (x : Double) : Nat :=
  if x.exponent = 0 then x.fraction else (2 ^ 52 + x.fraction) * 2 ^ (x.exponent - 1)

/-- `a / b` rounded to an integer, half to even. -/
def roundHalfEven (a b : Nat) : Nat :=
  if 2 * (a % b) < b ∨ 2 * (a % b) = b ∧ a / b % 2 = 0 then a / b else a / b + 1

/-- The absolute value of a finite double in hundredths. -/
def hundredths (x : Double) : Nat := roundHalfEven (100 * x.scaled) (2 ^ 1074)

/-- `%.2f` of a double. -/
def fixed2 (x : Double) : Bytes :=
  (if x.msb then [minus] else []) ++
    if x.exponent = 2047 then
      if x.fraction = 0 then [0x69, 0x6E, 0x66] -- "inf"
      else [0x6E, 0x61, 0x6E] -- "nan"
    else
      digits (x.hundredths / 100) ++
        [0x2E, UInt8.ofNat (0x30 + x.hundredths / 10 % 10), UInt8.ofNat (0x30 + x.hundredths % 10)]

/-- `-2.125` is halfway: `-2.12`. -/
example : fixed2 0xC001000000000000#64 = [0x2D, 0x32, 0x2E, 0x31, 0x32] := by decide +kernel

end Double

end Ssms.Kernel
