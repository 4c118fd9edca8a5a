import Mathlib.Data.List.Basic

/-!
# The bits of a byte string

`byteBits x` are the bits of a byte, most significant first, and `bits l` those of a byte string,
byte after byte. Bit `p` of the string is bit `7 - p % 8` of the byte at `p / 8` (`getElem?_bits`).
-/

namespace Ssms.Lib.Bits

/-- The bits of a byte, most significant first. -/
def byteBits (x : UInt8) : List Bool := (List.range 8).map fun i => x.toNat.testBit (7 - i)

/-- The bits of a byte string. -/
def bits (l : List UInt8) : List Bool := l.flatMap byteBits

@[simp] theorem length_byteBits (x : UInt8) : (byteBits x).length = 8 := rfl

theorem getElem?_byteBits (x : UInt8) {r : Nat} (hr : r < 8) :
    (byteBits x)[r]? = some (x.toNat.testBit (7 - r)) := by
  rw [byteBits, List.getElem?_map, List.getElem?_range hr]
  rfl

/-- **Where a bit of a byte string is.** -/
theorem getElem?_bits {l : List UInt8} {q : Nat} {x : UInt8} (hx : l[q]? = some x) {r : Nat}
    (hr : r < 8) : (bits l)[8 * q + r]? = some (x.toNat.testBit (7 - r)) := by
  induction l generalizing q with
  | nil => simp at hx
  | cons y l ih =>
    have hcons : bits (y :: l) = byteBits y ++ bits l := rfl
    cases q with
    | zero =>
      obtain rfl := Option.some.inj hx
      rw [hcons, List.getElem?_append_left (by rw [length_byteBits]; omega), Nat.mul_zero,
        Nat.zero_add]
      exact getElem?_byteBits y hr
    | succ q =>
      rw [hcons, List.getElem?_append_right (by rw [length_byteBits]; omega), length_byteBits,
        show 8 * (q + 1) + r - 8 = 8 * q + r by omega]
      exact ih hx

end Ssms.Lib.Bits
