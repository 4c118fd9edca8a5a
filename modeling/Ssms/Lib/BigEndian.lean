import Mathlib.Data.List.Basic
import Mathlib.Tactic.Ring

/-!
# Big-endian byte strings

`ofBytes` reads a byte string as a number, most significant byte first, and `toBytes w` writes the
`w` low bytes of a number. They are inverse to each other on strings of length `w` and on numbers
below `256 ^ w` (`ofBytes_toBytes`, `toBytes_ofBytes`), so a fixed-width field of a wire format
round-trips in both directions. A machine word travels as `toBytes w x.toNat`
(`ofNat_ofBytes_toBytes`).
-/

namespace Ssms.Lib.BigEndian

/-- The number a byte string denotes. -/
def ofBytes : List UInt8 → Nat
  | [] => 0
  | x :: l => x.toNat * 256 ^ l.length + ofBytes l

/-- The `w` low bytes of `n`. -/
def toBytes : Nat → Nat → List UInt8
  | 0, _ => []
  | w + 1, n => UInt8.ofNat (n / 256 ^ w) :: toBytes w n

@[simp] theorem toBytes_length (w n : Nat) : (toBytes w n).length = w := by
  induction w with
  | zero => rfl
  | succ w ih => simp [toBytes, ih]

theorem ofBytes_lt (l : List UInt8) : ofBytes l < 256 ^ l.length := by
  induction l with
  | nil => simp [ofBytes]
  | cons x l ih =>
    have hx : x.toNat < 256 := UInt8.toNat_lt x
    calc ofBytes (x :: l) = x.toNat * 256 ^ l.length + ofBytes l := rfl
      _ < x.toNat * 256 ^ l.length + 256 ^ l.length := by omega
      _ = (x.toNat + 1) * 256 ^ l.length := by ring
      _ ≤ 256 * 256 ^ l.length := Nat.mul_le_mul_right _ hx
      _ = 256 ^ (x :: l).length := by rw [List.length_cons, pow_succ, mul_comm]

/-- Writing then reading keeps the low `w` bytes. -/
theorem ofBytes_toBytes (w n : Nat) : ofBytes (toBytes w n) = n % 256 ^ w := by
  induction w with
  | zero => simp [toBytes, ofBytes, Nat.mod_one]
  | succ w ih =>
    have hx : (UInt8.ofNat (n / 256 ^ w)).toNat = n / 256 ^ w % 256 := by simp
    rw [toBytes, ofBytes, toBytes_length, ih, hx, pow_succ, Nat.mod_mul]
    ring

/-- Two byte strings of one length that denote one number are equal. -/
theorem ofBytes_inj : ∀ {l l' : List UInt8}, l.length = l'.length → ofBytes l = ofBytes l' → l = l'
  | [], [], _, _ => rfl
  | x :: l, y :: l', hlen, h => by
    have hl : l.length = l'.length := by simpa using hlen
    have h1 := ofBytes_lt l
    have h2 := ofBytes_lt l'
    rw [ofBytes, ofBytes, hl] at h
    rw [hl] at h1
    have hpos : 0 < 256 ^ l'.length := Nat.pos_of_ne_zero (by simp)
    have hq : x.toNat = y.toNat := by
      have hdiv : ∀ a b, b < 256 ^ l'.length → (a * 256 ^ l'.length + b) / 256 ^ l'.length = a :=
        fun a b hb => by
          rw [Nat.add_comm, Nat.add_mul_div_right _ _ hpos, Nat.div_eq_of_lt hb, Nat.zero_add]
      rw [← hdiv x.toNat _ h1, h, hdiv y.toNat _ h2]
    rw [hq] at h
    rw [UInt8.toNat_inj.mp hq, ofBytes_inj hl (by omega)]

/-- Reading then writing gives the string back. -/
theorem toBytes_ofBytes {l : List UInt8} {w : Nat} (h : l.length = w) :
    toBytes w (ofBytes l) = l := by
  subst h
  refine ofBytes_inj (toBytes_length _ _) ?_
  rw [ofBytes_toBytes, Nat.mod_eq_of_lt (ofBytes_lt l)]

/-- A word written on `w` bytes is read back. -/
theorem ofNat_ofBytes_toBytes {n w : Nat} (hn : n = 8 * w) (x : BitVec n) :
    BitVec.ofNat n (ofBytes (toBytes w x.toNat)) = x := by
  have hx : x.toNat < 256 ^ w := by
    calc x.toNat < 2 ^ n := x.isLt
      _ = 256 ^ w := by rw [hn, pow_mul]; rfl
  rw [ofBytes_toBytes, Nat.mod_eq_of_lt hx, BitVec.ofNat_toNat, BitVec.setWidth_eq]

/-- A string of `w` bytes is the bytes of the word it denotes. -/
theorem toBytes_toNat_ofNat {l : List UInt8} {n w : Nat} (hn : n = 8 * w) (h : l.length = w) :
    toBytes w (BitVec.ofNat n (ofBytes l)).toNat = l := by
  have hl : ofBytes l < 2 ^ n := by
    have := ofBytes_lt l
    rwa [h, show (256 : Nat) = 2 ^ 8 by norm_num, ← pow_mul, ← hn] at this
  rw [BitVec.toNat_ofNat, Nat.mod_eq_of_lt hl, toBytes_ofBytes h]

/-- A word wide enough for a byte string tells it from every other one of its length. -/
theorem ofNat_ofBytes_inj {l : List UInt8} (l' : List UInt8) {n : Nat} (hn : 8 * l.length ≤ n)
    (hlen : l.length = l'.length) :
    BitVec.ofNat n (ofBytes l) = BitVec.ofNat n (ofBytes l') ↔ l = l' := by
  refine ⟨fun h => ofBytes_inj hlen ?_, fun h => by rw [h]⟩
  have hpow : 256 ^ l.length ≤ 2 ^ n := by
    rw [show (256 : Nat) = 2 ^ 8 by norm_num, ← pow_mul]
    exact Nat.pow_le_pow_right two_pos hn
  have hl := ofBytes_lt l
  have hl' := ofBytes_lt l'
  rw [← hlen] at hl'
  have h' := congrArg BitVec.toNat h
  rwa [BitVec.toNat_ofNat, BitVec.toNat_ofNat, Nat.mod_eq_of_lt (by omega),
    Nat.mod_eq_of_lt (by omega)] at h'

end Ssms.Lib.BigEndian
