import Mathlib.Algebra.Order.Ring.Int
import Mathlib.Tactic.Linarith
import Mathlib.Tactic.Positivity

/-!
# Integers of a fixed width

`wrap w n` is the integer of `w + 1` bits, in two's complement, that is congruent to `n`. It is `n`
itself in the range of such integers (`wrap_eq_self`), and always in that range (`wrap_range`).
A loop that counts with an `int` up to an unsigned number makes `passes` of it: as many as the
number says below `2 ^ 31` and fewer from there on (`passes_eq`, `passes_lt`).
-/

namespace Ssms.Lib

/-- An integer cut to `w + 1` bits. -/
def wrap (w : Nat) (n : Int) : Int := n.bmod (2 ^ (w + 1))

/-- An `int64_t`. -/
abbrev int64 : Int → Int := wrap 63

/-- An `int`. -/
abbrev int32 : Int → Int := wrap 31

theorem wrap_eq_self {w : Nat} {n : Int} (hlow : -2 ^ w ≤ n) (hhigh : n < 2 ^ w) :
    wrap w n = n := by
  refine Int.bmod_eq_of_le_mul_two ?_ ?_ <;> push_cast <;> rw [pow_succ] <;> linarith

theorem wrap_range (w : Nat) (n : Int) : -2 ^ w ≤ wrap w n ∧ wrap w n < 2 ^ w := by
  have hpos : 0 < 2 ^ (w + 1) := Nat.two_pow_pos _
  have hlow := Int.le_bmod (x := n) hpos
  have hhigh := Int.bmod_lt (x := n) hpos
  have hnat : 2 ^ (w + 1) = 2 * 2 ^ w := pow_succ' 2 w
  have hcast : ((2 ^ w : Nat) : Int) = 2 ^ w := by push_cast; rfl
  unfold wrap
  rw [hnat] at hlow hhigh ⊢
  push_cast at hlow hhigh
  omega

/-- What is cut off is a multiple of the modulus. -/
theorem wrap_eq_sub (w : Nat) (n : Int) : ∃ k : Int, wrap w n = n - k * 2 ^ (w + 1) := by
  refine ⟨n.bdiv (2 ^ (w + 1)), ?_⟩
  rw [wrap, Int.bmod_eq_self_sub_bdiv_mul]
  push_cast
  rfl

/-- The upper half of the numbers of `w + 1` bits wraps around to the negative integers. -/
theorem wrap_nonneg_iff {w : Nat} {n : Int} (hlow : 0 ≤ n) (hhigh : n < 2 ^ (w + 1)) :
    0 ≤ wrap w n ↔ n < 2 ^ w := by
  refine ⟨fun h => ?_, fun h => ?_⟩
  · obtain ⟨k, hk⟩ := wrap_eq_sub w n
    have hlt := (wrap_range w n).2
    by_cases hzero : k ≤ 0
    · have : k * 2 ^ (w + 1) ≤ 0 := mul_nonpos_of_nonpos_of_nonneg hzero (by positivity)
      omega
    · have : 1 * 2 ^ (w + 1) ≤ k * (2 : Int) ^ (w + 1) :=
        mul_le_mul_of_nonneg_right (by omega) (by positivity)
      omega
  · rw [wrap_eq_self (by omega) h]
    exact hlow

/-- The passes of `for (int i = 0; i < (int) n; i++)`. -/
def passes (n : Nat) : Nat := (int32 n).toNat

theorem passes_eq {n : Nat} (h : n < 2 ^ 31) : passes n = n := by
  rw [passes, int32, wrap_eq_self (by omega) (by omega), Int.toNat_natCast]

theorem passes_lt {n : Nat} (h : 2 ^ 31 ≤ n) : passes n < n := by
  have hlt := (wrap_range 31 n).2
  unfold passes int32
  omega

theorem passes_lt_two_pow (n : Nat) : passes n < 2 ^ 31 := by
  have hlt := (wrap_range 31 n).2
  unfold passes int32
  omega

theorem take_passes_eq_iff {α : Type} {l : List α} :
    l.take (passes l.length) = l ↔ l.length < 2 ^ 31 := by
  rw [List.take_eq_self_iff]
  refine ⟨fun h => ?_, fun h => (passes_eq h).ge⟩
  by_contra hl
  exact absurd (passes_lt (not_lt.mp hl)) (not_lt.mpr h)

/-- A loop that maps a list maps the whole of it where its length is an `int`. -/
theorem map_take_passes_eq_iff {α β : Type} {f g : α → β} {l : List α} :
    (l.take (passes l.length)).map f = l.map g ↔ l.length < 2 ^ 31 ∧ ∀ x ∈ l, f x = g x := by
  constructor
  · intro h
    have hlength := congrArg List.length h
    rw [List.length_map, List.length_map] at hlength
    have htake : l.take (passes l.length) = l :=
      (List.take_prefix _ _).eq_of_length hlength
    rw [htake, List.map_inj_left] at h
    exact ⟨take_passes_eq_iff.mp htake, h⟩
  · rintro ⟨hl, h⟩
    rw [take_passes_eq_iff.mpr hl, List.map_inj_left]
    exact h

/-- A loop of `n` passes over a list that makes something of each entry. -/
theorem eq_map_take {α β : Type} {f : Nat → List α → List β} {g : α → β} (hzero : ∀ l, f 0 l = [])
    (hnil : ∀ n, f (n + 1) [] = []) (hcons : ∀ n a l, f (n + 1) (a :: l) = g a :: f n l) (n : Nat)
    (l : List α) : f n l = (l.take n).map g := by
  induction l generalizing n with
  | nil =>
    cases n with
    | zero => exact hzero []
    | succ n => exact hnil n
  | cons a l ih =>
    cases n with
    | zero => exact hzero _
    | succ n => rw [hcons, ih, List.take_succ_cons, List.map_cons]

/-- What does not fit into an `int` is negative. -/
theorem int32_neg_iff {n : Nat} (h : n < 2 ^ 32) : int32 n < 0 ↔ 2 ^ 31 ≤ n := by
  have hiff := wrap_nonneg_iff (w := 31) (n := n) (by omega) (by omega)
  unfold int32
  omega

theorem passes_eq_zero {n : Nat} (h : 2 ^ 31 ≤ n) (hlt : n < 2 ^ 32) : passes n = 0 := by
  have := (int32_neg_iff hlt).mpr h
  unfold passes
  omega

end Ssms.Lib
