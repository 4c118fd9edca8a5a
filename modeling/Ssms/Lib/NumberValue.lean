import Ssms.Lib.Rfc8259
import Mathlib.Algebra.Order.Field.Rat
import Mathlib.Data.Int.Order.Units
import Mathlib.Tactic.Linarith
import Mathlib.Tactic.Positivity

/-!
# The value of a number (RFC 8259, section 6)

`NumberValue l q`: the byte string `l` is a number of the grammar and denotes the rational `q`. A
number is split into its sign, integer, fraction and exponent part in one way (`Parts.unique`), so
it denotes one rational (`NumberValue.unique`).
-/

namespace Ssms.Lib.Rfc8259

open Decimal

/-- The parts of a number. -/
structure Parts (l : Bytes) where
  sign : Bytes
  int : Bytes
  frac : Bytes
  exp : Bytes
  hsign : sign = [] ∨ sign = [minus]
  hint : IsInt int
  hfrac : IsFrac frac
  hexp : IsExp exp
  heq : l = sign ++ (int ++ (frac ++ exp))

namespace Parts

variable {l : Bytes}

/-- The exponent of an exponent part, or zero. -/
def exponent (p : Parts l) : Int :=
  let s := p.exp.tail
  if s.head? = some minus then -(value s.tail : Int)
  else if s.head? = some 0x2B then value s.tail
  else value s

/-- The rational that a number denotes. -/
def toRat (p : Parts l) : ℚ :=
  (if p.sign = [minus] then -1 else 1) *
    (value p.int + value p.frac.tail / 10 ^ p.frac.tail.length) * 10 ^ p.exponent

/-- What follows an integer part does not begin with a digit. -/
theorem stops_frac {f e : Bytes} (hf : IsFrac f) (he : IsExp e) : Stops IsDigit (f ++ e) := by
  intro c hc
  rcases hf with rfl | ⟨d, -, -, rfl⟩
  · rcases he with rfl | ⟨x, s, d, hx, -, -, -, rfl⟩
    · simp at hc
    · obtain rfl := Option.some.inj hc
      rcases hx with rfl | rfl <;> decide
  · obtain rfl := Option.some.inj hc
    decide

theorem stops_exp {e : Bytes} (he : IsExp e) : Stops IsDigit e := stops_frac (Or.inl rfl) he

/-- A fraction part begins with a point, and an exponent part does not. -/
theorem frac_unique {f f' e e' : Bytes} (hf : IsFrac f) (hf' : IsFrac f') (he : IsExp e)
    (he' : IsExp e') (h : f ++ e = f' ++ e') : f' = f ∧ e' = e := by
  have hpoint : ∀ {d e e' : Bytes}, IsExp e → e ≠ 0x2E :: d ++ e' := by
    rintro d _ e' (rfl | ⟨x, s, t, hx, -, -, -, rfl⟩) heq
    · simp at heq
    · obtain ⟨rfl, -⟩ := List.cons_eq_cons.mp heq
      rcases hx with hx | hx <;> exact absurd hx (by decide)
  rcases hf with rfl | ⟨d, -, hd, rfl⟩ <;> rcases hf' with rfl | ⟨d', -, hd', rfl⟩
  · exact ⟨rfl, h.symm⟩
  · exact absurd h (hpoint he)
  · exact absurd h.symm (hpoint he')
  · obtain ⟨rfl, rfl⟩ := span_unique hd hd' (stops_exp he) (stops_exp he')
      (List.cons_eq_cons.mp h).2
    exact ⟨rfl, rfl⟩

/-- **A number has one sign, integer, fraction and exponent part.** -/
theorem unique (p p' : Parts l) : p' = p := by
  obtain ⟨m, n, f, e, hm, hn, hf, he, h⟩ := p
  obtain ⟨m', n', f', e', hm', hn', hf', he', h'⟩ := p'
  have hhead : ∀ {n r r' : Bytes}, IsInt n → n ++ r ≠ minus :: r' := by
    intro n r r' hn heq
    obtain ⟨c, t, rfl, hc⟩ := hn.head
    obtain ⟨rfl, -⟩ := List.cons_eq_cons.mp heq
    exact absurd hc (by decide)
  have hsign : m' = m ∧ n ++ (f ++ e) = n' ++ (f' ++ e') := by
    rw [h] at h'
    rcases hm with rfl | rfl <;> rcases hm' with rfl | rfl
    · exact ⟨rfl, h'⟩
    · exact absurd (show n ++ (f ++ e) = minus :: _ from h') (hhead hn)
    · exact absurd (show n' ++ (f' ++ e') = minus :: _ from h'.symm) (hhead hn')
    · exact ⟨rfl, (List.cons_eq_cons.mp h').2⟩
  obtain ⟨rfl, hrest⟩ := hsign
  obtain ⟨rfl, hafter⟩ := span_unique hn.2.1 hn'.2.1 (stops_frac hf he) (stops_frac hf' he') hrest
  obtain ⟨rfl, rfl⟩ := frac_unique hf hf' he he' hafter.symm
  rfl

end Parts

/-- The byte string is a number and denotes the rational. -/
def NumberValue (l : Bytes) (q : ℚ) : Prop := ∃ p : Parts l, p.toRat = q

/-- **A number denotes one rational.** -/
theorem NumberValue.unique {l : Bytes} {q q' : ℚ} (h : NumberValue l q) (h' : NumberValue l q') :
    q' = q := by
  obtain ⟨p, rfl⟩ := h
  obtain ⟨p', rfl⟩ := h'
  rw [p.unique p']

/-- **A number ends with a digit.** -/
theorem NumberValue.last_digit {l : Bytes} {c : UInt8} {q : ℚ} (h : NumberValue (l ++ [c]) q) :
    IsDigit c := by
  have hlast : ∀ {w d : Bytes}, l ++ [c] = w ++ d → d ≠ [] → (∀ c ∈ d, IsDigit c) → IsDigit c := by
    intro w d heq hne hd
    rcases List.eq_nil_or_concat d with rfl | ⟨d', x, rfl⟩
    · exact absurd rfl hne
    · rw [List.concat_eq_append, ← List.append_assoc] at heq
      obtain ⟨-, hx⟩ := List.append_inj' heq rfl
      obtain rfl := List.singleton_inj.mp hx
      exact hd c (by simp)
  obtain ⟨⟨m, n, f, e, -, hn, hf, he, heq⟩, -⟩ := h
  rcases he with rfl | ⟨x, s, d, -, -, hne, hd, rfl⟩
  · rcases hf with rfl | ⟨d, hne, hd, rfl⟩
    · exact hlast (w := m) (by simpa using heq) hn.1 hn.2.1
    · exact hlast (w := m ++ (n ++ [0x2E])) (by simpa using heq) hne hd
  · exact hlast (w := m ++ (n ++ (f ++ (x :: s)))) (by simpa using heq) hne hd

/-- A numeral, after a minus sign or not. -/
def signed (negative : Bool) (l : Bytes) : Bytes := (if negative then [minus] else []) ++ l

/-- The sign of a rational. -/
def signOf (negative : Bool) : ℚ := if negative then -1 else 1

variable {n : Bytes} (negative : Bool) (hn : IsInt n)
include hn

/-- An integer part alone. -/
theorem numberValue_int : NumberValue (signed negative n) (signOf negative * value n) := by
  refine ⟨⟨if negative then [minus] else [], n, [], [], ?_, hn, Or.inl rfl, Or.inl rfl, ?_⟩, ?_⟩
  · cases negative <;> simp
  · simp [signed]
  · cases negative <;> simp [Parts.toRat, Parts.exponent, signOf, value]

/-- An integer part and a fraction part. -/
theorem numberValue_frac {d : Bytes} (hne : d ≠ []) (hd : ∀ c ∈ d, IsDigit c) :
    NumberValue (signed negative (n ++ 0x2E :: d))
      (signOf negative * (value n + value d / 10 ^ d.length)) := by
  refine ⟨⟨if negative then [minus] else [], n, 0x2E :: d, [], ?_, hn, Or.inr ⟨d, hne, hd, rfl⟩,
    Or.inl rfl, ?_⟩, ?_⟩
  · cases negative <;> simp
  · simp [signed]
  · cases negative <;> simp [Parts.toRat, Parts.exponent, signOf, value]

end Ssms.Lib.Rfc8259
