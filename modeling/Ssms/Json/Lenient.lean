import Ssms.Json.JsonParse
import Ssms.Lib.Rfc8259

/-!
# The JSON that the parser accepts

`Accepts arith text v`: what `json_parse_ex` accepts, and the value it gives, as a grammar. It is
that of RFC 8259 with these differences:

* a comma may follow the last entry of an array or object;
* in a string, every byte but zero stands for itself, and a `\` before every byte that no escape
  begins with; a surrogate has to be followed by another `\u` escape, whatever its value;
* after a minus sign, the integer part of a number may be missing where no fraction follows;
* a byte order mark may come first, and a zero byte after the value ends the text.

The value of a string is its bytes. A number without fraction and exponent is 64 bits wide and
wraps; any other is computed by `arith`.
-/

namespace Ssms.Json.Lenient

open Ssms.Kernel Ssms.Lib.Decimal
open Ssms.Lib.Rfc8259 hiding Bytes Text Phrase Derives Value

/-! ## Strings -/

/-- The digits of a `\u` escape, and its value. -/
inductive Hex4 : Bytes → UInt32 → Bytes → Prop
  | digits {a b c d o} (ha : hexValue a ≠ 0xFF) (hb : hexValue b ≠ 0xFF) (hc : hexValue c ≠ 0xFF)
      (hd : hexValue d ≠ 0xFF) :
      Hex4 (a :: b :: c :: d :: o) (ucharOf (hexValue a) (hexValue b) (hexValue c) (hexValue d)) o

/-- The byte that stands for itself. -/
def IsPlain (c : UInt8) : Prop := c ≠ 0 ∧ c ≠ quotationMark ∧ c ≠ escape

instance : DecidablePred IsPlain := fun c => by unfold IsPlain; infer_instance

/-- What an escape of one byte stands for. -/
def escapeOf (e : UInt8) : UInt8 :=
  if e = 0x62 then 0x08
  else if e = 0x66 then 0x0C
  else if e = 0x6E then 0x0A
  else if e = 0x72 then 0x0D
  else if e = 0x74 then 0x09
  else e

/-- The bytes of a string up to its closing quotation mark. -/
inductive Chars : Bytes → Bytes → Bytes → Prop
  | close {o} : Chars (quotationMark :: o) [] o
  | plain {i o w c} (hc : IsPlain c) (h : Chars i w o) : Chars (c :: i) (c :: w) o
  | escaped {i o w e} (hzero : e ≠ 0) (hu : e ≠ 0x75) (h : Chars i w o) :
      Chars (escape :: e :: i) (escapeOf e :: w) o
  | unit {i i' o w u} (hu : Hex4 i u i') (hs : isSurrogate u = false) (h : Chars i' w o) :
      Chars (escape :: 0x75 :: i) (unicodeBytes u ++ w) o
  | pair {i i₁ i₂ o w u u'} (hu : Hex4 i u (escape :: 0x75 :: i₁)) (hs : isSurrogate u = true)
      (hu' : Hex4 i₁ u' i₂) (h : Chars i₂ w o) :
      Chars (escape :: 0x75 :: i) (unicodeBytes (ucharOfPair u u') ++ w) o

/-! ## Numbers -/

/-- A number of a node. -/
inductive Number where
  | integer (integer : BitVec 64)
  | double (dbl : Double)

namespace Number

/-- The number as a value. -/
def value : Number → JsonValue
  | .integer k => .integer k
  | .double x => .double x

/-- The number in a node. -/
def u : Number → JsonU
  | .integer k => .integer k
  | .double x => .double x

/-- The number as a double. -/
def dbl : Number → Double
  | .integer k => toDouble k
  | .double x => x

/-- The number after a minus sign. -/
def negative : Number → Number
  | .integer k => .integer (-k)
  | .double x => .double (negate x)

end Number

/-- What a string of digits adds up to. -/
def digitsValue (d : Bytes) : BitVec 64 := d.foldl (fun n b => n * 10 + digitOf b) 0

/-- Digits without a leading zero, which may be missing. -/
def IsWhole (n : Bytes) : Prop := (∀ c ∈ n, IsDigit c) ∧ (n.head? = some 0x30 → n = [0x30])

/-- A number with a fraction of `j` digits. -/
def withFraction (arith : Arithmetic) (x : Double) (digits : BitVec 64) (j : Nat) : Double :=
  arith.add x (arith.div (toDouble digits) (arith.pow ten (toDouble (BitVec.ofNat 64 j))))

/-- A number with an exponent. -/
def withExponent (arith : Arithmetic) (x : Double) (e : BitVec 64) : Double :=
  arith.mul x (arith.pow ten (toDouble e))

/-- A number without sign and exponent. -/
inductive Mantissa (arith : Arithmetic) : Bytes → Number → Prop
  | integer {n} (hn : IsWhole n) : Mantissa arith n (.integer (digitsValue n))
  | fraction {n d} (hn : IsWhole n) (hne : n ≠ []) (hd : ∀ c ∈ d, IsDigit c) (hdne : d ≠ []) :
      Mantissa arith (n ++ 0x2E :: d)
        (.double (withFraction arith (toDouble (digitsValue n)) (digitsValue d) d.length))

/-- An exponent part. -/
inductive Exponent : Bytes → BitVec 64 → Prop
  | mk {e s d} (he : e = 0x65 ∨ e = 0x45) (hs : s = [] ∨ s = [minus] ∨ s = [0x2B])
      (hd : ∀ c ∈ d, IsDigit c) (hdne : d ≠ []) :
      Exponent (e :: (s ++ d)) (if s = [minus] then -digitsValue d else digitsValue d)

/-- A number without sign. -/
inductive Magnitude (arith : Arithmetic) : Bytes → Number → Prop
  | plain {l n} (h : Mantissa arith l n) : Magnitude arith l n
  | scaled {l n x e} (h : Mantissa arith l n) (hx : Exponent x e) :
      Magnitude arith (l ++ x) (.double (withExponent arith n.dbl e))

/-- The spelling of a number, and its value. -/
inductive IsNumber (arith : Arithmetic) : Bytes → Number → Prop
  | positive {c l n} (hc : IsDigit c) (h : Magnitude arith (c :: l) n) : IsNumber arith (c :: l) n
  | negative {l n} (h : Magnitude arith l n) : IsNumber arith (minus :: l) n.negative

/-! ## Values -/

/-- What can be read: a value, or the rest of an array or object, its closing bracket included. The
rest begins with a comma where one is needed before the next entry. -/
inductive Phrase where
  | value (v : JsonValue)
  | elements (comma : Bool) (vs : List JsonValue)
  | members (comma : Bool) (ms : List (Bytes × JsonValue))

/-- **Reading `φ` from the first input leaves the second.** -/
inductive Reads (arith : Arithmetic) : Bytes → Phrase → Bytes → Prop
  | null {i o} (hi : i = nullLiteral ++ o) : Reads arith i (.value .null) o
  | true {i o} (hi : i = trueLiteral ++ o) : Reads arith i (.value (.boolean 1)) o
  | false {i o} (hi : i = falseLiteral ++ o) : Reads arith i (.value (.boolean 0)) o
  | number {i o l n} (hi : i = l ++ o) (hl : IsNumber arith l n) (hend : NumberEnd o) :
      Reads arith i (.value n.value) o
  | string {i i' o w} (hi : i = quotationMark :: i') (hw : Chars i' w o) :
      Reads arith i (.value (.string w)) o
  | array {i i' o vs} (hi : i = beginArray :: i') (hvs : Reads arith i' (.elements .false vs) o) :
      Reads arith i (.value (.array vs)) o
  | object {i i' o ms} (hi : i = beginObject :: i') (hms : Reads arith i' (.members .false ms) o) :
      Reads arith i (.value (.object ms)) o
  | endElements {i o comma} (hw : Ws i (endArray :: o)) : Reads arith i (.elements comma []) o
  | elementComma {i i' o vs} (hw : Ws i (valueSeparator :: i'))
      (hvs : Reads arith i' (.elements .false vs) o) : Reads arith i (.elements .true vs) o
  | element {i i₁ i₂ o v vs} (hw : Ws i i₁) (hv : Reads arith i₁ (.value v) i₂)
      (hvs : Reads arith i₂ (.elements .true vs) o) : Reads arith i (.elements .false (v :: vs)) o
  | endMembers {i o comma} (hw : Ws i (endObject :: o)) : Reads arith i (.members comma []) o
  | memberComma {i i' o ms} (hw : Ws i (valueSeparator :: i'))
      (hms : Reads arith i' (.members .false ms) o) : Reads arith i (.members .true ms) o
  | member {i i₁ i₂ i₃ i₄ i₅ o name v ms} (hw : Ws i (quotationMark :: i₁))
      (hname : Chars i₁ name i₂) (hcolon : Ws i₂ (nameSeparator :: i₃)) (hw' : Ws i₃ i₄)
      (hv : Reads arith i₄ (.value v) i₅) (hms : Reads arith i₅ (.members .true ms) o) :
      Reads arith i (.members .false ((name, v) :: ms)) o

/-- **The text is accepted, with this value.** -/
def Accepts (arith : Arithmetic) (text : Bytes) (v : JsonValue) : Prop :=
  ∃ i o o', Ws (skipBom text) i ∧ Reads arith i (.value v) o ∧ Ws o o' ∧
    (o' = [] ∨ o'.head? = some 0)

/-! ## Lengths -/

theorem Hex4.length_eq {i o : Bytes} {u : UInt32} (h : Hex4 i u o) :
    i.length = o.length + 4 := by
  cases h
  rfl

theorem length_unicodeBytes_le (u : UInt32) : (unicodeBytes u).length ≤ 4 := by
  unfold unicodeBytes
  split_ifs <;> simp

/-- A string is no longer than its text. -/
theorem Chars.length_lt {i w o : Bytes} (h : Chars i w o) : w.length + o.length < i.length := by
  induction h with
  | close => simp
  | plain _ _ ih | escaped _ _ _ ih =>
    simp only [List.length_cons]
    omega
  | @unit _ _ _ _ u hu _ _ ih =>
    have hlen := hu.length_eq
    have hle := length_unicodeBytes_le u
    simp only [List.length_cons, List.length_append]
    omega
  | @pair _ _ _ _ _ u u' hu _ hu' _ ih =>
    have hlen := hu.length_eq
    have hlen' := hu'.length_eq
    have hle := length_unicodeBytes_le (ucharOfPair u u')
    simp only [List.length_cons, List.length_append] at hlen ⊢
    omega

/-! ## The bytes of numbers -/

section Bytes

variable {arith : Arithmetic} {l : Bytes} {n : Number}

theorem isNumberByte_of_digits {d : Bytes} (hd : ∀ c ∈ d, IsDigit c) : ∀ c ∈ d, IsNumberByte c :=
  fun c hc => .inl (hd c hc)

theorem Mantissa.isNumberByte (h : Mantissa arith l n) : ∀ c ∈ l, IsNumberByte c := by
  cases h with
  | integer hn => exact isNumberByte_of_digits hn.1
  | fraction hn _ hd _ =>
    exact List.forall_mem_append.mpr ⟨isNumberByte_of_digits hn.1,
      List.forall_mem_cons.mpr ⟨by decide, isNumberByte_of_digits hd⟩⟩

theorem Exponent.isNumberByte {e : BitVec 64} (h : Exponent l e) : ∀ c ∈ l, IsNumberByte c := by
  cases h with
  | mk he hs hd _ =>
    refine List.forall_mem_cons.mpr ⟨?_, List.forall_mem_append.mpr
      ⟨?_, isNumberByte_of_digits hd⟩⟩
    · rcases he with rfl | rfl <;> decide
    · rcases hs with rfl | rfl | rfl
      · nofun
      · exact List.forall_mem_singleton.mpr (by decide)
      · exact List.forall_mem_singleton.mpr (by decide)

theorem Magnitude.isNumberByte (h : Magnitude arith l n) : ∀ c ∈ l, IsNumberByte c := by
  cases h with
  | plain h => exact h.isNumberByte
  | scaled h hx => exact List.forall_mem_append.mpr ⟨h.isNumberByte, hx.isNumberByte⟩

theorem IsNumber.isNumberByte (h : IsNumber arith l n) : ∀ c ∈ l, IsNumberByte c := by
  cases h with
  | positive hc h => exact h.isNumberByte
  | negative h => exact List.forall_mem_cons.mpr ⟨by decide, h.isNumberByte⟩

/-- A number begins with a digit or a minus sign. -/
theorem IsNumber.head (h : IsNumber arith l n) : ∃ c l', l = c :: l' ∧ (IsDigit c ∨ c = minus) := by
  cases h with
  | positive hc h => exact ⟨_, _, rfl, .inl hc⟩
  | negative h => exact ⟨_, _, rfl, .inr rfl⟩

end Bytes

/-! ## The length of a phrase -/

/-- White space is part of the text. -/
theorem length_le_of_ws {i o : Bytes} (h : Ws i o) : o.length ≤ i.length := by
  obtain ⟨w, -, rfl⟩ := h
  rw [List.length_append]
  exact Nat.le_add_left _ _

/-- How many bytes a phrase has at least, for its entries. -/
def Phrase.weight : Phrase → Nat
  | .value _ => 0
  | .elements _ vs => vs.length
  | .members _ ms => 4 * ms.length

/-- A phrase is longer than its entries need it to be. -/
theorem Reads.length_lt {arith : Arithmetic} {i o : Bytes} {φ : Phrase} (h : Reads arith i φ o) :
    φ.weight + o.length < i.length := by
  induction h with
  | null hi | true hi | false hi =>
    subst hi
    simp [Phrase.weight, nullLiteral, trueLiteral, falseLiteral]
    omega
  | number hi hl _ =>
    obtain ⟨c, l', rfl, -⟩ := hl.head
    subst hi
    simp only [Phrase.weight, List.length_append, List.length_cons]
    omega
  | string hi hw =>
    subst hi
    have hlen := hw.length_lt
    simp only [Phrase.weight, List.length_cons]
    omega
  | array hi _ ih | object hi _ ih =>
    subst hi
    simp only [Phrase.weight, List.length_cons] at ih ⊢
    omega
  | endElements hw | endMembers hw =>
    have hlen := length_le_of_ws hw
    simp only [Phrase.weight, List.length_nil, List.length_cons] at hlen ⊢
    omega
  | elementComma hw _ ih | memberComma hw _ ih =>
    have hlen := length_le_of_ws hw
    simp only [Phrase.weight, List.length_cons] at hlen ih ⊢
    omega
  | element hw _ _ ihv ihvs =>
    have hlen := length_le_of_ws hw
    simp only [Phrase.weight, List.length_cons] at ihv ihvs ⊢
    omega
  | member hw hname hcolon hw' _ _ ihv ihms =>
    have hlen := length_le_of_ws hw
    have hlt := hname.length_lt
    have hlen' := length_le_of_ws hcolon
    have hlen'' := length_le_of_ws hw'
    simp only [Phrase.weight, List.length_cons] at hlen hlen' ihv ihms ⊢
    omega

end Ssms.Json.Lenient
