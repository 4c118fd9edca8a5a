import Ssms.Json.Parsed
import Ssms.Json.Tree

/-!
# What the JSON parser makes of the texts of RFC 8259

`parsed arith v` is the node that `json_parse` returns for a text of the value `v`: a number without
fraction and exponent is an integer modulo `2 ^ 64`, any other is computed from its digits by
`arith`, and a string is its bytes. A `\u` escape of a surrogate takes the next one with it,
whatever that one is; where none follows, the text is refused.

* `accepts_iff_parsed`: a text of `v` is accepted with this node and no other.
* `jsonParse_text`: `json_parse` returns it, or a null pointer where there is none.
* `loads_text`: `SrsJsonAny::loads` returns its tree.
-/

namespace Ssms.Json

open Ssms.Kernel Ssms.Lib Ssms.Lib.Decimal
open Ssms.Lib.Rfc8259 hiding Bytes IsNumber Phrase
open Lenient

/-! ## Strings -/

/-- A code unit of a text, as the parser computes with it. -/
def ucharOfUnit (u : BitVec 16) : UInt32 := UInt32.ofNat u.toNat

/-- The bytes that the parser makes of a string; none where it refuses it. -/
def stringBytes : List Character → Option Bytes
  | [] => some []
  | .byte c :: s => (stringBytes s).map fun w => c :: w
  | .unit u :: s =>
    if isSurrogate (ucharOfUnit u) then
      match s with
      | .unit u' :: s => (stringBytes s).map fun w =>
          unicodeBytes (ucharOfPair (ucharOfUnit u) (ucharOfUnit u')) ++ w
      | _ => none
    else (stringBytes s).map fun w => unicodeBytes (ucharOfUnit u) ++ w

/-- Both read the same digits. -/
theorem hexDigit_eq (c : UInt8) :
    hexDigit c = if hexValue c = 0xFF then none else some (hexValue c).toNat := by
  have h : ∀ n < 256, hexDigit (UInt8.ofNat n) =
      if hexValue (UInt8.ofNat n) = 0xFF then none else some (hexValue (UInt8.ofNat n)).toNat := by
    decide +kernel
  simpa using h c.toNat c.toNat_lt

theorem hexValue_lt {c : UInt8} (h : hexValue c ≠ 0xFF) : (hexValue c).toNat < 16 := by
  unfold hexValue at h ⊢
  split_ifs at h ⊢ with hdigit
  · obtain ⟨hlow, hhigh⟩ := hdigit
    rw [UInt8.le_iff_toNat_le] at hhigh
    rw [UInt8.toNat_sub_of_le _ _ hlow]
    simp only [UInt8.reduceToNat] at hhigh ⊢
    omega
  all_goals first
  | decide
  | exact absurd rfl h

theorem hexDigit_eq_some {c : UInt8} {n : Nat} :
    hexDigit c = some n ↔ hexValue c ≠ 0xFF ∧ n = (hexValue c).toNat := by
  rw [hexDigit_eq]
  split_ifs with h
  · simp [h]
  · simp [h, eq_comm]

/-- Two digits. -/
theorem toNat_twoDigits {a b : UInt8} (ha : a.toNat < 16) (hb : b.toNat < 16) :
    ((a <<< 4) ||| b).toNat = a.toNat * 16 + b.toNat := by
  have hshift : a.toNat <<< 4 % 2 ^ 8 = a.toNat <<< 4 := by
    rw [Nat.shiftLeft_eq]
    omega
  have hor := Nat.shiftLeft_add_eq_or_of_lt (i := 4) hb a.toNat
  rw [UInt8.toNat_or, UInt8.toNat_shiftLeft]
  simp only [UInt8.reduceToNat, Nat.reduceMod]
  rw [hshift, ← hor, Nat.shiftLeft_eq]

/-- Four digits. -/
theorem toNat_ucharOf {a b c d : UInt8} (ha : a.toNat < 16) (hb : b.toNat < 16)
    (hc : c.toNat < 16) (hd : d.toNat < 16) :
    (ucharOf a b c d).toNat = ((a.toNat * 16 + b.toNat) * 16 + c.toNat) * 16 + d.toNat := by
  have hfirst := toNat_twoDigits ha hb
  have hsecond := toNat_twoDigits hc hd
  have hlt := ((c <<< 4) ||| d).toNat_lt
  have hshift : ((a <<< 4) ||| b).toNat <<< 8 % 2 ^ 32 = ((a <<< 4) ||| b).toNat <<< 8 := by
    rw [Nat.shiftLeft_eq]
    omega
  have hor := Nat.shiftLeft_add_eq_or_of_lt (i := 8) hlt ((a <<< 4) ||| b).toNat
  rw [ucharOf, UInt32.toNat_or, UInt32.toNat_shiftLeft, UInt8.toNat_toUInt32, UInt8.toNat_toUInt32]
  simp only [UInt32.reduceToNat, Nat.reduceMod]
  rw [hshift, ← hor, Nat.shiftLeft_eq, hfirst, hsecond]
  omega

/-- **A `\u` escape of the grammar is one for the parser.** -/
theorem hex4_iff {i o : Bytes} {u : UInt32} : Hex4 i u o ↔
    ∃ a b c d p q r t, i = a :: b :: c :: d :: o ∧ hexDigit a = some p ∧ hexDigit b = some q ∧
      hexDigit c = some r ∧ hexDigit d = some t ∧
      u = ucharOfUnit (BitVec.ofNat 16 (((p * 16 + q) * 16 + r) * 16 + t)) := by
  have hvalue : ∀ {a b c d : UInt8}, hexValue a ≠ 0xFF → hexValue b ≠ 0xFF → hexValue c ≠ 0xFF →
      hexValue d ≠ 0xFF → ucharOf (hexValue a) (hexValue b) (hexValue c) (hexValue d) =
        ucharOfUnit (BitVec.ofNat 16 ((((hexValue a).toNat * 16 + (hexValue b).toNat) * 16 +
          (hexValue c).toNat) * 16 + (hexValue d).toNat)) := by
    intro a b c d ha hb hc hd
    have ha := hexValue_lt ha
    have hb := hexValue_lt hb
    have hc := hexValue_lt hc
    have hd := hexValue_lt hd
    rw [← UInt32.toNat_inj, toNat_ucharOf ha hb hc hd, ucharOfUnit, UInt32.toNat_ofNat',
      BitVec.toNat_ofNat]
    omega
  constructor
  · rintro ⟨ha, hb, hc, hd⟩
    exact ⟨_, _, _, _, _, _, _, _, rfl, hexDigit_eq_some.mpr ⟨ha, rfl⟩,
      hexDigit_eq_some.mpr ⟨hb, rfl⟩, hexDigit_eq_some.mpr ⟨hc, rfl⟩,
      hexDigit_eq_some.mpr ⟨hd, rfl⟩, hvalue ha hb hc hd⟩
  · rintro ⟨a, b, c, d, p, q, r, t, rfl, ha, hb, hc, hd, rfl⟩
    obtain ⟨ha', rfl⟩ := hexDigit_eq_some.mp ha
    obtain ⟨hb', rfl⟩ := hexDigit_eq_some.mp hb
    obtain ⟨hc', rfl⟩ := hexDigit_eq_some.mp hc
    obtain ⟨hd', rfl⟩ := hexDigit_eq_some.mp hd
    exact hvalue ha' hb' hc' hd' ▸ .digits ha' hb' hc' hd'

theorem escapeOf_of_escaped {e c : UInt8} (h : escaped e = some c) :
    e ≠ 0 ∧ e ≠ 0x75 ∧ escapeOf e = c := by
  unfold escaped at h
  split_ifs at h <;> cases h <;> subst e <;> decide

theorem isPlain_of_isUnescaped {c : UInt8} (h : IsUnescaped c) : IsPlain c :=
  ⟨fun hzero => absurd (hzero ▸ h.1) (by decide), h.2⟩

/-- **A string of the grammar is accepted where it has bytes.** -/
theorem chars_of_stringBytes {s : List Character} {w : Bytes} (hw : stringBytes s = some w) :
    ∀ {i o : Bytes}, Characters i s o → Chars i w o := by
  fun_induction stringBytes s generalizing w with
  | case1 =>
    intro i o h
    cases hw
    cases h
    exact .close
  | case2 c s ih =>
    intro i o h
    obtain ⟨w, hbytes, rfl⟩ := Option.map_eq_some_iff.mp hw
    cases h with
    | unescaped hc h => exact .plain (isPlain_of_isUnescaped hc) (ih hbytes h)
    | escaped he h =>
      obtain ⟨hzero, hu, rfl⟩ := escapeOf_of_escaped he
      exact .escaped hzero hu (ih hbytes h)
  | case3 u hs u' s ih =>
    intro i o h
    obtain ⟨w, hbytes, rfl⟩ := Option.map_eq_some_iff.mp hw
    obtain _ | _ | _ | ⟨ha, hb, hc, hd, h⟩ := h
    obtain _ | _ | _ | ⟨ha', hb', hc', hd', h⟩ := h
    exact .pair (hex4_iff.mpr ⟨_, _, _, _, _, _, _, _, rfl, ha, hb, hc, hd, rfl⟩) hs
      (hex4_iff.mpr ⟨_, _, _, _, _, _, _, _, rfl, ha', hb', hc', hd', rfl⟩) (ih hbytes h)
  | case4 => cases hw
  | case5 u s hs ih =>
    intro i o h
    obtain ⟨w, hbytes, rfl⟩ := Option.map_eq_some_iff.mp hw
    obtain _ | _ | _ | ⟨ha, hb, hc, hd, h⟩ := h
    exact .unit (hex4_iff.mpr ⟨_, _, _, _, _, _, _, _, rfl, ha, hb, hc, hd, rfl⟩)
      (Bool.eq_false_iff.mpr hs) (ih hbytes h)

/-- Where the parser reads a `\u` escape, the grammar does. -/
theorem characters_hex4 {i o o' : Bytes} {u : UInt32} {s : List Character} (hu : Hex4 i u o)
    (h : Characters (escape :: 0x75 :: i) s o') :
    ∃ x s', s = .unit x :: s' ∧ u = ucharOfUnit x ∧ Characters o s' o' := by
  have hescape : ¬ IsUnescaped escape := by decide
  obtain ⟨a, b, c, d, p, q, r, t, rfl, ha, hb, hc, hd, rfl⟩ := hex4_iff.mp hu
  obtain _ | ⟨hc', -⟩ | ⟨he, -⟩ | ⟨ha', hb', hc', hd', h⟩ := h
  · exact absurd hc' hescape
  · cases he
  · obtain rfl := Option.some.inj (ha.symm.trans ha')
    obtain rfl := Option.some.inj (hb.symm.trans hb')
    obtain rfl := Option.some.inj (hc.symm.trans hc')
    obtain rfl := Option.some.inj (hd.symm.trans hd')
    exact ⟨_, _, rfl, rfl, h⟩

/-- **It is accepted in no other way.** -/
theorem stringBytes_of_chars {i w o : Bytes} (h : Chars i w o) :
    ∀ {s o'}, Characters i s o' → stringBytes s = some w ∧ o' = o := by
  have hquote : ¬ IsUnescaped quotationMark := by decide
  have hescape : ¬ IsUnescaped escape := by decide
  induction h with
  | close =>
    rintro s o' (_ | hc)
    · exact ⟨rfl, rfl⟩
    · exact absurd hc hquote
  | plain hc _ ih =>
    rintro s o' (_ | ⟨-, h'⟩ | ⟨-, -⟩ | ⟨-, -, -, -, -⟩)
    · exact absurd rfl hc.2.1
    · obtain ⟨hs, rfl⟩ := ih h'
      exact ⟨by rw [stringBytes, hs, Option.map_some], rfl⟩
    · exact absurd rfl hc.2.2
    · exact absurd rfl hc.2.2
  | escaped _ hu _ ih =>
    rintro s o' (_ | ⟨hc, -⟩ | ⟨he, h'⟩ | ⟨-, -, -, -, -⟩)
    · exact absurd hc hescape
    · obtain ⟨hs, rfl⟩ := ih h'
      obtain ⟨-, -, rfl⟩ := escapeOf_of_escaped he
      exact ⟨by rw [stringBytes, hs, Option.map_some], rfl⟩
    · exact absurd rfl hu
  | unit hu hs _ ih =>
    intro s o' h'
    obtain ⟨x, s, rfl, rfl, h'⟩ := characters_hex4 hu h'
    obtain ⟨hw, rfl⟩ := ih h'
    exact ⟨by rw [stringBytes.eq_def]; simp [hs, hw], rfl⟩
  | pair hu hs hu' _ ih =>
    intro s o' h'
    obtain ⟨x, s, rfl, rfl, h'⟩ := characters_hex4 hu h'
    obtain ⟨x', s, rfl, rfl, h'⟩ := characters_hex4 hu' h'
    obtain ⟨hw, rfl⟩ := ih h'
    exact ⟨by simp [stringBytes, hs, hw], rfl⟩

/-! ## Numbers -/

section Numbers

variable (arith : Arithmetic) (l : Bytes)

/-- The digits at the beginning. -/
def digitsOf : Bytes := l.takeWhile fun c => IsDigit c

/-- What follows them. -/
def afterDigits : Bytes := l.dropWhile fun c => IsDigit c

/-- A number without sign, up to its exponent part, and that part. -/
def splitMagnitude : Number × Bytes :=
  let n := digitsOf l
  let r := afterDigits l
  if r.head? = some 0x2E then
    let d := digitsOf r.tail
    (.double (withFraction arith (toDouble (digitsValue n)) (digitsValue d) d.length),
      afterDigits r.tail)
  else (.integer (digitsValue n), r)

/-- The exponent of an exponent part. -/
def exponentOf (x : Bytes) : BitVec 64 :=
  let s := x.tail
  if s.head? = some minus then -digitsValue s.tail
  else if s.head? = some 0x2B then digitsValue s.tail
  else digitsValue s

/-- A number without sign. -/
def magnitudeOf : Number :=
  let (n, x) := splitMagnitude arith l
  if x = [] then n else .double (withExponent arith n.dbl (exponentOf x))

/-- The number that the parser makes of a spelling. -/
def numberOf : Number :=
  if l.head? = some minus then (magnitudeOf arith l.tail).negative else magnitudeOf arith l

variable {arith l} {d o : Bytes} {n : Number}

theorem digitsOf_append (hd : ∀ c ∈ d, IsDigit c) (ho : Stops IsDigit o) :
    digitsOf (d ++ o) = d ∧ afterDigits (d ++ o) = o := by
  have hd : ∀ c ∈ d, decide (IsDigit c) = true := fun c hc => decide_eq_true (hd c hc)
  have ho : o.takeWhile (fun c => IsDigit c) = [] ∧ o.dropWhile (fun c => IsDigit c) = o := by
    cases o with
    | nil => exact ⟨rfl, rfl⟩
    | cons c o =>
      have hc : ¬ IsDigit c := ho c rfl
      simp [hc]
  rw [digitsOf, afterDigits, List.takeWhile_append_of_pos hd, List.dropWhile_append_of_pos hd, ho.1,
    ho.2, List.append_nil]
  exact ⟨rfl, rfl⟩

/-- A number up to its exponent part. -/
theorem splitMagnitude_append (h : Mantissa arith l n) (ho : Stops IsDigit o)
    (hpoint : o.head? ≠ some 0x2E) : splitMagnitude arith (l ++ o) = (n, o) := by
  cases h with
  | integer hn =>
    obtain ⟨hdigits, hafter⟩ := digitsOf_append hn.1 ho
    simp only [splitMagnitude, hdigits, hafter, if_neg hpoint]
  | @fraction n d hn _ hd _ =>
    have hstops : Stops IsDigit (0x2E :: d ++ o) := by
      rintro c ⟨⟩
      decide
    obtain ⟨hdigits, hafter⟩ := digitsOf_append hn.1 hstops
    obtain ⟨hdigits', hafter'⟩ := digitsOf_append hd ho
    rw [List.cons_append] at hdigits hafter
    rw [List.append_assoc, List.cons_append]
    simp only [splitMagnitude, hdigits, hafter, List.head?_cons, List.tail_cons, if_true, hdigits',
      hafter']

theorem exponentOf_eq {x : Bytes} {e : BitVec 64} (h : Exponent x e) : exponentOf x = e := by
  obtain ⟨-, hs, hd, hne⟩ := h
  obtain ⟨c, d, rfl⟩ := List.exists_cons_of_ne_nil hne
  have hc : IsDigit c := hd c List.mem_cons_self
  have hminus : c ≠ minus := by
    rintro rfl
    exact absurd hc (by decide)
  have hplus : c ≠ 0x2B := by
    rintro rfl
    exact absurd hc (by decide)
  have hsigns : (0x2B : UInt8) ≠ minus := by decide
  rcases hs with rfl | rfl | rfl
  · simp [exponentOf, hminus, hplus]
  · simp [exponentOf]
  · simp [exponentOf, hsigns]

theorem magnitudeOf_eq (h : Magnitude arith l n) : magnitudeOf arith l = n := by
  cases h with
  | plain h =>
    have hsplit := splitMagnitude_append h (o := []) nofun nofun
    rw [List.append_nil] at hsplit
    simp only [magnitudeOf, hsplit, if_true]
  | @scaled l n x e h hx =>
    have hexp := exponentOf_eq hx
    obtain ⟨b, x, rfl, hb⟩ : ∃ b x', x = b :: x' ∧ (b = 0x65 ∨ b = 0x45) := by
      cases hx with
      | mk he => exact ⟨_, _, rfl, he⟩
    have hstops : Stops IsDigit (b :: x) := by
      rintro c ⟨⟩
      rcases hb with rfl | rfl <;> decide
    have hpoint : (b :: x).head? ≠ some 0x2E := by
      rcases hb with rfl | rfl <;> simp
    simp only [magnitudeOf, splitMagnitude_append h hstops hpoint,
      if_neg (List.cons_ne_nil b x), hexp]

/-- **The number of a spelling is the one that the parser makes of it.** -/
theorem numberOf_eq (h : IsNumber arith l n) : numberOf arith l = n := by
  cases h with
  | @positive c l n hc h =>
    have hminus : (c :: l).head? ≠ some minus := by
      rintro ⟨⟩
      exact absurd hc (by decide)
    rw [numberOf, if_neg hminus, magnitudeOf_eq h]
  | negative h => rw [numberOf, List.head?_cons, if_pos rfl, List.tail_cons, magnitudeOf_eq h]

/-- Every number of the grammar is one for the parser. -/
theorem exists_isNumber (arith : Arithmetic) (h : Rfc8259.IsNumber l) :
    ∃ n, IsNumber arith l n := by
  obtain ⟨m, n, f, x, hm, hn, hf, hx, rfl⟩ := h
  have hwhole : IsWhole n := hn.2
  obtain ⟨k, hk⟩ : ∃ k, Mantissa arith (n ++ f) k := by
    rcases hf with rfl | ⟨d, hne, hd, rfl⟩
    · rw [List.append_nil]
      exact ⟨_, .integer hwhole⟩
    · exact ⟨_, .fraction hwhole hn.1 hd hne⟩
  obtain ⟨k', hk'⟩ : ∃ k', Magnitude arith (n ++ (f ++ x)) k' := by
    rw [← List.append_assoc]
    rcases hx with rfl | ⟨e, s, d, he, hs, hne, hd, rfl⟩
    · rw [List.append_nil]
      exact ⟨k, .plain hk⟩
    · exact ⟨_, .scaled hk (.mk he hs hd hne)⟩
  rcases hm with rfl | rfl
  · obtain ⟨c, n, rfl, hc⟩ := hn.head
    exact ⟨k', .positive hc hk'⟩
  · exact ⟨_, .negative hk'⟩

/-- Digits add up to what they denote, modulo `2 ^ 64`. -/
theorem digitsValue_eq (d : Bytes) : digitsValue d = BitVec.ofNat 64 (value d) := by
  induction d using List.reverseRecOn with
  | nil => rfl
  | append_singleton d c ih =>
    have hstep : digitsValue (d ++ [c]) = digitsValue d * 10 + digitOf c := by
      rw [digitsValue, List.foldl_append]
      rfl
    rw [hstep, ih, value_concat, digitOf, BitVec.ofNat_add, Nat.mul_comm, BitVec.ofNat_mul]
    rfl

/-- **An integer is itself modulo `2 ^ 64`.** -/
theorem numberOf_integer {k : Int} (hk : intValue l = some k) :
    numberOf arith l = .integer (BitVec.ofInt 64 k) := by
  have hmagnitude : ∀ {d : Bytes}, (d.all fun c => decide (IsDigit c)) = true →
      magnitudeOf arith d = .integer (BitVec.ofNat 64 (value d)) := by
    intro d hd
    have hd : ∀ c ∈ d, IsDigit c := fun c hc => of_decide_eq_true (List.all_eq_true.mp hd c hc)
    obtain ⟨hdigits, hafter⟩ := digitsOf_append (o := []) hd nofun
    rw [List.append_nil] at hdigits hafter
    have hpoint : ¬ ([] : Bytes).head? = some 0x2E := nofun
    simp only [magnitudeOf, splitMagnitude, hdigits, hafter, if_neg hpoint, if_true, digitsValue_eq]
  rw [intValue] at hk
  by_cases hminus : l.head? = some minus
  · simp only [if_pos hminus, Option.ite_none_right_eq_some, Option.some_inj] at hk
    obtain ⟨hd, rfl⟩ := hk
    rw [numberOf, if_pos hminus, hmagnitude hd, Number.negative, BitVec.ofInt_neg,
      BitVec.ofInt_natCast]
  · simp only [if_neg hminus, Option.ite_none_right_eq_some, Option.some_inj] at hk
    obtain ⟨hd, rfl⟩ := hk
    rw [numberOf, if_neg hminus, hmagnitude hd, BitVec.ofInt_natCast]

end Numbers

/-! ## Values -/

mutual

/-- The node that the parser makes of a value; none where it refuses a string inside. -/
def parsed (arith : Arithmetic) : Value → Option JsonValue
  | .null => some .null
  | .bool b => some (.boolean (if b then 1 else 0))
  | .number spelling => some (numberOf arith spelling).value
  | .string s => (stringBytes s).map .string
  | .array vs => (parsedElements arith vs).map .array
  | .object ms => (parsedMembers arith ms).map .object

def parsedElements (arith : Arithmetic) : List Value → Option (List JsonValue)
  | [] => some []
  | v :: vs => (parsed arith v).bind fun w => (parsedElements arith vs).map fun ws => w :: ws

def parsedMembers (arith : Arithmetic) :
    List (List Character × Value) → Option (List (Bytes × JsonValue))
  | [] => some []
  | (s, v) :: ms => (stringBytes s).bind fun name => (parsed arith v).bind fun w =>
      (parsedMembers arith ms).map fun ws => (name, w) :: ws

end

section Values

variable {arith : Arithmetic} {text i o : Bytes}

theorem ws_trans {i₁ i₂ i₃ : Bytes} (h : Ws i₁ i₂) (h' : Ws i₂ i₃) : Ws i₁ i₃ := by
  obtain ⟨w, hw, rfl⟩ := h
  obtain ⟨w', hw', rfl⟩ := h'
  exact ⟨w ++ w', List.forall_mem_append.mpr ⟨hw, hw'⟩, (List.append_assoc _ _ _).symm⟩

/-- The rest of an array may begin with white space. -/
theorem reads_elements_ws {i' : Bytes} {ws : List JsonValue} (hw : Ws i i')
    (h : Reads arith i' (.elements false ws) o) : Reads arith i (.elements false ws) o := by
  cases h with
  | endElements hw' => exact .endElements (ws_trans hw hw')
  | element hw' hv hvs => exact .element (ws_trans hw hw') hv hvs

theorem reads_members_ws {i' : Bytes} {ms : List (Bytes × JsonValue)} (hw : Ws i i')
    (h : Reads arith i' (.members false ms) o) : Reads arith i (.members false ms) o := by
  cases h with
  | endMembers hw' => exact .endMembers (ws_trans hw hw')
  | member hw' hname hcolon hw₂ hv hms => exact .member (ws_trans hw hw') hname hcolon hw₂ hv hms

/-- The parser reads what the grammar reads; a value only where a number would end. -/
def CanRead (arith : Arithmetic) (i o : Bytes) : Rfc8259.Phrase → Prop
  | .value v => NumberEnd o → ∀ w, parsed arith v = some w → Reads arith i (.value w) o
  | .elements vs => ∀ ws, parsedElements arith vs = some ws → Reads arith i (.elements false ws) o
  | .members ms => ∀ ws, parsedMembers arith ms = some ws → Reads arith i (.members false ws) o

theorem reads_of_derives {φ : Rfc8259.Phrase} (h : Derives i φ o) : CanRead arith i o φ := by
  have hendArray : ∀ {i o}, Ws i (endArray :: o) → NumberEnd i :=
    fun h => h.numberEnd numberEnd_cons
  have hendObject : ∀ {i o}, Ws i (endObject :: o) → NumberEnd i :=
    fun h => h.numberEnd numberEnd_cons
  have hendValue : ∀ {i o}, Ws i (valueSeparator :: o) → NumberEnd i :=
    fun h => h.numberEnd numberEnd_cons
  induction h with
  | null hi =>
    rintro - w ⟨⟩
    exact .null hi
  | true hi =>
    rintro - w ⟨⟩
    exact .true hi
  | false hi =>
    rintro - w ⟨⟩
    exact .false hi
  | number hi hl =>
    rintro hend w ⟨⟩
    obtain ⟨n, hn⟩ := exists_isNumber arith hl
    rw [numberOf_eq hn]
    exact .number hi hn hend
  | string hi hs =>
    intro _ w hw
    obtain ⟨w, hw', rfl⟩ := Option.map_eq_some_iff.mp hw
    exact .string hi (chars_of_stringBytes hw' hs)
  | emptyArray hi hw =>
    rintro - w ⟨⟩
    exact .array hi (.endElements hw)
  | array hi hw _ ih =>
    intro _ w hparsed
    obtain ⟨ws, hws, rfl⟩ := Option.map_eq_some_iff.mp hparsed
    exact .array hi (reads_elements_ws hw (ih ws hws))
  | emptyObject hi hw =>
    rintro - w ⟨⟩
    exact .object hi (.endMembers hw)
  | object hi hw _ ih =>
    intro _ w hparsed
    obtain ⟨ws, hws, rfl⟩ := Option.map_eq_some_iff.mp hparsed
    exact .object hi (reads_members_ws hw (ih ws hws))
  | lastElement _ hw ih =>
    intro ws hparsed
    obtain ⟨w, hv, hvs⟩ := Option.bind_eq_some_iff.mp hparsed
    obtain ⟨ws, hws, rfl⟩ := Option.map_eq_some_iff.mp hvs
    cases hws
    exact .element (Ws.none _) (ih (hendArray hw) w hv) (.endElements hw)
  | element _ hw hw₂ _ ihv ih =>
    intro ws hparsed
    obtain ⟨w, hv, hvs⟩ := Option.bind_eq_some_iff.mp hparsed
    obtain ⟨ws, hws, rfl⟩ := Option.map_eq_some_iff.mp hvs
    exact .element (Ws.none _) (ihv (hendValue hw) w hv)
      (.elementComma hw (reads_elements_ws hw₂ (ih ws hws)))
  | lastMember hi hs hw hw₂ _ hend ih =>
    intro ws hparsed
    obtain ⟨name, hname, hvs⟩ := Option.bind_eq_some_iff.mp hparsed
    obtain ⟨w, hv, hvs⟩ := Option.bind_eq_some_iff.mp hvs
    obtain ⟨ws, hws, rfl⟩ := Option.map_eq_some_iff.mp hvs
    cases hws
    exact .member (hi ▸ Ws.none _) (chars_of_stringBytes hname hs) hw hw₂
      (ih (hendObject hend) w hv)
      (.endMembers hend)
  | member hi hs hw hw₂ _ hsep hw₃ _ ihv ih =>
    intro ws hparsed
    obtain ⟨name, hname, hvs⟩ := Option.bind_eq_some_iff.mp hparsed
    obtain ⟨w, hv, hvs⟩ := Option.bind_eq_some_iff.mp hvs
    obtain ⟨ws, hws, rfl⟩ := Option.map_eq_some_iff.mp hvs
    exact .member (hi ▸ Ws.none _) (chars_of_stringBytes hname hs) hw hw₂
      (ihv (hendValue hsep) w hv) (.memberComma hsep (reads_members_ws hw₃ (ih ws hws)))

/-- The kind of value that a node is. -/
def kindOf : JsonValue → Option Kind
  | .nullptr | .none => none
  | .null => some .null
  | .boolean b => if b = 0 then some .false else some .true
  | .integer _ | .double _ => some .number
  | .string _ => some .string
  | .array _ => some .array
  | .object _ => some .object

theorem kindOf_value (n : Number) : kindOf n.value = some .number := by cases n <;> rfl

/-- The first byte of a value tells its kind to the parser too. -/
theorem reads_kindAt {w : JsonValue} (h : Reads arith i (.value w) o) :
    i.head?.bind kindAt = kindOf w := by
  cases h with
  | null hi | true hi | false hi | string hi | array hi | object hi =>
    subst hi
    rfl
  | @number _ _ l n hi hl _ =>
    obtain ⟨c, l', rfl, hc⟩ := hl.head
    subst hi
    rw [kindOf_value]
    rcases hc with hc | rfl
    · exact kindAt_digit hc
    · rfl

/-- A value begins with a byte that begins values. -/
theorem reads_kindAt_ne_none {w : JsonValue} {c : UInt8} (h : Reads arith i (.value w) o)
    (hc : i.head? = some c) : kindAt c ≠ none := by
  have hk := reads_kindAt h
  rw [hc, Option.bind_some] at hk
  rw [hk]
  cases h with
  | number => exact kindOf_value _ ▸ nofun
  | _ => nofun

theorem reads_tokenStart {w : JsonValue} (h : Reads arith i (.value w) o) : TokenStart i :=
  fun _ hc hws => reads_kindAt_ne_none h hc (kindAt_ws hws)

/-- No value begins with a closing bracket. -/
theorem not_reads_endArray {w : JsonValue} {o' : Bytes}
    (h : Reads arith (endArray :: o') (.value w) o) :
    False :=
  reads_kindAt_ne_none h rfl rfl

/-- The rest of an array is read from its first token on. -/
theorem reads_elements_token {i' : Bytes} {ws : List JsonValue} (hw : Ws i i') (hi : TokenStart i')
    (h : Reads arith i (.elements false ws) o) : Reads arith i' (.elements false ws) o := by
  cases h with
  | endElements hw' =>
    obtain rfl := hw.unique hw' hi tokenStart_cons
    exact .endElements (Ws.none _)
  | element hw' hv hvs =>
    obtain rfl := hw.unique hw' hi (reads_tokenStart hv)
    exact .element (Ws.none _) hv hvs

theorem reads_members_token {i' : Bytes} {ms : List (Bytes × JsonValue)} (hw : Ws i i')
    (hi : TokenStart i') (h : Reads arith i (.members false ms) o) :
    Reads arith i' (.members false ms) o := by
  cases h with
  | endMembers hw' =>
    obtain rfl := hw.unique hw' hi tokenStart_cons
    exact .endMembers (Ws.none _)
  | member hw' hname hcolon hw₂ hv hms =>
    obtain rfl := hw.unique hw' hi tokenStart_cons
    exact .member (Ws.none _) hname hcolon hw₂ hv hms

/-- An array goes on with an element where a value begins. -/
theorem reads_element_inv {ws : List JsonValue} (hi : TokenStart i)
    (hend : ∀ o', i ≠ endArray :: o')
    (h : Reads arith i (.elements false ws) o) :
    ∃ w ws' i', ws = w :: ws' ∧ Reads arith i (.value w) i' ∧
      Reads arith i' (.elements true ws') o := by
  cases h with
  | endElements hw => exact absurd ((Ws.none i).unique hw hi tokenStart_cons).symm (hend _)
  | element hw hv hvs =>
    obtain rfl := (Ws.none i).unique hw hi (reads_tokenStart hv)
    exact ⟨_, _, _, rfl, hv, hvs⟩

/-- An object goes on with the member that the grammar reads. -/
theorem reads_member_inv {i₁ i₂ i₃ i₄ : Bytes} {s : List Character} {ms : List (Bytes × JsonValue)}
    (hi : i = quotationMark :: i₁) (hs : Characters i₁ s i₂) (hw : Ws i₂ (nameSeparator :: i₃))
    (hw₂ : Ws i₃ i₄) (hi₄ : TokenStart i₄) (h : Reads arith i (.members false ms) o) :
    ∃ name w ms' i₅, ms = (name, w) :: ms' ∧ stringBytes s = some name ∧
      Reads arith i₄ (.value w) i₅ ∧ Reads arith i₅ (.members true ms') o := by
  subst hi
  cases h with
  | endMembers hw' => exact absurd ((Ws.none _).unique_cons hw').1 (by decide)
  | member hw' hname hcolon hw₂' hv hms =>
    obtain ⟨-, rfl⟩ := (Ws.none _).unique_cons hw'
    obtain ⟨hbytes, rfl⟩ := stringBytes_of_chars hname hs
    obtain ⟨-, rfl⟩ := hw.unique_cons hcolon
    obtain rfl := hw₂.unique hw₂' hi₄ (reads_tokenStart hv)
    exact ⟨_, _, _, _, rfl, hbytes, hv, hms⟩

/-- What the parser reads is what the grammar reads; a value only where a number would end. -/
def OnlyRead (arith : Arithmetic) (i o : Bytes) : Rfc8259.Phrase → Prop
  | .value v => NumberEnd o → ∀ w o', Reads arith i (.value w) o' →
      parsed arith v = some w ∧ o' = o
  | .elements vs => ∀ ws o', Reads arith i (.elements false ws) o' →
      parsedElements arith vs = some ws ∧ o' = o
  | .members ms => ∀ ws o', Reads arith i (.members false ws) o' →
      parsedMembers arith ms = some ws ∧ o' = o

theorem onlyRead_of_derives {φ : Rfc8259.Phrase} (h : Derives i φ o) : OnlyRead arith i o φ := by
  have hendArray : ∀ {i o}, Ws i (endArray :: o) → NumberEnd i :=
    fun h => h.numberEnd numberEnd_cons
  have hendObject : ∀ {i o}, Ws i (endObject :: o) → NumberEnd i :=
    fun h => h.numberEnd numberEnd_cons
  have hendValue : ∀ {i o}, Ws i (valueSeparator :: o) → NumberEnd i :=
    fun h => h.numberEnd numberEnd_cons
  induction h with
  | null hi =>
    intro _ w o' h'
    have hk := (reads_kindAt h').symm.trans (Derives.null hi).kindAt
    cases h' with
    | null hi' => exact ⟨rfl, List.append_cancel_left (hi'.symm.trans hi)⟩
    | number => cases (kindOf_value _).symm.trans hk
    | _ => cases hk
  | true hi =>
    intro _ w o' h'
    have hk := (reads_kindAt h').symm.trans (Derives.true hi).kindAt
    cases h' with
    | true hi' => exact ⟨rfl, List.append_cancel_left (hi'.symm.trans hi)⟩
    | number => cases (kindOf_value _).symm.trans hk
    | _ => cases hk
  | false hi =>
    intro _ w o' h'
    have hk := (reads_kindAt h').symm.trans (Derives.false hi).kindAt
    cases h' with
    | false hi' => exact ⟨rfl, List.append_cancel_left (hi'.symm.trans hi)⟩
    | number => cases (kindOf_value _).symm.trans hk
    | _ => cases hk
  | number hi hl =>
    intro hend w o' h'
    have hk := (reads_kindAt h').symm.trans (Derives.number hi hl).kindAt
    cases h' with
    | number hi' hl' hend' =>
      obtain ⟨rfl, rfl⟩ := span_unique hl.isNumberByte hl'.isNumberByte hend hend'
        (hi.symm.trans hi')
      exact ⟨congrArg (fun n : Number => some n.value) (numberOf_eq hl'), rfl⟩
    | _ => cases hk
  | string hi hs =>
    intro _ w o' h'
    have hk := (reads_kindAt h').symm.trans (Derives.string hi hs).kindAt
    cases h' with
    | string hi' hw' =>
      obtain ⟨-, rfl⟩ := List.cons_eq_cons.mp (hi.symm.trans hi')
      obtain ⟨hbytes, rfl⟩ := stringBytes_of_chars hw' hs
      exact ⟨by rw [parsed, hbytes, Option.map_some], rfl⟩
    | number => cases (kindOf_value _).symm.trans hk
    | _ => cases hk
  | emptyArray hi hw =>
    intro _ w o' h'
    have hk := (reads_kindAt h').symm.trans (Derives.emptyArray hi hw).kindAt
    cases h' with
    | array hi' hvs' =>
      obtain ⟨-, rfl⟩ := List.cons_eq_cons.mp (hi.symm.trans hi')
      cases reads_elements_token hw tokenStart_cons hvs' with
      | endElements hw' => exact ⟨rfl, ((Ws.none _).unique_cons hw').2⟩
      | element hw' hv' _ =>
        obtain rfl := (Ws.none _).unique hw' tokenStart_cons (reads_tokenStart hv')
        exact (not_reads_endArray hv').elim
    | number => cases (kindOf_value _).symm.trans hk
    | _ => cases hk
  | array hi hw hvs ih =>
    intro _ w o' h'
    have hk := (reads_kindAt h').symm.trans (Derives.array hi hw hvs).kindAt
    cases h' with
    | array hi' hvs' =>
      obtain ⟨-, rfl⟩ := List.cons_eq_cons.mp (hi.symm.trans hi')
      obtain ⟨hparsed, rfl⟩ := ih _ _ (reads_elements_token hw hvs.elements_tokenStart hvs')
      exact ⟨by rw [parsed, hparsed, Option.map_some], rfl⟩
    | number => cases (kindOf_value _).symm.trans hk
    | _ => cases hk
  | emptyObject hi hw =>
    intro _ w o' h'
    have hk := (reads_kindAt h').symm.trans (Derives.emptyObject hi hw).kindAt
    cases h' with
    | object hi' hms' =>
      obtain ⟨-, rfl⟩ := List.cons_eq_cons.mp (hi.symm.trans hi')
      cases reads_members_token hw tokenStart_cons hms' with
      | endMembers hw' => exact ⟨rfl, ((Ws.none _).unique_cons hw').2⟩
      | member hw' => exact absurd ((Ws.none _).unique_cons hw').1 (by decide)
    | number => cases (kindOf_value _).symm.trans hk
    | _ => cases hk
  | object hi hw hms ih =>
    intro _ w o' h'
    have hk := (reads_kindAt h').symm.trans (Derives.object hi hw hms).kindAt
    cases h' with
    | object hi' hms' =>
      obtain ⟨-, rfl⟩ := List.cons_eq_cons.mp (hi.symm.trans hi')
      obtain ⟨hparsed, rfl⟩ := ih _ _ (reads_members_token hw hms.members_tokenStart hms')
      exact ⟨by rw [parsed, hparsed, Option.map_some], rfl⟩
    | number => cases (kindOf_value _).symm.trans hk
    | _ => cases hk
  | lastElement hv hw ih =>
    intro ws o' h'
    obtain ⟨w, ws, i', rfl, hv', hvs'⟩ := reads_element_inv hv.tokenStart
      (fun _ => hv.ne_endArray) h'
    obtain ⟨hparsed, rfl⟩ := ih (hendArray hw) _ _ hv'
    cases hvs' with
    | endElements hw' => exact ⟨by simp [parsedElements, hparsed], (hw.unique_cons hw').2⟩
    | elementComma hw' => exact absurd (hw.unique_cons hw').1 (by decide)
  | element hv hw hw₂ hvs ihv ih =>
    intro ws o' h'
    obtain ⟨w, ws, i', rfl, hv', hvs'⟩ := reads_element_inv hv.tokenStart
      (fun _ => hv.ne_endArray) h'
    obtain ⟨hparsed, rfl⟩ := ihv (hendValue hw) _ _ hv'
    cases hvs' with
    | endElements hw' => exact absurd (hw.unique_cons hw').1 (by decide)
    | elementComma hw' hvs' =>
      obtain ⟨-, rfl⟩ := hw.unique_cons hw'
      obtain ⟨hrest, rfl⟩ := ih _ _ (reads_elements_token hw₂ hvs.elements_tokenStart hvs')
      exact ⟨by simp [parsedElements, hparsed, hrest], rfl⟩
  | lastMember hi hs hw hw₂ hv hend ih =>
    intro ws o' h'
    obtain ⟨name, w, ms, i₅, rfl, hname, hv', hms'⟩ := reads_member_inv hi hs hw hw₂
      hv.tokenStart h'
    obtain ⟨hparsed, rfl⟩ := ih (hendObject hend) _ _ hv'
    cases hms' with
    | endMembers hw' =>
      exact ⟨by simp [parsedMembers, hname, hparsed], (hend.unique_cons hw').2⟩
    | memberComma hw' => exact absurd (hend.unique_cons hw').1 (by decide)
  | member hi hs hw hw₂ hv hsep hw₃ hms ihv ih =>
    intro ws o' h'
    obtain ⟨name, w, ms, i₅, rfl, hname, hv', hms'⟩ := reads_member_inv hi hs hw hw₂
      hv.tokenStart h'
    obtain ⟨hparsed, rfl⟩ := ihv (hendValue hsep) _ _ hv'
    cases hms' with
    | endMembers hw' => exact absurd (hsep.unique_cons hw').1 (by decide)
    | memberComma hw' hms' =>
      obtain ⟨-, rfl⟩ := hsep.unique_cons hw'
      obtain ⟨hrest, rfl⟩ := ih _ _ (reads_members_token hw₃ hms.members_tokenStart hms')
      exact ⟨by simp [parsedMembers, hname, hparsed, hrest], rfl⟩

end Values

/-! ## Texts -/

section Texts

variable {arith : Arithmetic} {s : Bytes} {v : Value} {w : JsonValue}

/-- A byte order mark begins with `0xEF`. -/
theorem skipBom_eq (h : s.head? ≠ some 0xEF) : skipBom s = s := by
  refine if_neg fun hbom => h ?_
  cases s with
  | nil => cases hbom
  | cons c s => rw [List.head?_cons, (List.cons_eq_cons.mp hbom).1]

/-- No text begins with one. -/
theorem skipBom_text (h : Text s v) : skipBom s = s := by
  refine skipBom_eq fun hhead => ?_
  obtain ⟨i, o, hi, hv, -⟩ := h
  have hstart : TokenStart s := by
    rintro c hc hws
    obtain rfl := Option.some.inj (hhead.symm.trans hc)
    exact absurd hws (by decide)
  obtain rfl := hi.unique (Ws.none s) hv.tokenStart hstart
  have hk := hv.kindAt
  rw [hhead] at hk
  cases hk

/-- **A text of RFC 8259 is accepted with the node of its value and with no other.** -/
theorem accepts_iff_parsed (h : Text s v) : Accepts arith s w ↔ parsed arith v = some w := by
  have hbom := skipBom_text h
  obtain ⟨i, o, hi, hv, ho⟩ := h
  have hend : NumberEnd o := ho.numberEnd numberEnd_nil
  constructor
  · rintro ⟨i', o', -, hi', hw, -, -⟩
    rw [hbom] at hi'
    obtain rfl := hi.unique hi' hv.tokenStart (reads_tokenStart hw)
    exact (onlyRead_of_derives hv hend w o' hw).1
  · intro hw
    exact ⟨i, o, [], hbom.symm ▸ hi, reads_of_derives hv hend w hw, ho, Or.inl rfl⟩

/-- **`json_parse` returns for a text of RFC 8259 the node of its value, or a null pointer where a
surrogate stands without the escape after it.** -/
theorem jsonParse_text (arith : Arithmetic) (h : Text s v) (hs : s.length < 2 ^ 28) :
    jsonParse arith s = (parsed arith v).getD .nullptr := by
  cases hw : parsed arith v with
  | some w => exact jsonParse_of_accepts hs ((accepts_iff_parsed h).mpr hw)
  | none =>
    have hnone : ∀ w, ¬ Accepts arith s w := by
      intro w haccepts
      rw [accepts_iff_parsed h, hw] at haccepts
      cases haccepts
    exact jsonParse_of_not_accepts hs hnone

theorem isNothing_of_fits {w u : JsonValue} (hw : Everywhere JsonValue.children FitsNode w)
    (h : w.Contains u) : ¬ u.IsNothing := by
  induction h with
  | self w =>
    rintro (rfl | rfl)
    · exact hw.here
    · exact hw.here
  | inside hchild _ ih => exact ih (hw.inside _ hchild)

/-- What was parsed has lengths that `int`s hold. -/
theorem FitsNode.short : ∀ v, FitsNode v → v.Short
  | .string _, h | .array _, h => h
  | .object ms, h => by
    have hroom : JsonU.entrySize * ms.length < 2 ^ 31 := h
    rw [JsonU.entrySize] at hroom
    show ms.length < 2 ^ 31
    omega
  | .nullptr, _ | .none, _ | .null, _ | .integer _, _ | .double _, _ | .boolean _, _ =>
    Nat.two_pow_pos 31

/-- **`SrsJsonAny::loads` returns the tree of that node.** -/
theorem loads_text (h : Text s v) (hs : s.length < 2 ^ 28) :
    loads (jsonParse arith) s = .ok ((parsed arith v).map JsonValue.tree) := by
  have hparse := jsonParse_text arith h hs
  rw [loads, if_neg h.ne_nil, hparse]
  cases hw : parsed arith v with
  | none => rfl
  | some w =>
    obtain ⟨hfits, -⟩ := parse_of_accepts hs ((accepts_iff_parsed h).mpr hw)
    exact srsJsonParseTree_whole (fun u hu => isNothing_of_fits hfits hu)
      (hfits.mono FitsNode.short)

/-- `["\u00e9"]`. -/
theorem loads_text_escape :
    loads (jsonParse noArithmetic)
      [0x5B, 0x22, 0x5C, 0x75, 0x30, 0x30, 0x65, 0x39, 0x22, 0x5D] =
        .ok (some (.array [.string [0xC3, 0xA9]])) := by
  have hstring : Characters [0x5C, 0x75, 0x30, 0x30, 0x65, 0x39, 0x22, 0x5D] [.unit 0xE9] [0x5D] :=
    .unit (p := 0) (q := 0) (r := 14) (t := 9) rfl rfl rfl rfl .close
  have htext : Text [0x5B, 0x22, 0x5C, 0x75, 0x30, 0x30, 0x65, 0x39, 0x22, 0x5D]
      (.array [.string [.unit 0xE9]]) :=
    ⟨_, _, Ws.none _, .array rfl (Ws.none _) (.lastElement (.string rfl hstring) (Ws.none _)),
      Ws.none _⟩
  exact (loads_text htext (by simp)).trans rfl

end Texts

end Ssms.Json
