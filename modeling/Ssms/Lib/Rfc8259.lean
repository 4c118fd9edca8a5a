import Ssms.Lib.Decimal
import Ssms.Lib.Span

/-!
# The JSON grammar (RFC 8259) over bytes

`Text s v`: the byte string `s` is a JSON text for `v`. The grammar is that of RFC 8259, sections 2
to 7, read over bytes: `unescaped` are all bytes from `0x20` on except the quotation mark and the
reverse solidus, so a character beyond ASCII is its UTF-8 bytes. White space is attached to one
place each (around the value of a text, after an opening bracket, a separator and a colon, and
before the next of these), which generates the same texts without the ambiguity of the RFC's `ws`
rules.

A value keeps what a text says: the spelling of a number, and a string as its characters, where a
`\uXXXX` escape stays a UTF-16 code unit.

* `Derives.onlyReading`, `Text.unique`: **the grammar is unambiguous.** A number reaches as far as
  it can (`NumberEnd`); every other value has an end of its own.
* `isNumber_numeral`: the numeral of an integer is a number.
-/

namespace Ssms.Lib.Rfc8259

open Decimal

/-- A byte string. -/
abbrev Bytes := List UInt8

/-! ## Tokens -/

def beginArray : UInt8 := 0x5B
def beginObject : UInt8 := 0x7B
def endArray : UInt8 := 0x5D
def endObject : UInt8 := 0x7D
def nameSeparator : UInt8 := 0x3A
def valueSeparator : UInt8 := 0x2C
def quotationMark : UInt8 := 0x22
def escape : UInt8 := 0x5C
def falseLiteral : Bytes := [0x66, 0x61, 0x6C, 0x73, 0x65]
def nullLiteral : Bytes := [0x6E, 0x75, 0x6C, 0x6C]
def trueLiteral : Bytes := [0x74, 0x72, 0x75, 0x65]

/-- A white space byte. -/
def IsWs (c : UInt8) : Prop := c = 0x20 ∨ c = 0x09 ∨ c = 0x0A ∨ c = 0x0D

instance : DecidablePred IsWs := fun c => by unfold IsWs; infer_instance

/-- White space, then `o`. -/
def Ws (i o : Bytes) : Prop := ∃ w, (∀ c ∈ w, IsWs c) ∧ i = w ++ o

/-- No white space. -/
theorem Ws.none (o : Bytes) : Ws o o := ⟨[], nofun, rfl⟩

/-! ## Strings -/

/-- A character of a string: a byte, or the code unit of a `\uXXXX` escape. -/
inductive Character where
  | byte (c : UInt8)
  | unit (u : BitVec 16)
  deriving Repr, DecidableEq

/-- The bytes that stand for themselves. -/
def IsUnescaped (c : UInt8) : Prop := 0x20 ≤ c ∧ c ≠ quotationMark ∧ c ≠ escape

instance : DecidablePred IsUnescaped := fun c => by unfold IsUnescaped; infer_instance

/-- The character of a two-character escape. -/
def escaped (c : UInt8) : Option UInt8 :=
  if c = 0x22 then some 0x22
  else if c = 0x5C then some 0x5C
  else if c = 0x2F then some 0x2F
  else if c = 0x62 then some 0x08
  else if c = 0x66 then some 0x0C
  else if c = 0x6E then some 0x0A
  else if c = 0x72 then some 0x0D
  else if c = 0x74 then some 0x09
  else none

/-- The value of a hexadecimal digit. -/
def hexDigit (c : UInt8) : Option Nat :=
  if 0x30 ≤ c ∧ c ≤ 0x39 then some (c.toNat - 0x30)
  else if 0x41 ≤ c ∧ c ≤ 0x46 then some (c.toNat - 0x37)
  else if 0x61 ≤ c ∧ c ≤ 0x66 then some (c.toNat - 0x57)
  else none

/-- The characters of a string up to its closing quotation mark. -/
inductive Characters : Bytes → List Character → Bytes → Prop
  | close {o} : Characters (quotationMark :: o) [] o
  | unescaped {i o s c} (hc : IsUnescaped c) (h : Characters i s o) :
      Characters (c :: i) (.byte c :: s) o
  | escaped {i o s e c} (he : escaped e = some c) (h : Characters i s o) :
      Characters (escape :: e :: i) (.byte c :: s) o
  | unit {i o s a b c d p q r t} (ha : hexDigit a = some p) (hb : hexDigit b = some q)
      (hc : hexDigit c = some r) (hd : hexDigit d = some t) (h : Characters i s o) :
      Characters (escape :: 0x75 :: a :: b :: c :: d :: i)
        (.unit (BitVec.ofNat 16 (((p * 16 + q) * 16 + r) * 16 + t)) :: s) o

/-! ## Numbers -/

/-- `int = zero / ( digit1-9 *DIGIT )`. -/
def IsInt (l : Bytes) : Prop :=
  l ≠ [] ∧ (∀ c ∈ l, IsDigit c) ∧ (l.head? = some 0x30 → l = [0x30])

/-- `frac = decimal-point 1*DIGIT`, or nothing. -/
def IsFrac (l : Bytes) : Prop := l = [] ∨ ∃ d, d ≠ [] ∧ (∀ c ∈ d, IsDigit c) ∧ l = 0x2E :: d

/-- `exp = e [ minus / plus ] 1*DIGIT`, or nothing. -/
def IsExp (l : Bytes) : Prop :=
  l = [] ∨ ∃ e s d, (e = 0x65 ∨ e = 0x45) ∧ (s = [] ∨ s = [minus] ∨ s = [0x2B]) ∧ d ≠ [] ∧
    (∀ c ∈ d, IsDigit c) ∧ l = e :: (s ++ d)

/-- `number = [ minus ] int [ frac ] [ exp ]`. -/
def IsNumber (l : Bytes) : Prop :=
  ∃ m n f e, (m = [] ∨ m = [minus]) ∧ IsInt n ∧ IsFrac f ∧ IsExp e ∧ l = m ++ (n ++ (f ++ e))

/-- The bytes that occur in numbers. -/
def IsNumberByte (c : UInt8) : Prop :=
  IsDigit c ∨ c = minus ∨ c = 0x2B ∨ c = 0x2E ∨ c = 0x65 ∨ c = 0x45

instance : DecidablePred IsNumberByte := fun c => by unfold IsNumberByte; infer_instance

/-- No number goes on into `o`. -/
def NumberEnd (o : Bytes) : Prop := ∀ c, o.head? = some c → ¬ IsNumberByte c

/-! ## Values -/

/-- What a text says. -/
inductive Value where
  | null
  | bool (b : Bool)
  | number (spelling : Bytes)
  | string (s : List Character)
  | array (vs : List Value)
  | object (ms : List (List Character × Value))
  deriving Repr

/-- What can be read: a value, or the rest of an array or object from an element on, its closing
bracket included. -/
inductive Phrase where
  | value (v : Value)
  | elements (vs : List Value)
  | members (ms : List (List Character × Value))

/-- **Reading `φ` from the first input leaves the second.** -/
inductive Derives : Bytes → Phrase → Bytes → Prop
  | null {i o} (hi : i = nullLiteral ++ o) : Derives i (.value .null) o
  | true {i o} (hi : i = trueLiteral ++ o) : Derives i (.value (.bool true)) o
  | false {i o} (hi : i = falseLiteral ++ o) : Derives i (.value (.bool false)) o
  | number {i o l} (hi : i = l ++ o) (hl : IsNumber l) : Derives i (.value (.number l)) o
  | string {i i' o s} (hi : i = quotationMark :: i') (hs : Characters i' s o) :
      Derives i (.value (.string s)) o
  | emptyArray {i i' o} (hi : i = beginArray :: i') (hw : Ws i' (endArray :: o)) :
      Derives i (.value (.array [])) o
  | array {i i₁ i₂ o vs} (hi : i = beginArray :: i₁) (hw : Ws i₁ i₂)
      (hvs : Derives i₂ (.elements vs) o) : Derives i (.value (.array vs)) o
  | emptyObject {i i' o} (hi : i = beginObject :: i') (hw : Ws i' (endObject :: o)) :
      Derives i (.value (.object [])) o
  | object {i i₁ i₂ o ms} (hi : i = beginObject :: i₁) (hw : Ws i₁ i₂)
      (hms : Derives i₂ (.members ms) o) : Derives i (.value (.object ms)) o
  | lastElement {i i' o v} (hv : Derives i (.value v) i') (hw : Ws i' (endArray :: o)) :
      Derives i (.elements [v]) o
  | element {i i₁ i₂ i₃ o v vs} (hv : Derives i (.value v) i₁) (hw : Ws i₁ (valueSeparator :: i₂))
      (hw' : Ws i₂ i₃) (hvs : Derives i₃ (.elements vs) o) : Derives i (.elements (v :: vs)) o
  | lastMember {i i₁ i₂ i₃ i₄ i₅ o s v} (hi : i = quotationMark :: i₁) (hs : Characters i₁ s i₂)
      (hw : Ws i₂ (nameSeparator :: i₃)) (hw' : Ws i₃ i₄) (hv : Derives i₄ (.value v) i₅)
      (hend : Ws i₅ (endObject :: o)) : Derives i (.members [(s, v)]) o
  | member {i i₁ i₂ i₃ i₄ i₅ i₆ i₇ o s v ms} (hi : i = quotationMark :: i₁)
      (hs : Characters i₁ s i₂) (hw : Ws i₂ (nameSeparator :: i₃)) (hw' : Ws i₃ i₄)
      (hv : Derives i₄ (.value v) i₅) (hsep : Ws i₅ (valueSeparator :: i₆)) (hw'' : Ws i₆ i₇)
      (hms : Derives i₇ (.members ms) o) : Derives i (.members ((s, v) :: ms)) o

/-- **`JSON-text = ws value ws`.** -/
def Text (s : Bytes) (v : Value) : Prop :=
  ∃ i o, Ws s i ∧ Derives i (.value v) o ∧ Ws o []

/-! ## What can begin a value -/

/-- The kinds of values. -/
inductive Kind where
  | null
  | true
  | false
  | number
  | string
  | array
  | object

/-- The kind of a value. -/
def Value.kind : Value → Kind
  | .null => .null
  | .bool b => if b then .true else .false
  | .number _ => .number
  | .string _ => .string
  | .array _ => .array
  | .object _ => .object

/-- The kind of value that begins with a byte. -/
def kindAt (c : UInt8) : Option Kind :=
  if c = 0x6E then some .null
  else if c = 0x74 then some .true
  else if c = 0x66 then some .false
  else if c = quotationMark then some .string
  else if c = beginArray then some .array
  else if c = beginObject then some .object
  else if IsDigit c ∨ c = minus then some .number
  else none

theorem kindAt_digit {c : UInt8} (h : IsDigit c) : kindAt c = some .number := by
  unfold kindAt
  split_ifs with h1 h2 h3 h4 h5 h6 h7
  · exact absurd (h1 ▸ h) (by decide)
  · exact absurd (h2 ▸ h) (by decide)
  · exact absurd (h3 ▸ h) (by decide)
  · exact absurd (h4 ▸ h) (by decide)
  · exact absurd (h5 ▸ h) (by decide)
  · exact absurd (h6 ▸ h) (by decide)
  · rfl
  · exact absurd (Or.inl h) h7

/-- White space begins no value. -/
theorem kindAt_ws {c : UInt8} (h : IsWs c) : kindAt c = none := by
  rcases h with rfl | rfl | rfl | rfl <;> rfl

/-- An integer part begins with a digit. -/
theorem IsInt.head {n : Bytes} (h : IsInt n) : ∃ c n', n = c :: n' ∧ IsDigit c := by
  obtain ⟨hne, hall, -⟩ := h
  cases n with
  | nil => exact absurd rfl hne
  | cons c n' => exact ⟨c, n', rfl, hall c List.mem_cons_self⟩

/-- The front of an integer part is one too. -/
theorem IsInt.take {n : Bytes} (h : IsInt n) {k : Nat} (hk : 0 < k) : IsInt (n.take k) := by
  obtain ⟨c, n', rfl, -⟩ := h.head
  obtain ⟨k, rfl⟩ := Nat.exists_eq_succ_of_ne_zero hk.ne'
  refine ⟨List.cons_ne_nil _ _, fun d hd => h.2.1 d (List.mem_of_mem_take hd), fun hzero => ?_⟩
  obtain rfl := Option.some.inj hzero
  rw [h.2.2 rfl]
  simp

theorem IsNumber.kindAt {l : Bytes} (h : IsNumber l) (o : Bytes) :
    (l ++ o).head?.bind kindAt = some .number := by
  obtain ⟨m, n, f, e, hm, hn, -, -, rfl⟩ := h
  rcases hm with rfl | rfl
  · obtain ⟨c, n', rfl, hc⟩ := hn.head
    exact kindAt_digit hc
  · rfl

/-- The first byte of a value tells its kind. -/
theorem Derives.kindAt {i o : Bytes} {v : Value} (h : Derives i (.value v) o) :
    i.head?.bind kindAt = some v.kind := by
  cases h with
  | number hi hl => exact hi ▸ hl.kindAt o
  | null hi | true hi | false hi | string hi | emptyArray hi | array hi | emptyObject hi
  | object hi => exact hi ▸ rfl

/-! ## Where white space and numbers end -/

/-- Nothing that begins a token of its own is white space. -/
def TokenStart (o : Bytes) : Prop := ∀ c, o.head? = some c → ¬ IsWs c

theorem tokenStart_cons {c : UInt8} {o : Bytes} (hc : ¬ IsWs c := by decide) :
    TokenStart (c :: o) := by
  intro c' h
  cases h
  exact hc

theorem Derives.tokenStart {i o : Bytes} {v : Value} (h : Derives i (.value v) o) :
    TokenStart i := by
  intro c hc hws
  have hk := h.kindAt
  rw [hc, Option.bind_some, kindAt_ws hws] at hk
  cases hk

/-- White space is as long as it can be before a token. -/
theorem Ws.unique {i o o' : Bytes} (h : Ws i o) (h' : Ws i o') (ho : TokenStart o)
    (ho' : TokenStart o') : o' = o := by
  obtain ⟨w, hw, rfl⟩ := h
  obtain ⟨w', hw', heq⟩ := h'
  exact (span_unique hw hw' ho ho' heq).2

/-- Two tokens after white space are one. -/
theorem Ws.unique_cons {i o o' : Bytes} {c c' : UInt8} (h : Ws i (c :: o)) (h' : Ws i (c' :: o'))
    (hc : ¬ IsWs c := by decide) (hc' : ¬ IsWs c' := by decide) : c' = c ∧ o' = o :=
  List.cons_eq_cons.mp (h.unique h' (tokenStart_cons hc) (tokenStart_cons hc'))

/-- A number does not go on over white space, nor into a byte that occurs in no number. -/
theorem Ws.numberEnd {i o : Bytes} (h : Ws i o) (ho : NumberEnd o) : NumberEnd i := by
  obtain ⟨w, hw, rfl⟩ := h
  cases w with
  | nil => exact ho
  | cons c w =>
    intro c' hc'
    cases hc'
    rcases hw c List.mem_cons_self with rfl | rfl | rfl | rfl <;> decide

theorem numberEnd_cons {c : UInt8} {o : Bytes} (hc : ¬ IsNumberByte c := by decide) :
    NumberEnd (c :: o) := by
  intro c' h
  cases h
  exact hc

theorem numberEnd_nil : NumberEnd [] := nofun

theorem IsNumber.isNumberByte {l : Bytes} (h : IsNumber l) : ∀ c ∈ l, IsNumberByte c := by
  obtain ⟨m, n, f, e, hm, hn, hf, he, rfl⟩ := h
  have hdigits : ∀ {d : Bytes}, (∀ c ∈ d, IsDigit c) → ∀ c ∈ d, IsNumberByte c :=
    fun hd c hc => Or.inl (hd c hc)
  refine List.forall_mem_append.mpr ⟨?_, List.forall_mem_append.mpr ⟨hdigits hn.2.1,
    List.forall_mem_append.mpr ⟨?_, ?_⟩⟩⟩
  · rcases hm with rfl | rfl
    · nofun
    · exact List.forall_mem_singleton.mpr (by decide)
  · rcases hf with rfl | ⟨d, -, hd, rfl⟩
    · nofun
    · exact List.forall_mem_cons.mpr ⟨by decide, hdigits hd⟩
  · rcases he with rfl | ⟨e, s, d, he, hs, -, hd, rfl⟩
    · nofun
    · refine List.forall_mem_cons.mpr ⟨?_, List.forall_mem_append.mpr ⟨?_, hdigits hd⟩⟩
      · rcases he with rfl | rfl <;> decide
      · rcases hs with rfl | rfl | rfl
        · nofun
        · exact List.forall_mem_singleton.mpr (by decide)
        · exact List.forall_mem_singleton.mpr (by decide)

/-- A number is as long as it can be. -/
theorem IsNumber.unique {l l' o o' : Bytes} (h : IsNumber l) (h' : IsNumber l')
    (heq : l ++ o = l' ++ o') (ho : NumberEnd o) (ho' : NumberEnd o') : l' = l ∧ o' = o :=
  span_unique h.isNumberByte h'.isNumberByte ho ho' heq

/-! ## The grammar is unambiguous -/

/-- A string is read in one way. -/
theorem Characters.unique {i o : Bytes} {s : List Character} (h : Characters i s o) :
    ∀ {s' o'}, Characters i s' o' → s' = s ∧ o' = o := by
  have hquote : ¬ IsUnescaped quotationMark := by decide
  have hescape : ¬ IsUnescaped escape := by decide
  induction h with
  | close =>
    rintro s' o' (_ | hc)
    · exact ⟨rfl, rfl⟩
    · exact absurd hc hquote
  | unescaped hc _ ih =>
    rintro s' o' (_ | ⟨-, h'⟩ | ⟨-, h'⟩ | ⟨-, -, -, -, h'⟩)
    · exact absurd hc hquote
    · obtain ⟨rfl, rfl⟩ := ih h'
      exact ⟨rfl, rfl⟩
    · exact absurd hc hescape
    · exact absurd hc hescape
  | escaped he _ ih =>
    rintro s' o' (_ | ⟨hc, -⟩ | ⟨he', h'⟩ | ⟨-, -, -, -, h'⟩)
    · exact absurd hc hescape
    · obtain ⟨rfl, rfl⟩ := ih h'
      rw [he] at he'
      cases he'
      exact ⟨rfl, rfl⟩
    · cases he
  | unit ha hb hc hd _ ih =>
    rintro s' o' (_ | ⟨hu, -⟩ | ⟨he, h'⟩ | ⟨ha', hb', hc', hd', h'⟩)
    · exact absurd hu hescape
    · cases he
    · obtain ⟨rfl, rfl⟩ := ih h'
      rw [ha] at ha'
      rw [hb] at hb'
      rw [hc] at hc'
      rw [hd] at hd'
      cases ha'
      cases hb'
      cases hc'
      cases hd'
      exact ⟨rfl, rfl⟩

/-- The name of a member is read in one way, up to its value. -/
theorem memberName_unique {i i₁ i₂ i₃ i₄ j₁ j₂ j₃ j₄ : Bytes} {s s' : List Character}
    (hi : i = quotationMark :: i₁) (hs : Characters i₁ s i₂) (hw : Ws i₂ (nameSeparator :: i₃))
    (hw₂ : Ws i₃ i₄) (hv : TokenStart i₄) (hi' : i = quotationMark :: j₁)
    (hs' : Characters j₁ s' j₂) (hw' : Ws j₂ (nameSeparator :: j₃)) (hw₂' : Ws j₃ j₄)
    (hv' : TokenStart j₄) : s' = s ∧ j₄ = i₄ := by
  obtain ⟨-, rfl⟩ := List.cons_eq_cons.mp (hi.symm.trans hi')
  obtain ⟨rfl, rfl⟩ := hs.unique hs'
  obtain ⟨-, rfl⟩ := hw.unique_cons hw'
  exact ⟨rfl, hw₂.unique hw₂' hv hv'⟩

/-- The only way to read a phrase of this kind from `i`; a value only where a number would end. -/
def Phrase.OnlyReading (i o : Bytes) : Phrase → Prop
  | .value v => NumberEnd o → ∀ w o', Derives i (.value w) o' → NumberEnd o' → w = v ∧ o' = o
  | .elements vs => ∀ ws o', Derives i (.elements ws) o' → ws = vs ∧ o' = o
  | .members ms => ∀ ms' o', Derives i (.members ms') o' → ms' = ms ∧ o' = o

/-- No value begins with a closing bracket. -/
theorem Derives.ne_endArray {i o o' : Bytes} {v : Value} (h : Derives i (.value v) o) :
    i ≠ endArray :: o' := by
  rintro rfl
  cases h.kindAt

theorem Derives.elements_value {i o : Bytes} {vs : List Value} (h : Derives i (.elements vs) o) :
    ∃ v o', Derives i (.value v) o' := by
  cases h with
  | lastElement hv => exact ⟨_, _, hv⟩
  | element hv => exact ⟨_, _, hv⟩

theorem Derives.members_head {i o : Bytes} {ms : List (List Character × Value)}
    (h : Derives i (.members ms) o) : ∃ i', i = quotationMark :: i' := by
  cases h with
  | lastMember hi => exact ⟨_, hi⟩
  | member hi => exact ⟨_, hi⟩

/-- What is read from one input is of one kind. -/
theorem Derives.kind_unique {i o o' : Bytes} {v w : Value} (h : Derives i (.value v) o)
    (h' : Derives i (.value w) o') : w.kind = v.kind :=
  Option.some_inj.mp (h'.kindAt.symm.trans h.kindAt)

/-- No element begins with white space, and no member. -/
theorem Derives.elements_tokenStart {i o : Bytes} {vs : List Value}
    (h : Derives i (.elements vs) o) : TokenStart i := by
  obtain ⟨v, o', hv⟩ := h.elements_value
  exact hv.tokenStart

theorem Derives.members_tokenStart {i o : Bytes} {ms : List (List Character × Value)}
    (h : Derives i (.members ms) o) : TokenStart i := by
  obtain ⟨i', rfl⟩ := h.members_head
  exact tokenStart_cons

/-- After the opening bracket there is either the closing one or a first element. -/
theorem Derives.not_elements_of_end {i i' o o' : Bytes} {vs : List Value}
    (hw : Ws i (endArray :: o))
    (hw' : Ws i i') (h : Derives i' (.elements vs) o') : False := by
  have heq := hw.unique hw' tokenStart_cons h.elements_tokenStart
  obtain ⟨v, o'', hv⟩ := h.elements_value
  exact hv.ne_endArray heq

theorem Derives.not_members_of_end {i i' o o' : Bytes} {ms : List (List Character × Value)}
    (hw : Ws i (endObject :: o)) (hw' : Ws i i') (h : Derives i' (.members ms) o') : False := by
  have heq := hw.unique hw' tokenStart_cons h.members_tokenStart
  obtain ⟨i'', hi⟩ := h.members_head
  exact absurd (List.cons_eq_cons.mp (hi.symm.trans heq)).1 (by decide)

/-- **There is one way to read a phrase.** -/
theorem Derives.onlyReading {i o : Bytes} {φ : Phrase} (h : Derives i φ o) :
    φ.OnlyReading i o := by
  have hendArray : ∀ {i o}, Ws i (endArray :: o) → NumberEnd i :=
    fun h => h.numberEnd numberEnd_cons
  have hendObject : ∀ {i o}, Ws i (endObject :: o) → NumberEnd i :=
    fun h => h.numberEnd numberEnd_cons
  have hendValue : ∀ {i o}, Ws i (valueSeparator :: o) → NumberEnd i :=
    fun h => h.numberEnd numberEnd_cons
  induction h with
  | null hi =>
    intro _ w o' h' _
    have hk := (Derives.null hi).kind_unique h'
    cases h' with
    | null hi' => exact ⟨rfl, List.append_cancel_left (hi'.symm.trans hi)⟩
    | _ => cases hk
  | true hi =>
    intro _ w o' h' _
    have hk := (Derives.true hi).kind_unique h'
    cases h' with
    | true hi' => exact ⟨rfl, List.append_cancel_left (hi'.symm.trans hi)⟩
    | _ => cases hk
  | false hi =>
    intro _ w o' h' _
    have hk := (Derives.false hi).kind_unique h'
    cases h' with
    | false hi' => exact ⟨rfl, List.append_cancel_left (hi'.symm.trans hi)⟩
    | _ => cases hk
  | number hi hl =>
    intro hend w o' h' hend'
    have hk := (Derives.number hi hl).kind_unique h'
    cases h' with
    | number hi' hl' =>
      obtain ⟨rfl, rfl⟩ := hl.unique hl' (hi.symm.trans hi') hend hend'
      exact ⟨rfl, rfl⟩
    | _ => cases hk
  | string hi hs =>
    intro _ w o' h' _
    have hk := (Derives.string hi hs).kind_unique h'
    cases h' with
    | string hi' hs' =>
      obtain ⟨-, rfl⟩ := List.cons_eq_cons.mp (hi.symm.trans hi')
      obtain ⟨rfl, rfl⟩ := hs.unique hs'
      exact ⟨rfl, rfl⟩
    | _ => cases hk
  | emptyArray hi hw =>
    intro _ w o' h' _
    have hk := (Derives.emptyArray hi hw).kind_unique h'
    cases h' with
    | emptyArray hi' hw' =>
      obtain ⟨-, rfl⟩ := List.cons_eq_cons.mp (hi.symm.trans hi')
      exact ⟨rfl, (hw.unique_cons hw').2⟩
    | array hi' hw' hvs' =>
      obtain ⟨-, rfl⟩ := List.cons_eq_cons.mp (hi.symm.trans hi')
      exact (not_elements_of_end hw hw' hvs').elim
    | _ => cases hk
  | array hi hw hvs ih =>
    intro _ w o' h' _
    have hk := (Derives.array hi hw hvs).kind_unique h'
    cases h' with
    | emptyArray hi' hw' =>
      obtain ⟨-, rfl⟩ := List.cons_eq_cons.mp (hi.symm.trans hi')
      exact (not_elements_of_end hw' hw hvs).elim
    | array hi' hw' hvs' =>
      obtain ⟨-, rfl⟩ := List.cons_eq_cons.mp (hi.symm.trans hi')
      obtain rfl := hw.unique hw' hvs.elements_tokenStart hvs'.elements_tokenStart
      obtain ⟨rfl, rfl⟩ := ih _ _ hvs'
      exact ⟨rfl, rfl⟩
    | _ => cases hk
  | emptyObject hi hw =>
    intro _ w o' h' _
    have hk := (Derives.emptyObject hi hw).kind_unique h'
    cases h' with
    | emptyObject hi' hw' =>
      obtain ⟨-, rfl⟩ := List.cons_eq_cons.mp (hi.symm.trans hi')
      exact ⟨rfl, (hw.unique_cons hw').2⟩
    | object hi' hw' hms' =>
      obtain ⟨-, rfl⟩ := List.cons_eq_cons.mp (hi.symm.trans hi')
      exact (not_members_of_end hw hw' hms').elim
    | _ => cases hk
  | object hi hw hms ih =>
    intro _ w o' h' _
    have hk := (Derives.object hi hw hms).kind_unique h'
    cases h' with
    | emptyObject hi' hw' =>
      obtain ⟨-, rfl⟩ := List.cons_eq_cons.mp (hi.symm.trans hi')
      exact (not_members_of_end hw' hw hms).elim
    | object hi' hw' hms' =>
      obtain ⟨-, rfl⟩ := List.cons_eq_cons.mp (hi.symm.trans hi')
      obtain rfl := hw.unique hw' hms.members_tokenStart hms'.members_tokenStart
      obtain ⟨rfl, rfl⟩ := ih _ _ hms'
      exact ⟨rfl, rfl⟩
    | _ => cases hk
  | lastElement hv hw ih =>
    intro ws o' h'
    cases h' with
    | lastElement hv' hw' =>
      obtain ⟨rfl, rfl⟩ := ih (hendArray hw) _ _ hv' (hendArray hw')
      exact ⟨rfl, (hw.unique_cons hw').2⟩
    | element hv' hw' =>
      obtain ⟨rfl, rfl⟩ := ih (hendArray hw) _ _ hv' (hendValue hw')
      exact absurd (hw.unique_cons hw').1 (by decide)
  | element hv hw hw₂ hvs ihv ih =>
    intro ws o' h'
    cases h' with
    | lastElement hv' hw' =>
      obtain ⟨rfl, rfl⟩ := ihv (hendValue hw) _ _ hv' (hendArray hw')
      exact absurd (hw.unique_cons hw').1 (by decide)
    | element hv' hw' hw₂' hvs' =>
      obtain ⟨rfl, rfl⟩ := ihv (hendValue hw) _ _ hv' (hendValue hw')
      obtain ⟨-, rfl⟩ := hw.unique_cons hw'
      obtain rfl := hw₂.unique hw₂' hvs.elements_tokenStart hvs'.elements_tokenStart
      obtain ⟨rfl, rfl⟩ := ih _ _ hvs'
      exact ⟨rfl, rfl⟩
  | lastMember hi hs hw hw₂ hv hend ih =>
    intro ms' o' h'
    cases h' with
    | lastMember hi' hs' hw' hw₂' hv' hend' =>
      obtain ⟨rfl, rfl⟩ := memberName_unique hi hs hw hw₂ hv.tokenStart hi' hs' hw' hw₂'
        hv'.tokenStart
      obtain ⟨rfl, rfl⟩ := ih (hendObject hend) _ _ hv' (hendObject hend')
      exact ⟨rfl, (hend.unique_cons hend').2⟩
    | member hi' hs' hw' hw₂' hv' hsep' =>
      obtain ⟨rfl, rfl⟩ := memberName_unique hi hs hw hw₂ hv.tokenStart hi' hs' hw' hw₂'
        hv'.tokenStart
      obtain ⟨rfl, rfl⟩ := ih (hendObject hend) _ _ hv' (hendValue hsep')
      exact absurd (hend.unique_cons hsep').1 (by decide)
  | member hi hs hw hw₂ hv hsep hw₃ hms ihv ih =>
    intro ms' o' h'
    cases h' with
    | lastMember hi' hs' hw' hw₂' hv' hend' =>
      obtain ⟨rfl, rfl⟩ := memberName_unique hi hs hw hw₂ hv.tokenStart hi' hs' hw' hw₂'
        hv'.tokenStart
      obtain ⟨rfl, rfl⟩ := ihv (hendValue hsep) _ _ hv' (hendObject hend')
      exact absurd (hsep.unique_cons hend').1 (by decide)
    | member hi' hs' hw' hw₂' hv' hsep' hw₃' hms' =>
      obtain ⟨rfl, rfl⟩ := memberName_unique hi hs hw hw₂ hv.tokenStart hi' hs' hw' hw₂'
        hv'.tokenStart
      obtain ⟨rfl, rfl⟩ := ihv (hendValue hsep) _ _ hv' (hendValue hsep')
      obtain ⟨-, rfl⟩ := hsep.unique_cons hsep'
      obtain rfl := hw₃.unique hw₃' hms.members_tokenStart hms'.members_tokenStart
      obtain ⟨rfl, rfl⟩ := ih _ _ hms'
      exact ⟨rfl, rfl⟩

/-- **A text has one value.** -/
theorem Text.unique {s : Bytes} {v w : Value} (h : Text s v) (h' : Text s w) : w = v := by
  obtain ⟨i, o, hi, hv, ho⟩ := h
  obtain ⟨i', o', hi', hw, ho'⟩ := h'
  obtain rfl := hi.unique hi' hv.tokenStart hw.tokenStart
  exact (hv.onlyReading (ho.numberEnd numberEnd_nil) _ _ hw (ho'.numberEnd numberEnd_nil)).1

/-- A text is not empty. -/
theorem Text.ne_nil {s : Bytes} {v : Value} (h : Text s v) : s ≠ [] := by
  rintro rfl
  obtain ⟨i, o, ⟨w, -, hw⟩, hv, -⟩ := h
  obtain ⟨-, rfl⟩ := List.append_eq_nil_iff.mp hw.symm
  cases hv.kindAt

/-! ## Integers -/

/-- The numeral of a number is an integer part. -/
theorem isInt_digits (n : Nat) : IsInt (digits n) := by
  refine ⟨digits_ne_nil n, isDigit_of_mem_digits n, fun h => ?_⟩
  cases hd : digits n with
  | nil => exact absurd hd (digits_ne_nil n)
  | cons c l =>
    rw [hd, List.head?_cons, Option.some_inj] at h
    subst h
    rw [digits_head_zero n hd]

/-- The numeral of an integer is a number. -/
theorem isNumber_numeral (n : Int) : IsNumber (numeral n) := by
  refine ⟨if n < 0 then [minus] else [], _, [], [], ?_, isInt_digits n.natAbs, Or.inl rfl,
    Or.inl rfl, ?_⟩
  · split_ifs
    · exact Or.inr rfl
    · exact Or.inl rfl
  · rw [List.append_nil, List.append_nil]
    rfl

end Ssms.Lib.Rfc8259
