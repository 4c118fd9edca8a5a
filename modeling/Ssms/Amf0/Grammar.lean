import Ssms.Amf0.Encode

/-!
# The grammar of AMF0 values

`Derives R i φ o`: reading the phrase `φ` from input `i` leaves `o`. The rules follow the grammar
comments of `srs_protocol_amf0.hpp`. Where readers of the format can differ, they ask `R`: what a
UTF-8 item is, how many elements a strict array with a given `array-count` has, and whether the end
of the input closes a container.

A phrase is a value, what is left of a property table (from the entries read so far to the finished
table), or a number of array elements. Duplicate keys are merged as `SrsUnSortedHashtable::set`
does.

* `decoder`: what `srs_amf0_read_any` accepts (shown in the decoder's module).
* `complete`: the runs of the decoder in which no container was closed by the end of the input and
  every strict array got its declared number of elements.
* `strict`: the documented format, complete values only.
* `documented cut`: the documented format, where the end of the input may close a container if
  `cut`; lengths and counts that do not fit the code's signed fields are left open.
-/

namespace Ssms.Amf0

open Ssms.Kernel Ssms.Lib.BigEndian Ssms.Lib.Reading Ssms.Protocol

/-- What the rules leave open. -/
structure Rules where
  utf8 : ReadRel Bytes Bytes
  count : BitVec 32 → Nat → Prop
  cut : Prop
  /-- An item is read from the front. -/
  suffix : ∀ {i s o}, utf8 i s o → o <:+ i

/-- What can be read. -/
inductive Phrase where
  | any (v : SrsAmf0Any)
  | properties (acc ps : List (Bytes × SrsAmf0Any))
  | elements (n : Nat) (ps : List SrsAmf0Any)

/-- The next bytes are the end marker of an object. -/
abbrev AtObjectEof (i : Bytes) : Prop := encodeObjectEof <+: i

/-- **Reading `φ` from the first input leaves the second.** -/
inductive Derives (R : Rules) : Bytes → Phrase → Bytes → Prop
  | objectEOF {i o} (hi : i = encodeObjectEof ++ o) : Derives R i (.any .objectEOF) o
  | number {i o l} (hi : i = rtmpAmf0Number :: (l ++ o)) (hl : l.length = 8)
      (heof : ¬ AtObjectEof i) : Derives R i (.any (.number (BitVec.ofNat 64 (ofBytes l)))) o
  | boolean {i o x} (hi : i = rtmpAmf0Boolean :: x :: o) :
      Derives R i (.any (.boolean (decide (x ≠ 0)))) o
  | string {i i' o value} (hi : i = rtmpAmf0String :: i') (hvalue : R.utf8 i' value o) :
      Derives R i (.any (.string value)) o
  | date {i o l l'} (hi : i = rtmpAmf0Date :: (l ++ (l' ++ o))) (hl : l.length = 8)
      (hl' : l'.length = 2) :
      Derives R i (.any (.date (BitVec.ofNat 64 (ofBytes l)) (BitVec.ofNat 16 (ofBytes l')))) o
  | null {i o} (hi : i = rtmpAmf0Null :: o) : Derives R i (.any .null) o
  | undefined {i o} (hi : i = rtmpAmf0Undefined :: o) : Derives R i (.any .undefined) o
  | object {i i' o ps} (hi : i = rtmpAmf0Object :: i') (hps : Derives R i' (.properties [] ps) o) :
      Derives R i (.any (.object ps)) o
  | ecmaArray {i i' o l ps} (hi : i = rtmpAmf0EcmaArray :: (l ++ i')) (hl : l.length = 4)
      (hps : Derives R i' (.properties [] ps) o) :
      Derives R i (.any (.ecmaArray (BitVec.ofNat 32 (ofBytes l)) ps)) o
  | strictArray {i i' o l n ps} (hi : i = rtmpAmf0StrictArray :: (l ++ i')) (hl : l.length = 4)
      (hn : R.count (BitVec.ofNat 32 (ofBytes l)) n) (hps : Derives R i' (.elements n ps) o) :
      Derives R i (.any (.strictArray (BitVec.ofNat 32 (ofBytes l)) ps)) o
  | propertiesEnd {i o ps} (hi : i = encodeObjectEof ++ o) : Derives R i (.properties ps ps) o
  | propertiesCut {ps} (hcut : R.cut) : Derives R [] (.properties ps ps) []
  | property {i i₁ i₂ o name value acc ps} (heof : ¬ AtObjectEof i) (hname : R.utf8 i name i₁)
      (hvalue : Derives R i₁ (.any value) i₂)
      (hps : Derives R i₂ (.properties (SrsUnSortedHashtable.set acc name (some value)) ps) o) :
      Derives R i (.properties acc ps) o
  | elementsEnd {i} : Derives R i (.elements 0 []) i
  | elementsCut {n} (hcut : R.cut) : Derives R [] (.elements (n + 1) []) []
  | element {i i₁ o n v ps} (hv : Derives R i (.any v) i₁) (hps : Derives R i₁ (.elements n ps) o) :
      Derives R i (.elements (n + 1) (v :: ps)) o

/-! ## Reader rules -/

/-- The signed length of a UTF-8 item. -/
def utf8Length (l : Bytes) : Int := (BitVec.ofNat 16 (ofBytes l)).toInt

/-- `srs_amf0_read_utf8`: an item whose signed length is not positive leaves `value` as it is. -/
def decodedUtf8 (value : Bytes) : ReadRel Bytes Bytes := fun i s o =>
  ∃ l r, l.length = 2 ∧ i = l ++ r ∧
    ((utf8Length l ≤ 0 ∧ s = value ∧ o = r) ∨
      (0 < utf8Length l ∧ s.length = (utf8Length l).toNat ∧ r = s ++ o))

theorem decodedUtf8_suffix {value i s o : Bytes} (h : decodedUtf8 value i s o) : o <:+ i := by
  obtain ⟨l, r, -, rfl, h⟩ := h
  rcases h with ⟨-, -, rfl⟩ | ⟨-, -, rfl⟩
  · exact List.suffix_append _ _
  · exact (List.suffix_append s o).trans (List.suffix_append _ _)

/-- `UTF-8 = U16 *(UTF8-char)`. -/
def exactUtf8 : ReadRel Bytes Bytes := fun i s o =>
  ∃ l, l.length = 2 ∧ s.length = ofBytes l ∧ i = l ++ (s ++ o)

/-- The rules of `srs_amf0_read_any`. -/
def decoder : Rules where
  utf8 := decodedUtf8 []
  count c n := n = c.toInt.toNat
  cut := True
  suffix := decodedUtf8_suffix

/-- The rules of its runs that end every container properly. -/
def complete : Rules where
  utf8 := decodedUtf8 []
  count c n := (n : Int) = c.toInt
  cut := False
  suffix := decodedUtf8_suffix

/-- The documented format. -/
def strict : Rules where
  utf8 := exactUtf8
  count c n := n = c.toNat
  cut := False
  suffix := by
    rintro _ s o ⟨l, -, -, rfl⟩
    exact ⟨l ++ s, List.append_assoc l s o⟩

/-- The documented format with containers closed by the end of the input if `cut`, for lengths below
`2 ^ 15` and counts below `2 ^ 31`. -/
def documented (cut : Prop) : Rules where
  utf8 i s o := ∃ l r, l.length = 2 ∧ i = l ++ r ∧ o <:+ r ∧
    (ofBytes l < 2 ^ 15 → s.length = ofBytes l ∧ r = s ++ o)
  count c n := c.toNat < 2 ^ 31 → n = c.toNat
  cut := cut
  suffix := by
    rintro _ s o ⟨l, r, -, rfl, ho, -⟩
    exact ho.trans (List.suffix_append l r)

/-! ## One step of a container -/

theorem derives_properties_iff {R : Rules} {i o : Bytes} {acc ps : List (Bytes × SrsAmf0Any)} :
    Derives R i (.properties acc ps) o ↔
      (i = encodeObjectEof ++ o ∧ ps = acc) ∨ (R.cut ∧ i = [] ∧ o = [] ∧ ps = acc) ∨
      (¬ AtObjectEof i ∧ ∃ name i₁, R.utf8 i name i₁ ∧ ∃ value i₂, Derives R i₁ (.any value) i₂ ∧
        Derives R i₂ (.properties (SrsUnSortedHashtable.set acc name (some value)) ps) o) := by
  constructor
  · intro h
    cases h with
    | propertiesEnd hi => exact Or.inl ⟨hi, rfl⟩
    | propertiesCut hcut => exact Or.inr (Or.inl ⟨hcut, rfl, rfl, rfl⟩)
    | property heof hname hvalue hps =>
      exact Or.inr (Or.inr ⟨heof, _, _, hname, _, _, hvalue, hps⟩)
  · rintro (⟨hi, rfl⟩ | ⟨hcut, rfl, rfl, rfl⟩ | ⟨heof, _, _, hname, _, _, hvalue, hps⟩)
    · exact .propertiesEnd hi
    · exact .propertiesCut hcut
    · exact .property heof hname hvalue hps

theorem derives_elements_zero_iff {R : Rules} {i o : Bytes} {ps : List SrsAmf0Any} :
    Derives R i (.elements 0 ps) o ↔ ps = [] ∧ o = i := by
  constructor
  · intro h
    cases h with
    | elementsEnd => exact ⟨rfl, rfl⟩
  · rintro ⟨rfl, rfl⟩
    exact .elementsEnd

theorem derives_elements_succ_iff {R : Rules} {i o : Bytes} {n : Nat} {ps : List SrsAmf0Any} :
    Derives R i (.elements (n + 1) ps) o ↔ (R.cut ∧ i = [] ∧ o = [] ∧ ps = []) ∨
      ∃ v i₁, Derives R i (.any v) i₁ ∧ ∃ ps', Derives R i₁ (.elements n ps') o ∧
        ps = v :: ps' := by
  constructor
  · intro h
    cases h with
    | elementsCut hcut => exact Or.inl ⟨hcut, rfl, rfl, rfl⟩
    | element hv hps => exact Or.inr ⟨_, _, hv, _, hps, rfl⟩
  · rintro (⟨hcut, rfl, rfl, rfl⟩ | ⟨v, i₁, hv, ps', hps, rfl⟩)
    · exact .elementsCut hcut
    · exact .element hv hps

/-! ## Moving forward -/

namespace Derives

/-- A derivation reads from the front of its input. -/
theorem suffix {R : Rules} {i o : Bytes} {φ : Phrase} (h : Derives R i φ o) : o <:+ i := by
  induction h with
  | objectEOF hi | propertiesEnd hi => exact hi ▸ List.suffix_append _ _
  | @number _ o l hi => exact hi ▸ (List.suffix_append l o).trans (List.suffix_cons _ _)
  | @boolean _ o x hi => exact hi ▸ (List.suffix_cons x o).trans (List.suffix_cons _ _)
  | string hi hvalue => exact hi ▸ (R.suffix hvalue).trans (List.suffix_cons _ _)
  | @date _ o l l' hi =>
    exact hi ▸ ((List.suffix_append l' o).trans (List.suffix_append l _)).trans
      (List.suffix_cons _ _)
  | null hi | undefined hi => exact hi ▸ List.suffix_cons _ _
  | object hi _ ih => exact hi ▸ ih.trans (List.suffix_cons _ _)
  | @ecmaArray _ i' _ l _ hi _ _ ih =>
    exact hi ▸ (ih.trans (List.suffix_append l i')).trans (List.suffix_cons _ _)
  | @strictArray _ i' _ l _ _ hi _ _ _ ih =>
    exact hi ▸ (ih.trans (List.suffix_append l i')).trans (List.suffix_cons _ _)
  | propertiesCut | elementsCut | elementsEnd => exact List.suffix_refl _
  | property _ hname _ _ ihv ihps => exact (ihps.trans ihv).trans (R.suffix hname)
  | element _ _ ihv ihps => exact ihps.trans ihv

/-- A derivation carries over to weaker rules. The end of the input closes a container only where
nothing is left, so `cut` matters only there. -/
theorem mono {R R' : Rules} (hutf8 : ∀ i s o, R.utf8 i s o → R'.utf8 i s o)
    (hcount : ∀ c n, R.count c n → R'.count c n) {i o : Bytes} {φ : Phrase}
    (h : Derives R i φ o) : (R.cut → o = [] → R'.cut) → Derives R' i φ o := by
  have hnil : ∀ {i o : Bytes} {φ : Phrase}, Derives R i φ o → i = [] → o = [] :=
    fun h hi => List.suffix_nil.mp (hi ▸ h.suffix)
  induction h with
  | objectEOF hi => exact fun _ => .objectEOF hi
  | number hi hl heof => exact fun _ => .number hi hl heof
  | boolean hi => exact fun _ => .boolean hi
  | string hi hvalue => exact fun _ => .string hi (hutf8 _ _ _ hvalue)
  | date hi hl hl' => exact fun _ => .date hi hl hl'
  | null hi => exact fun _ => .null hi
  | undefined hi => exact fun _ => .undefined hi
  | object hi _ ih => exact fun hcut => .object hi (ih hcut)
  | ecmaArray hi hl _ ih => exact fun hcut => .ecmaArray hi hl (ih hcut)
  | strictArray hi hl hn _ ih => exact fun hcut => .strictArray hi hl (hcount _ _ hn) (ih hcut)
  | propertiesEnd hi => exact fun _ => .propertiesEnd hi
  | propertiesCut h => exact fun hcut => .propertiesCut (hcut h rfl)
  | property heof hname _ hps ihv ihps =>
    exact fun hcut => .property heof (hutf8 _ _ _ hname) (ihv fun h ho => hcut h (hnil hps ho))
      (ihps hcut)
  | elementsEnd => exact fun _ => .elementsEnd
  | elementsCut h => exact fun hcut => .elementsCut (hcut h rfl)
  | element _ hps ihv ihps =>
    exact fun hcut => .element (ihv fun h ho => hcut h (hnil hps ho)) (ihps hcut)

theorem any_ne_nil {R : Rules} {o : Bytes} {v : SrsAmf0Any} : ¬ Derives R [] (.any v) o := by
  generalize hi : ([] : Bytes) = i
  intro h
  cases h <;> subst hi <;> simp_all [encodeObjectEof]

/-- What follows a value follows its first byte. -/
theorem suffix_tail {R : Rules} {i o : Bytes} {v : SrsAmf0Any} (h : Derives R i (.any v) o) :
    o <:+ i.tail := by
  cases h with
  | objectEOF hi => exact hi ▸ List.suffix_append [0x00, rtmpAmf0ObjectEnd] o
  | number hi => exact hi ▸ List.suffix_append _ o
  | boolean hi => exact hi ▸ List.suffix_cons _ o
  | string hi hvalue => exact hi ▸ R.suffix hvalue
  | @date _ _ l l' hi => exact hi ▸ (List.suffix_append l' o).trans (List.suffix_append l _)
  | null hi | undefined hi => exact hi ▸ List.suffix_refl o
  | object hi hps => exact hi ▸ hps.suffix
  | ecmaArray hi hl hps => exact hi ▸ hps.suffix.trans (List.suffix_append _ _)
  | strictArray hi hl hn hps => exact hi ▸ hps.suffix.trans (List.suffix_append _ _)

/-- **A value takes at least a byte.** -/
theorem length_lt {R : Rules} {i o : Bytes} {v : SrsAmf0Any} (h : Derives R i (.any v) o) :
    o.length < i.length := by
  have hle := h.suffix_tail.length_le
  cases i with
  | nil => exact absurd h any_ne_nil
  | cons x i => exact Nat.lt_succ_of_le hle

end Derives

end Ssms.Amf0
