import Ssms.Lib.Everywhere
import Ssms.Lib.Wrap
import Ssms.Protocol.PropertyTable

/-!
# AMF0 values (`SrsAmf0Any` and its subclasses, `srs_protocol_amf0.hpp`)

One constructor a subclass, with the subclass's fields. A `double` is its 64-bit pattern, which is
all the codec moves; `_date_value`, `_time_zone` and `_count` are the bits of an `int64_t`, an
`int16_t` and an `int32_t`. The property tables of `SrsAmf0Object` and `SrsAmf0EcmaArray` are
vectors in the order of `SrsUnSortedHashtable`; their `eof` member has no fields and is left out.
Children are values, never null pointers: `total_size` and `write` dereference them.

`totalSize` is `total_size()` without the `int` overflow: it is the value the code computes
whenever it is below `2 ^ 31`. The loops of the source count the entries of a table or array with an
`int` and reach `reached` of a value; the functions here go through all entries, which is the same
exactly where there are fewer than `2 ^ 31` in each (`reached_eq_self_iff`), and so it is where the
size is below `2 ^ 31` (`reached_of_totalSize`).
-/

namespace Ssms.Amf0

open Ssms.Kernel Ssms.Protocol Ssms.Lib

/-! ## Markers -/

def rtmpAmf0Number : UInt8 := 0x00
def rtmpAmf0Boolean : UInt8 := 0x01
def rtmpAmf0String : UInt8 := 0x02
def rtmpAmf0Object : UInt8 := 0x03
def rtmpAmf0Null : UInt8 := 0x05
def rtmpAmf0Undefined : UInt8 := 0x06
def rtmpAmf0EcmaArray : UInt8 := 0x08
def rtmpAmf0ObjectEnd : UInt8 := 0x09
def rtmpAmf0StrictArray : UInt8 := 0x0A
def rtmpAmf0Date : UInt8 := 0x0B

/-- An AMF0 value. -/
inductive SrsAmf0Any where
  | string (value : Bytes)
  | boolean (value : Bool)
  | number (value : BitVec 64)
  | date (dateValue : BitVec 64) (timeZone : BitVec 16)
  | null
  | undefined
  | objectEOF
  | object (properties : List (Bytes × SrsAmf0Any))
  | ecmaArray (count : BitVec 32) (properties : List (Bytes × SrsAmf0Any))
  | strictArray (count : BitVec 32) (properties : List SrsAmf0Any)
  deriving Repr

namespace SrsAmf0Any

/-- Induction over a value and the values it holds. -/
@[elab_as_elim, induction_eliminator]
theorem inductionOn {P : SrsAmf0Any → Prop}
    (string : ∀ value, P (.string value))
    (boolean : ∀ value, P (.boolean value))
    (number : ∀ value, P (.number value))
    (date : ∀ dateValue timeZone, P (.date dateValue timeZone))
    (null : P .null)
    (undefined : P .undefined)
    (objectEOF : P .objectEOF)
    (object : ∀ properties, (∀ e ∈ properties, P e.2) → P (.object properties))
    (ecmaArray : ∀ count properties, (∀ e ∈ properties, P e.2) → P (.ecmaArray count properties))
    (strictArray : ∀ count properties, (∀ e ∈ properties, P e) →
      P (.strictArray count properties)) : ∀ v, P v
  | .string value => string value
  | .boolean value => boolean value
  | .number value => number value
  | .date dateValue timeZone => date dateValue timeZone
  | .null => null
  | .undefined => undefined
  | .objectEOF => objectEOF
  | .object properties => object properties (pairs properties)
  | .ecmaArray count properties => ecmaArray count properties (pairs properties)
  | .strictArray count properties => strictArray count properties (elements properties)
where
  pairs : ∀ properties : List (Bytes × SrsAmf0Any), ∀ e ∈ properties, P e.2
    | [] => fun _ h => absurd h List.not_mem_nil
    | (_, v) :: properties => List.forall_mem_cons.mpr
        ⟨inductionOn string boolean number date null undefined objectEOF object ecmaArray
          strictArray v, pairs properties⟩
  elements : ∀ properties : List SrsAmf0Any, ∀ e ∈ properties, P e
    | [] => fun _ h => absurd h List.not_mem_nil
    | v :: properties => List.forall_mem_cons.mpr
        ⟨inductionOn string boolean number date null undefined objectEOF object ecmaArray
          strictArray v, elements properties⟩

/-- The `marker` member. -/
def marker : SrsAmf0Any → UInt8
  | .string _ => rtmpAmf0String
  | .boolean _ => rtmpAmf0Boolean
  | .number _ => rtmpAmf0Number
  | .date _ _ => rtmpAmf0Date
  | .null => rtmpAmf0Null
  | .undefined => rtmpAmf0Undefined
  | .objectEOF => rtmpAmf0ObjectEnd
  | .object _ => rtmpAmf0Object
  | .ecmaArray _ _ => rtmpAmf0EcmaArray
  | .strictArray _ _ => rtmpAmf0StrictArray

/-! ## Values inside a value -/

/-- The property table, empty for the kinds that have none. -/
def table : SrsAmf0Any → List (Bytes × SrsAmf0Any)
  | .object properties => properties
  | .ecmaArray _ properties => properties
  | _ => []

/-- The values directly inside a value. -/
def children : SrsAmf0Any → List SrsAmf0Any
  | .strictArray _ properties => properties
  | v => v.table.map Prod.snd

/-- `P` holds of a value and of every value inside it. -/
abbrev Everywhere (P : SrsAmf0Any → Prop) : SrsAmf0Any → Prop := Lib.Everywhere children P

/-- The values of a table are inside. -/
theorem Everywhere.of_mem_table {P : SrsAmf0Any → Prop} {v : SrsAmf0Any} (h : Everywhere P v)
    {e : Bytes × SrsAmf0Any} (he : e ∈ v.table) : Everywhere P e.2 := by
  refine h.inside e.2 ?_
  cases v with
  | object ps | ecmaArray c ps => exact List.mem_map_of_mem he
  | _ => cases he

/-! ## Factories

`boolean`, `number`, `null`, `undefined` and `object_eof` of the source are the constructors. -/

/-- `SrsAmf0Any::str(value)`: the value is a C string; a null pointer gives the empty string. -/
def str (value : Bytes) : SrsAmf0Any := .string (cStr value)

/-- `SrsAmf0Any::date(value)`. -/
def newDate (value : BitVec 64) : SrsAmf0Any := .date value 0

/-- `SrsAmf0Any::object()`. -/
def newObject : SrsAmf0Any := .object []

/-- `SrsAmf0Any::ecma_array()`. -/
def newEcmaArray : SrsAmf0Any := .ecmaArray 0 []

/-- `SrsAmf0Any::strict_array()`. -/
def newStrictArray : SrsAmf0Any := .strictArray 0 []

end SrsAmf0Any

/-! ## Sizes -/

namespace SrsAmf0Size

def utf8 (value : Bytes) : Nat := 2 + value.length
def str (value : Bytes) : Nat := 1 + utf8 value
def number : Nat := 1 + 8
def date : Nat := 1 + 8 + 2
def null : Nat := 1
def undefined : Nat := 1
def boolean : Nat := 1 + 1
def objectEof : Nat := 2 + 1

end SrsAmf0Size

mutual

/-- `total_size()`. -/
def SrsAmf0Any.totalSize : SrsAmf0Any → Nat
  | .string value => SrsAmf0Size.str value
  | .boolean _ => SrsAmf0Size.boolean
  | .number _ => SrsAmf0Size.number
  | .date _ _ => SrsAmf0Size.date
  | .null => SrsAmf0Size.null
  | .undefined => SrsAmf0Size.undefined
  | .objectEOF => SrsAmf0Size.objectEof
  | .object properties => 1 + propertiesSize properties + SrsAmf0Size.objectEof
  | .ecmaArray _ properties => 1 + 4 + propertiesSize properties + SrsAmf0Size.objectEof
  | .strictArray _ properties => 1 + 4 + elementsSize properties

/-- The loop over the properties in `total_size()`. -/
def propertiesSize : List (Bytes × SrsAmf0Any) → Nat
  | [] => 0
  | (name, value) :: properties =>
    SrsAmf0Size.utf8 name + value.totalSize + propertiesSize properties

/-- The loop over the elements in `total_size()`. -/
def elementsSize : List SrsAmf0Any → Nat
  | [] => 0
  | any :: properties => any.totalSize + elementsSize properties

end

theorem propertiesSize_append (ps qs : List (Bytes × SrsAmf0Any)) :
    propertiesSize (ps ++ qs) = propertiesSize ps + propertiesSize qs := by
  induction ps with
  | nil => simp [propertiesSize]
  | cons e ps ih =>
    obtain ⟨name, value⟩ := e
    simp only [List.cons_append, propertiesSize, ih]
    omega

theorem totalSize_pos (v : SrsAmf0Any) : 0 < v.totalSize := by
  cases v <;> simp only [SrsAmf0Any.totalSize, SrsAmf0Size.str, SrsAmf0Size.boolean,
    SrsAmf0Size.number, SrsAmf0Size.date, SrsAmf0Size.null, SrsAmf0Size.undefined,
    SrsAmf0Size.objectEof] <;> omega

/-- Every element takes a byte. -/
theorem length_le_elementsSize : ∀ ps : List SrsAmf0Any, ps.length ≤ elementsSize ps
  | [] => Nat.zero_le _
  | v :: ps => by
    have h1 := totalSize_pos v
    have h2 := length_le_elementsSize ps
    rw [List.length_cons, elementsSize]
    omega

/-- Removing the properties of one name does not make a table longer to write. -/
theorem propertiesSize_eraseP_le (p : Bytes × SrsAmf0Any → Bool) :
    ∀ ps : List (Bytes × SrsAmf0Any), propertiesSize (ps.eraseP p) ≤ propertiesSize ps
  | [] => le_refl _
  | (name, value) :: ps => by
    have ih := propertiesSize_eraseP_le p ps
    rw [List.eraseP_cons]
    cases p (name, value) <;> simp only [cond_true, cond_false, propertiesSize] <;> omega

theorem propertiesSize_set_le (ps : List (Bytes × SrsAmf0Any)) (name : Bytes) (v : SrsAmf0Any) :
    propertiesSize (SrsUnSortedHashtable.set ps name (some v)) ≤
      propertiesSize ps + (SrsAmf0Size.utf8 name + v.totalSize) := by
  show propertiesSize (ps.eraseP _ ++ [(name, v)]) ≤ _
  rw [propertiesSize_append]
  have h := propertiesSize_eraseP_le (fun elem => decide (name = elem.1)) ps
  simp only [propertiesSize]
  omega

/-! ## Counters -/

mutual

/-- What loops with an `int` as their counter reach of a value. -/
def SrsAmf0Any.reached : SrsAmf0Any → SrsAmf0Any
  | .object properties => .object (reachedTable (passes properties.length) properties)
  | .ecmaArray count properties =>
    .ecmaArray count (reachedTable (passes properties.length) properties)
  | .strictArray count properties =>
    .strictArray count (reachedElements (passes properties.length) properties)
  | v => v

def reachedTable : Nat → List (Bytes × SrsAmf0Any) → List (Bytes × SrsAmf0Any)
  | 0, _ => []
  | _ + 1, [] => []
  | n + 1, (name, any) :: properties => (name, any.reached) :: reachedTable n properties

def reachedElements : Nat → List SrsAmf0Any → List SrsAmf0Any
  | 0, _ => []
  | _ + 1, [] => []
  | n + 1, any :: properties => any.reached :: reachedElements n properties

end

theorem reachedTable_eq (n : Nat) (properties : List (Bytes × SrsAmf0Any)) :
    reachedTable n properties = (properties.take n).map fun e => (e.1, e.2.reached) :=
  eq_map_take (fun _ => by rw [reachedTable]) (fun _ => by rw [reachedTable])
    (fun _ _ _ => by rw [reachedTable]) n _

theorem reachedElements_eq (n : Nat) (properties : List SrsAmf0Any) :
    reachedElements n properties = (properties.take n).map SrsAmf0Any.reached :=
  eq_map_take (fun _ => by rw [reachedElements]) (fun _ => by rw [reachedElements])
    (fun _ _ _ => by rw [reachedElements]) n _

/-- An `int` holds the number of entries. -/
def SrsAmf0Any.ShortVector (v : SrsAmf0Any) : Prop := v.children.length < 2 ^ 31

theorem reachedTable_eq_self_iff {v : SrsAmf0Any} {properties : List (Bytes × SrsAmf0Any)}
    (hv : v.children = properties.map Prod.snd)
    (ih : ∀ e ∈ properties, e.2.reached = e.2 ↔ e.2.Everywhere SrsAmf0Any.ShortVector) :
    reachedTable (passes properties.length) properties = properties ↔
      v.Everywhere SrsAmf0Any.ShortVector := by
  have hshort : v.ShortVector ↔ properties.length < 2 ^ 31 := by
    rw [SrsAmf0Any.ShortVector, hv, List.length_map]
  have hiff := map_take_passes_eq_iff (f := fun e => (e.1, e.2.reached)) (g := id) (l := properties)
  rw [List.map_id] at hiff
  rw [reachedTable_eq, hiff]
  constructor
  · rintro ⟨hlength, heq⟩
    refine .node (hshort.mpr hlength) (hv ▸ List.forall_mem_map.mpr fun e he => ?_)
    exact (ih e he).mp (congrArg Prod.snd (heq e he))
  · intro hs
    refine ⟨hshort.mp hs.here, fun e he => ?_⟩
    rw [(ih e he).mpr (hs.inside e.2 (hv ▸ List.mem_map_of_mem he))]
    rfl

/-- **The loops reach the whole of a value exactly where an `int` holds the lengths of its tables
and arrays.** -/
theorem reached_eq_self_iff {v : SrsAmf0Any} :
    v.reached = v ↔ v.Everywhere SrsAmf0Any.ShortVector := by
  induction v with
  | string | boolean | number | date | null | undefined | objectEOF =>
    exact iff_of_true rfl (.leaf rfl (Nat.two_pow_pos 31))
  | object properties ih =>
    rw [SrsAmf0Any.reached, SrsAmf0Any.object.injEq]
    exact reachedTable_eq_self_iff rfl ih
  | ecmaArray count properties ih =>
    rw [SrsAmf0Any.reached, SrsAmf0Any.ecmaArray.injEq, and_iff_right rfl]
    exact reachedTable_eq_self_iff rfl ih
  | strictArray count properties ih =>
    have hiff := map_take_passes_eq_iff (f := SrsAmf0Any.reached) (g := id) (l := properties)
    rw [List.map_id] at hiff
    rw [SrsAmf0Any.reached, SrsAmf0Any.strictArray.injEq, and_iff_right rfl,
      reachedElements_eq, hiff]
    constructor
    · rintro ⟨hlength, heq⟩
      exact .node hlength fun v hv => (ih v hv).mp (heq v hv)
    · intro hs
      exact ⟨hs.here, fun v hv => (ih v hv).mpr (hs.inside v hv)⟩

/-- Every entry takes a byte, and its value no more than the whole. -/
theorem entry_le_propertiesSize (ps : List (Bytes × SrsAmf0Any)) :
    ps.length ≤ propertiesSize ps ∧ ∀ e ∈ ps, e.2.totalSize ≤ propertiesSize ps := by
  induction ps with
  | nil => exact ⟨Nat.zero_le _, fun e he => absurd he List.not_mem_nil⟩
  | cons e ps ih =>
    obtain ⟨name, value⟩ := e
    obtain ⟨hlength, hvalues⟩ := ih
    rw [propertiesSize, SrsAmf0Size.utf8, List.length_cons]
    refine ⟨by omega, List.forall_mem_cons.mpr ⟨show value.totalSize ≤ _ by omega, ?_⟩⟩
    intro e he
    have := hvalues e he
    omega

theorem totalSize_le_elementsSize {ps : List SrsAmf0Any} {v : SrsAmf0Any} (hv : v ∈ ps) :
    v.totalSize ≤ elementsSize ps := by
  induction ps with
  | nil => exact absurd hv List.not_mem_nil
  | cons any ps ih =>
    rw [elementsSize]
    rcases List.mem_cons.mp hv with rfl | hv
    · exact Nat.le_add_right _ _
    · exact (ih hv).trans (Nat.le_add_left _ _)

/-- **The loops reach the whole of a value that an `int` holds the size of.** -/
theorem reached_of_totalSize {v : SrsAmf0Any} (h : v.totalSize < 2 ^ 31) : v.reached = v := by
  refine reached_eq_self_iff.mpr ?_
  induction v with
  | string | boolean | number | date | null | undefined | objectEOF =>
    exact .leaf rfl (Nat.two_pow_pos 31)
  | object properties ih | ecmaArray _ properties ih =>
    rw [SrsAmf0Any.totalSize] at h
    obtain ⟨hlength, hvalues⟩ := entry_le_propertiesSize properties
    refine .node ?_ (List.forall_mem_map.mpr fun e he => ih e he ?_)
    · show (properties.map Prod.snd).length < 2 ^ 31
      rw [List.length_map]
      omega
    · have := hvalues e he
      omega
  | strictArray count properties ih =>
    rw [SrsAmf0Any.totalSize] at h
    have hlength := length_le_elementsSize properties
    refine .node (show properties.length < 2 ^ 31 by omega) fun v (hv : v ∈ properties) =>
      ih v hv ?_
    have := totalSize_le_elementsSize hv
    omega

/-! ## Copies -/

mutual

/-- `copy()`. A string goes through the C-string constructor; a property table is rebuilt by `set`;
`append` recounts a strict array, and `_count` is then overwritten with the source's. -/
def SrsAmf0Any.copy : SrsAmf0Any → SrsAmf0Any
  | .string value => .str value
  | .boolean value => .boolean value
  | .number value => .number value
  | .date dateValue timeZone => .date dateValue timeZone
  | .null => .null
  | .undefined => .undefined
  | .objectEOF => .objectEOF
  | .object properties => .object (copyProperties [] properties)
  | .ecmaArray count properties => .ecmaArray count (copyProperties [] properties)
  | .strictArray count properties => .strictArray count (copyElements [] properties)

/-- `SrsUnSortedHashtable::copy`. -/
def copyProperties (copy : List (Bytes × SrsAmf0Any)) :
    List (Bytes × SrsAmf0Any) → List (Bytes × SrsAmf0Any)
  | [] => copy
  | (key, any) :: src => copyProperties (SrsUnSortedHashtable.set copy key (some any.copy)) src

/-- The loop of `SrsAmf0StrictArray::copy`. -/
def copyElements (copy : List SrsAmf0Any) : List SrsAmf0Any → List SrsAmf0Any
  | [] => copy
  | any :: src => copyElements (copy ++ [any.copy]) src

end

theorem copyProperties_eq (src : List (Bytes × SrsAmf0Any)) : ∀ dst,
    copyProperties dst src = SrsUnSortedHashtable.copy SrsAmf0Any.copy dst src := by
  induction src with
  | nil => intro dst; rfl
  | cons e src ih => intro dst; exact ih _

theorem copyElements_eq (src : List SrsAmf0Any) : ∀ dst,
    copyElements dst src = dst ++ src.map SrsAmf0Any.copy := by
  induction src with
  | nil => intro dst; exact (List.append_nil dst).symm
  | cons v src ih =>
    intro dst
    rw [copyElements, ih, List.append_assoc]
    rfl

end Ssms.Amf0
