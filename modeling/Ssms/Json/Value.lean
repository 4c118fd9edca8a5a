import Ssms.Kernel.Utility
import Ssms.Lib.Everywhere
import Ssms.Lib.Wrap
import Ssms.Protocol.PropertyTable

/-!
# JSON values and their text (`SrsJsonAny` and its subclasses, `srs_protocol_json.cpp`)

One constructor a subclass, with the subclass's fields: an integer is an `int64_t`, a number a
`double`, and the properties of an object a vector in the order of `SrsJsonObject`. Properties and
elements are values, never null pointers: `dumps` dereferences them.

`dumps` follows the source: the bytes of a string value are escaped one by one
(`jsonSerializeString`), the name of a property is not. Its loops go through whole vectors; those
of the source count with an `int`, so what they write is `dumps` of what they reach (`reached`), and
that is the value itself exactly where its vectors have fewer than `2 ^ 31` entries
(`reached_eq_self_iff`).
-/

namespace Ssms.Json

open Ssms.Kernel Ssms.Protocol Ssms.Lib

/-- A JSON value. -/
inductive SrsJsonAny where
  | string (value : Bytes)
  | boolean (value : Bool)
  | integer (value : BitVec 64)
  | number (value : Double)
  | null
  | object (properties : List (Bytes × SrsJsonAny))
  | array (properties : List SrsJsonAny)
  deriving Repr

namespace SrsJsonAny

/-- Induction over a value and the values it holds. -/
@[elab_as_elim, induction_eliminator]
theorem inductionOn {P : SrsJsonAny → Prop}
    (string : ∀ value, P (.string value))
    (boolean : ∀ value, P (.boolean value))
    (integer : ∀ value, P (.integer value))
    (number : ∀ value, P (.number value))
    (null : P .null)
    (object : ∀ properties, (∀ e ∈ properties, P e.2) → P (.object properties))
    (array : ∀ properties, (∀ e ∈ properties, P e) → P (.array properties)) : ∀ v, P v
  | .string value => string value
  | .boolean value => boolean value
  | .integer value => integer value
  | .number value => number value
  | .null => null
  | .object properties => object properties (pairs properties)
  | .array properties => array properties (elements properties)
where
  pairs : ∀ properties : List (Bytes × SrsJsonAny), ∀ e ∈ properties, P e.2
    | [] => fun _ h => absurd h List.not_mem_nil
    | (_, v) :: properties => List.forall_mem_cons.mpr
        ⟨inductionOn string boolean integer number null object array v, pairs properties⟩
  elements : ∀ properties : List SrsJsonAny, ∀ e ∈ properties, P e
    | [] => fun _ h => absurd h List.not_mem_nil
    | v :: properties => List.forall_mem_cons.mpr
        ⟨inductionOn string boolean integer number null object array v, elements properties⟩

/-- The values directly inside a value. -/
def children : SrsJsonAny → List SrsJsonAny
  | .object properties => properties.map Prod.snd
  | .array properties => properties
  | _ => []

/-- `P` holds of a value and of every value inside it. -/
abbrev Everywhere (P : SrsJsonAny → Prop) : SrsJsonAny → Prop := Lib.Everywhere children P

/-- The properties of an object are inside. -/
theorem Everywhere.of_mem_object {P : SrsJsonAny → Prop} {properties : List (Bytes × SrsJsonAny)}
    (h : Everywhere P (.object properties)) {e : Bytes × SrsJsonAny} (he : e ∈ properties) :
    Everywhere P e.2 :=
  h.inside e.2 (List.mem_map_of_mem he)

/-- The length of a string, object or array. -/
def length : SrsJsonAny → Nat
  | .string value => value.length
  | .object properties => properties.length
  | .array properties => properties.length
  | _ => 0

/-- An `int` holds the length. -/
def Short (v : SrsJsonAny) : Prop := v.length < 2 ^ 31

instance : DecidablePred Short := fun v => Nat.decLt v.length (2 ^ 31)

end SrsJsonAny

/-! ## Text -/

/-- `SRS_JOBJECT_START`, `SRS_JOBJECT_END`, `SRS_JARRAY_START`, `SRS_JARRAY_END`. -/
def srsJObjectStart : Bytes := [0x7B]
def srsJObjectEnd : Bytes := [0x7D]
def srsJArrayStart : Bytes := [0x5B]
def srsJArrayEnd : Bytes := [0x5D]

/-- `SRS_JFIELD_CONT`. -/
def srsJFieldCont : Bytes := [0x2C]

/-- `SRS_JFIELD_NAME(k)`. -/
def srsJFieldName (k : Bytes) : Bytes := [0x22] ++ k ++ [0x22, 0x3A]

/-- What `json_serialize_string` writes for one byte. -/
def jsonSerializeByte (p : UInt8) : Bytes :=
  if p = 0x22 then [0x5C, 0x22]
  else if p = 0x5C then [0x5C, 0x5C]
  else if p = 0x08 then [0x5C, 0x62]
  else if p = 0x0C then [0x5C, 0x66]
  else if p = 0x0A then [0x5C, 0x6E]
  else if p = 0x0D then [0x5C, 0x72]
  else if p = 0x09 then [0x5C, 0x74]
  else [p]

/-- `json_serialize_string(v)`. -/
def jsonSerializeString (v : Bytes) : Bytes := [0x22] ++ v.flatMap jsonSerializeByte ++ [0x22]

mutual

/-- `dumps()`. -/
def SrsJsonAny.dumps : SrsJsonAny → Bytes
  | .string value => jsonSerializeString value
  | .boolean value => if value then [0x74, 0x72, 0x75, 0x65] else [0x66, 0x61, 0x6C, 0x73, 0x65]
  | .integer value => srsInt2str value
  | .number value => snprintf 22 value.fixed2
  | .null => [0x6E, 0x75, 0x6C, 0x6C]
  | .object properties => srsJObjectStart ++ dumpsProperties properties ++ srsJObjectEnd
  | .array properties => srsJArrayStart ++ dumpsElements properties ++ srsJArrayEnd

/-- The loop of `SrsJsonObject::dumps`: a separator after each property but the last. -/
def dumpsProperties : List (Bytes × SrsJsonAny) → Bytes
  | [] => []
  | (name, any) :: properties =>
    srsJFieldName name ++ any.dumps ++ (if properties.isEmpty then [] else srsJFieldCont) ++
      dumpsProperties properties

/-- The loop of `SrsJsonArray::dumps`. -/
def dumpsElements : List SrsJsonAny → Bytes
  | [] => []
  | any :: properties =>
    any.dumps ++ (if properties.isEmpty then [] else srsJFieldCont) ++ dumpsElements properties

end

/-! ## Counters -/

mutual

/-- What loops with an `int` as their counter reach of a value. -/
def SrsJsonAny.reached : SrsJsonAny → SrsJsonAny
  | .object properties => .object (reachedProperties (passes properties.length) properties)
  | .array properties => .array (reachedElements (passes properties.length) properties)
  | v => v

def reachedProperties : Nat → List (Bytes × SrsJsonAny) → List (Bytes × SrsJsonAny)
  | 0, _ => []
  | _ + 1, [] => []
  | n + 1, (name, any) :: properties => (name, any.reached) :: reachedProperties n properties

def reachedElements : Nat → List SrsJsonAny → List SrsJsonAny
  | 0, _ => []
  | _ + 1, [] => []
  | n + 1, any :: properties => any.reached :: reachedElements n properties

end

theorem reachedProperties_eq (n : Nat) (properties : List (Bytes × SrsJsonAny)) :
    reachedProperties n properties = (properties.take n).map fun e => (e.1, e.2.reached) :=
  eq_map_take (fun _ => by rw [reachedProperties]) (fun _ => by rw [reachedProperties])
    (fun _ _ _ => by rw [reachedProperties]) n _

theorem reachedElements_eq (n : Nat) (properties : List SrsJsonAny) :
    reachedElements n properties = (properties.take n).map SrsJsonAny.reached :=
  eq_map_take (fun _ => by rw [reachedElements]) (fun _ => by rw [reachedElements])
    (fun _ _ _ => by rw [reachedElements]) n _

/-- An `int` holds the number of properties or elements. -/
def SrsJsonAny.ShortVector : SrsJsonAny → Prop
  | .object properties => properties.length < 2 ^ 31
  | .array properties => properties.length < 2 ^ 31
  | _ => True

/-- **The loops reach the whole of a value exactly where an `int` holds the lengths of its
vectors.** -/
theorem reached_eq_self_iff {v : SrsJsonAny} :
    v.reached = v ↔ v.Everywhere SrsJsonAny.ShortVector := by
  induction v with
  | string | boolean | integer | number | null => exact iff_of_true rfl (.leaf rfl trivial)
  | object properties ih =>
    have hiff := map_take_passes_eq_iff (f := fun e => (e.1, e.2.reached)) (g := id)
      (l := properties)
    rw [List.map_id] at hiff
    rw [SrsJsonAny.reached, SrsJsonAny.object.injEq, reachedProperties_eq, hiff]
    constructor
    · rintro ⟨hs, heq⟩
      exact .node hs (List.forall_mem_map.mpr fun e he =>
        (ih e he).mp (congrArg Prod.snd (heq e he)))
    · intro hs
      refine ⟨hs.here, fun e he => ?_⟩
      rw [(ih e he).mpr (hs.of_mem_object he)]
      rfl
  | array properties ih =>
    have hiff := map_take_passes_eq_iff (f := SrsJsonAny.reached) (g := id) (l := properties)
    rw [List.map_id] at hiff
    rw [SrsJsonAny.reached, SrsJsonAny.array.injEq, reachedElements_eq, hiff]
    constructor
    · rintro ⟨hs, heq⟩
      exact .node hs fun v hv => (ih v hv).mp (heq v hv)
    · intro hs
      exact ⟨hs.here, fun v hv => (ih v hv).mpr (hs.inside v hv)⟩

/-! ## The text of a value, up to a place after it -/

theorem dumps_string (value o : Bytes) : (SrsJsonAny.string value).dumps ++ o =
    0x22 :: (value.flatMap jsonSerializeByte ++ 0x22 :: o) := by
  simp [SrsJsonAny.dumps, jsonSerializeString]

theorem dumps_integer (value : BitVec 64) :
    (SrsJsonAny.integer value).dumps = Lib.Decimal.numeral value.toInt :=
  srsInt2str_eq value

theorem dumps_object (properties : List (Bytes × SrsJsonAny)) (o : Bytes) :
    (SrsJsonAny.object properties).dumps ++ o =
      0x7B :: (dumpsProperties properties ++ 0x7D :: o) := by
  simp [SrsJsonAny.dumps, srsJObjectStart, srsJObjectEnd]

theorem dumps_array (properties : List SrsJsonAny) (o : Bytes) :
    (SrsJsonAny.array properties).dumps ++ o =
      0x5B :: (dumpsElements properties ++ 0x5D :: o) := by
  simp [SrsJsonAny.dumps, srsJArrayStart, srsJArrayEnd]

/-- What follows a property: the next ones, and the closing brace. -/
def afterProperty (o : Bytes) : List (Bytes × SrsJsonAny) → Bytes
  | [] => 0x7D :: o
  | e :: properties => 0x2C :: (dumpsProperties (e :: properties) ++ 0x7D :: o)

/-- What follows an element: the next ones, and the closing bracket. -/
def afterElement (o : Bytes) : List SrsJsonAny → Bytes
  | [] => 0x5D :: o
  | any :: properties => 0x2C :: (dumpsElements (any :: properties) ++ 0x5D :: o)

theorem dumpsProperties_cons (e : Bytes × SrsJsonAny) (properties : List (Bytes × SrsJsonAny))
    (o : Bytes) : dumpsProperties (e :: properties) ++ 0x7D :: o =
      0x22 :: (e.1 ++ 0x22 :: 0x3A :: (e.2.dumps ++ afterProperty o properties)) := by
  cases properties <;> simp [dumpsProperties, afterProperty, srsJFieldName, srsJFieldCont]

theorem dumpsElements_cons (any : SrsJsonAny) (properties : List SrsJsonAny) (o : Bytes) :
    dumpsElements (any :: properties) ++ 0x5D :: o = any.dumps ++ afterElement o properties := by
  cases properties <;> simp [dumpsElements, afterElement, srsJFieldCont]

end Ssms.Json
