import Ssms.Json.Tree
import Ssms.Lib.Rfc8259

/-!
# `dumps` writes JSON that reads back (`SrsJsonAny::dumps`, `SrsJsonAny::loads`)

`toJson` is what a value says in JSON, and `treeOf` the value a JSON value denotes: integers that
fit an `int64_t`, strings of bytes, arrays, and objects with their members in the order of the text.
Nothing else denotes a value here: no other number, and no string with a `\u` escape.

* `derives_dumps`: what `dumps` writes for a value reads as `toJson` of it.
* `loads_dumps_iff`: that is the only way to read it, it denotes the value, and `loads` returns the
  value wherever `json_parse` returns the nodes of what a text denotes, all this exactly where the
  lengths in the value are `int`s; `loads_dumps_long` is a string that is longer.
-/

namespace Ssms.Json

open Ssms.Kernel Ssms.Protocol Ssms.Lib.Decimal
open Ssms.Lib.Rfc8259 hiding Bytes

/-! ## The values that are printed as JSON -/

/-- The bytes of a string value that `json_serialize_string` keeps or escapes. -/
def IsPrintable (c : UInt8) : Prop :=
  0x20 ≤ c ∨ c = 0x08 ∨ c = 0x0C ∨ c = 0x0A ∨ c = 0x0D ∨ c = 0x09

instance : DecidablePred IsPrintable := fun c => by unfold IsPrintable; infer_instance

/-- No number; printable string values; distinct names that need no escape. -/
def PrintableNode : SrsJsonAny → Prop
  | .number _ => False
  | .string value => ∀ c ∈ value, IsPrintable c
  | .object properties =>
    DistinctNames properties ∧ ∀ e ∈ properties, ∀ c ∈ e.1, 0x20 ≤ c ∧ c ≠ 0x22 ∧ c ≠ 0x5C
  | _ => True

theorem PrintableNode.distinct : ∀ v, PrintableNode v → DistinctNode v
  | .object _, h => h.1
  | .string _, _ | .boolean _, _ | .integer _, _ | .number _, _ | .null, _ | .array _, _ => trivial

/-! ## Values and JSON values -/

mutual

/-- What a value says in JSON. -/
def SrsJsonAny.toJson : SrsJsonAny → Value
  | .string value => .string (value.map .byte)
  | .boolean value => .bool value
  | .integer value => .number (numeral value.toInt)
  | .number value => .number (snprintf 22 value.fixed2)
  | .null => .null
  | .object properties => .object (toMembers properties)
  | .array properties => .array (toElements properties)

def toMembers : List (Bytes × SrsJsonAny) → List (List Character × Value)
  | [] => []
  | (name, any) :: properties => (name.map .byte, any.toJson) :: toMembers properties

def toElements : List SrsJsonAny → List Value
  | [] => []
  | any :: properties => any.toJson :: toElements properties

end

/-- The bytes of a string without code units. -/
def bytesOf : List Character → Option Bytes
  | [] => some []
  | .byte c :: s => (bytesOf s).map fun v => c :: v
  | .unit _ :: _ => none

/-- An integer as an `int64_t`. -/
def int64Of (n : Int) : Option (BitVec 64) :=
  if -2 ^ 63 ≤ n ∧ n < 2 ^ 63 then some (BitVec.ofInt 64 n) else none

mutual

/-- The value a JSON value denotes. -/
def treeOf : Value → Option SrsJsonAny
  | .null => some .null
  | .bool b => some (.boolean b)
  | .number spelling => ((intValue spelling).bind int64Of).map .integer
  | .string s => (bytesOf s).map .string
  | .array vs => (treesOf vs).map .array
  | .object ms => (propertiesOf ms).map .object

def treesOf : List Value → Option (List SrsJsonAny)
  | [] => some []
  | v :: vs => (treeOf v).bind fun any => (treesOf vs).map fun properties => any :: properties

def propertiesOf : List (List Character × Value) → Option (List (Bytes × SrsJsonAny))
  | [] => some []
  | (s, v) :: ms =>
    (bytesOf s).bind fun name => (treeOf v).bind fun any =>
      (propertiesOf ms).map fun properties => (name, any) :: properties

end

/-- What is relied on of `json_parse`: for a JSON text that denotes a value, its nodes. -/
def ReturnsValue (jsonParse : Bytes → JsonValue) (str : Bytes) : Prop :=
  ∀ v t, Text str v → treeOf v = some t → jsonParse str = t.node

/-! ## A value says what it denotes -/

theorem bytesOf_map (v : Bytes) : bytesOf (v.map .byte) = some v := by
  induction v with
  | nil => rfl
  | cons c v ih => simp only [List.map_cons, bytesOf, ih, Option.map_some]

theorem int64Of_toInt (value : BitVec 64) : int64Of value.toInt = some value := by
  have hlt := value.toInt_lt
  have hle := value.le_toInt
  rw [int64Of, if_pos ⟨hle, hlt⟩, BitVec.ofInt_toInt]

theorem propertiesOf_toMembers {properties : List (Bytes × SrsJsonAny)}
    (h : ∀ e ∈ properties, treeOf e.2.toJson = some e.2) :
    propertiesOf (toMembers properties) = some properties := by
  induction properties with
  | nil => rfl
  | cons e properties ih =>
    obtain ⟨hany, hproperties⟩ := List.forall_mem_cons.mp h
    simp only [toMembers, propertiesOf, bytesOf_map, hany, ih hproperties, Option.bind_some,
      Option.map_some]

theorem treesOf_toElements {properties : List SrsJsonAny}
    (h : ∀ v ∈ properties, treeOf v.toJson = some v) :
    treesOf (toElements properties) = some properties := by
  induction properties with
  | nil => rfl
  | cons v properties ih =>
    obtain ⟨hv, hproperties⟩ := List.forall_mem_cons.mp h
    simp only [toElements, treesOf, hv, ih hproperties, Option.bind_some, Option.map_some]

/-- A value without numbers says in JSON what denotes it. -/
theorem treeOf_toJson {v : SrsJsonAny} (h : v.Everywhere PrintableNode) :
    treeOf v.toJson = some v := by
  induction v with
  | string value => rw [SrsJsonAny.toJson, treeOf, bytesOf_map, Option.map_some]
  | boolean value => rfl
  | integer value =>
    rw [SrsJsonAny.toJson, treeOf, intValue_numeral, Option.bind_some, int64Of_toInt,
      Option.map_some]
  | number value => exact h.here.elim
  | null => rfl
  | object properties ih =>
    rw [SrsJsonAny.toJson, treeOf,
      propertiesOf_toMembers fun e he => ih e he (h.of_mem_object he), Option.map_some]
  | array properties ih =>
    rw [SrsJsonAny.toJson, treeOf,
      treesOf_toElements fun v hv => ih v hv (h.inside v hv), Option.map_some]

/-! ## The text of a value -/

/-- One byte of a string value. -/
theorem characters_serializeByte {c : UInt8} (hc : IsPrintable c) {i o : Bytes}
    {s : List Character} (h : Characters i s o) :
    Characters (jsonSerializeByte c ++ i) (.byte c :: s) o := by
  unfold jsonSerializeByte
  split_ifs with h1 h2 h3 h4 h5 h6 h7
  · subst h1
    exact .escaped rfl h
  · subst h2
    exact .escaped rfl h
  · subst h3
    exact .escaped rfl h
  · subst h4
    exact .escaped rfl h
  · subst h5
    exact .escaped rfl h
  · subst h6
    exact .escaped rfl h
  · subst h7
    exact .escaped rfl h
  · have hle : 0x20 ≤ c := hc.resolve_right (by simp [h3, h4, h5, h6, h7])
    exact .unescaped ⟨hle, h1, h2⟩ h

/-- A string value and its closing quotation mark. -/
theorem characters_serialize {v : Bytes} (hv : ∀ c ∈ v, IsPrintable c) (o : Bytes) :
    Characters (v.flatMap jsonSerializeByte ++ quotationMark :: o) (v.map .byte) o := by
  induction v with
  | nil => exact .close
  | cons c v ih =>
    obtain ⟨hc, hv⟩ := List.forall_mem_cons.mp hv
    rw [List.flatMap_cons, List.append_assoc, List.map_cons]
    exact characters_serializeByte hc (ih hv)

/-- A name that needs no escape and its closing quotation mark. -/
theorem characters_name {k : Bytes} (hk : ∀ c ∈ k, IsUnescaped c) (o : Bytes) :
    Characters (k ++ quotationMark :: o) (k.map .byte) o := by
  induction k with
  | nil => exact .close
  | cons c k ih =>
    obtain ⟨hc, hk⟩ := List.forall_mem_cons.mp hk
    exact .unescaped hc (ih hk)

/-- What `dumps` writes reads as a JSON value. -/
def Readable (v : SrsJsonAny) : Prop := ∀ o, Derives (v.dumps ++ o) (.value v.toJson) o

theorem derives_properties {properties : List (Bytes × SrsJsonAny)} (hne : properties ≠ [])
    (hk : ∀ e ∈ properties, ∀ c ∈ e.1, IsUnescaped c) (h : ∀ e ∈ properties, Readable e.2)
    (o : Bytes) :
    Derives (dumpsProperties properties ++ endObject :: o) (.members (toMembers properties)) o := by
  induction properties with
  | nil => exact absurd rfl hne
  | cons e properties ih =>
    obtain ⟨name, any⟩ := e
    obtain ⟨hname, hk⟩ := List.forall_mem_cons.mp hk
    obtain ⟨hany, h⟩ := List.forall_mem_cons.mp h
    have htext := dumpsProperties_cons (name, any) properties o
    cases properties with
    | nil =>
      exact .lastMember htext (characters_name hname _) (Ws.none _) (Ws.none _) (hany _) (Ws.none _)
    | cons e properties =>
      exact .member htext (characters_name hname _) (Ws.none _) (Ws.none _) (hany _) (Ws.none _)
        (Ws.none _) (ih (List.cons_ne_nil _ _) hk h)

theorem derives_elements {properties : List SrsJsonAny} (hne : properties ≠ [])
    (h : ∀ v ∈ properties, Readable v) (o : Bytes) :
    Derives (dumpsElements properties ++ endArray :: o) (.elements (toElements properties)) o := by
  induction properties with
  | nil => exact absurd rfl hne
  | cons any properties ih =>
    obtain ⟨hany, h⟩ := List.forall_mem_cons.mp h
    have htext := dumpsElements_cons any properties o
    cases properties with
    | nil => exact htext ▸ .lastElement (hany _) (Ws.none _)
    | cons any' properties =>
      exact htext ▸ .element (hany _) (Ws.none _) (Ws.none _) (ih (List.cons_ne_nil _ _) h)

/-- **What `dumps` writes for a printable value reads as what the value says.** -/
theorem derives_dumps {v : SrsJsonAny} (h : v.Everywhere PrintableNode) : Readable v := by
  induction v with
  | string value =>
    intro o
    exact .string (dumps_string value o) (characters_serialize h.here o)
  | boolean value =>
    intro o
    cases value with
    | true => exact .true rfl
    | false => exact .false rfl
  | integer value =>
    intro o
    exact .number (congrArg (· ++ o) (dumps_integer value)) (isNumber_numeral _)
  | number value => exact h.here.elim
  | null => exact fun o => .null rfl
  | object properties ih =>
    intro o
    have htext := dumps_object properties o
    by_cases hne : properties = []
    · subst hne
      exact .emptyObject htext (Ws.none _)
    · exact .object htext (Ws.none _)
        (derives_properties hne h.here.2 (fun e he => ih e he (h.of_mem_object he)) o)
  | array properties ih =>
    intro o
    have htext := dumps_array properties o
    by_cases hne : properties = []
    · subst hne
      exact .emptyArray htext (Ws.none _)
    · exact .array htext (Ws.none _)
        (derives_elements hne (fun v hv => ih v hv (h.inside v hv)) o)

theorem text_dumps {v : SrsJsonAny} (h : v.Everywhere PrintableNode) : Text v.dumps v.toJson := by
  have hread := derives_dumps h []
  rw [List.append_nil] at hread
  exact ⟨_, _, Ws.none _, hread, Ws.none _⟩

/-- The text that `dumps` writes, with loops that count with an `int`, has exactly one reading; it
denotes the value, and `loads` gives the value back. -/
def RoundTrips (t : SrsJsonAny) : Prop :=
  ∃ v, (∀ w, Text t.reached.dumps w ↔ w = v) ∧ treeOf v = some t ∧
    ∀ jsonParse, ReturnsValue jsonParse t.reached.dumps →
      loads jsonParse t.reached.dumps = .ok (some t)

theorem reached_of_short {t : SrsJsonAny} (h : t.Everywhere SrsJsonAny.Short) : t.reached = t := by
  refine reached_eq_self_iff.mpr (h.mono fun v hv => ?_)
  cases v with
  | object | array => exact hv
  | _ => trivial

/-- `loads` does not give back what is longer than an `int` says. -/
theorem short_of_roundTrips {t : SrsJsonAny} (hd : t.Everywhere DistinctNode) (h : RoundTrips t) :
    t.Everywhere SrsJsonAny.Short := by
  obtain ⟨v, hv, htree, hloads⟩ := h
  have hparse : ReturnsValue (fun _ => t.node) t.reached.dumps := by
    intro w u hw hu
    obtain rfl := (hv w).mp hw
    rw [htree, Option.some_inj] at hu
    rw [hu]
  have hback := hloads _ hparse
  rw [loads, if_neg ((hv v).mpr rfl).ne_nil] at hback
  exact (srsJsonParseTree_node_iff hd).mp hback

/-- **Round trip.** A value without numbers, with printable string values and with distinct names
that need no escape, is read back from what `dumps` writes exactly where all its lengths are
`int`s. -/
theorem loads_dumps_iff {t : SrsJsonAny} (ht : t.Everywhere PrintableNode) :
    RoundTrips t ↔ t.Everywhere SrsJsonAny.Short := by
  have hd := ht.mono PrintableNode.distinct
  refine ⟨short_of_roundTrips hd, fun hshort => ?_⟩
  have htext := text_dumps ht
  have htree := treeOf_toJson ht
  rw [RoundTrips, reached_of_short hshort]
  refine ⟨t.toJson, fun w => ⟨fun hw => htext.unique hw, fun hw => hw ▸ htext⟩, htree, ?_⟩
  intro jsonParse hparse
  rw [loads, if_neg htext.ne_nil, hparse _ _ htext htree]
  exact (srsJsonParseTree_node_iff hd).mpr hshort

/-- `{"k":[-9223372036854775808,"\n\""],"":{}}`. -/
def sample : SrsJsonAny :=
  .object [([0x6B], .array [.integer (BitVec.intMin 64), .string [0x0A, 0x22]]), ([], .object [])]

theorem printable_sample : sample.Everywhere PrintableNode := by
  refine .node ⟨by decide, ?_⟩ (List.forall_mem_cons.mpr ⟨?_, ?_⟩)
  · exact List.forall_mem_cons.mpr ⟨List.forall_mem_singleton.mpr (by decide),
      List.forall_mem_singleton.mpr nofun⟩
  · refine .node trivial (List.forall_mem_cons.mpr ⟨.leaf rfl trivial, ?_⟩)
    exact List.forall_mem_singleton.mpr (.leaf rfl
      (List.forall_mem_cons.mpr ⟨by decide, List.forall_mem_singleton.mpr (by decide)⟩))
  · exact List.forall_mem_singleton.mpr (.leaf rfl ⟨by decide, nofun⟩)

theorem loads_dumps_sample :
    sample.dumps = [0x7B, 0x22, 0x6B, 0x22, 0x3A, 0x5B, 0x2D, 0x39, 0x32, 0x32, 0x33, 0x33, 0x37,
        0x32, 0x30, 0x33, 0x36, 0x38, 0x35, 0x34, 0x37, 0x37, 0x35, 0x38, 0x30, 0x38, 0x2C, 0x22,
        0x5C, 0x6E, 0x5C, 0x22, 0x22, 0x5D, 0x2C, 0x22, 0x22, 0x3A, 0x7B, 0x7D, 0x7D] ∧
      RoundTrips sample := by
  refine ⟨by decide, (loads_dumps_iff printable_sample).mpr ?_⟩
  refine .node (by decide) (List.forall_mem_cons.mpr ⟨?_, List.forall_mem_singleton.mpr ?_⟩)
  · exact .node (by decide) (List.forall_mem_cons.mpr ⟨.leaf rfl (by decide),
      List.forall_mem_singleton.mpr (.leaf rfl (by decide))⟩)
  · exact .leaf rfl (by decide)

/-- A string of `2 ^ 31` bytes. -/
theorem loads_dumps_long :
    (SrsJsonAny.string (List.replicate (2 ^ 31) 0x61)).Everywhere PrintableNode ∧
      ¬ RoundTrips (.string (List.replicate (2 ^ 31) 0x61)) := by
  refine ⟨.leaf rfl fun c hc => ?_, fun h => ?_⟩
  · rw [(List.mem_replicate.mp hc).2]
    decide
  · have hdistinct : DistinctNode (.string (List.replicate (2 ^ 31) 0x61)) := trivial
    have hshort := (short_of_roundTrips (.leaf rfl hdistinct) h).here
    rw [SrsJsonAny.Short, SrsJsonAny.length, List.length_replicate] at hshort
    exact absurd hshort (by decide)

end Ssms.Json
