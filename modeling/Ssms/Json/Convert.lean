import Ssms.Amf0.StrictArray
import Ssms.Json.Tree
import Ssms.Kernel.Double

/-!
# AMF0 and JSON (`SrsAmf0Any::to_json`, `SrsJsonAny::to_amf0`)

Both are virtual: the containers override them and rebuild themselves with `set` and `append`, and
every other value runs the base class, whose switch asserts false on a container. `toJson` and
`toAmf0` are the calls through the vtable, `toJsonBase` and `toAmf0Base` the base class; `none` is a
failed assertion or an undefined conversion of a double. Strings cross as C strings, names as
`std::string`. The loops of the source count with an `int`: what they convert is what they reach,
which is all of a value whose size an `int` holds (`reached_of_totalSize`) and of what `loads`
returns (`loads_reached`).

* `toAmf0_toJson`: AMF0 to JSON and back is `normalised`, and no assertion fails.
* `toJson_toAmf0_iff`: JSON to AMF0 and back is the identity exactly on the values whose strings
  hold no zero byte.
-/

namespace Ssms.Json

open Ssms.Kernel Ssms.Protocol

/-- `SrsJsonAny::str(value)`: the value is a C string. -/
def SrsJsonAny.str (value : Bytes) : SrsJsonAny := .string (cStr value)

end Ssms.Json

namespace Ssms.Amf0

open Ssms.Kernel Ssms.Protocol Ssms.Json

/-- `SrsAmf0Any::to_json()`. -/
def SrsAmf0Any.toJsonBase : SrsAmf0Any → Option SrsJsonAny
  | .string value => some (.str value)
  | .boolean value => some (.boolean value)
  | .number dv => (Double.toInt64 dv).map fun iv =>
    if (Double.ofInt64 iv).eq dv then .integer iv else .number dv
  | .null => some .null
  | .undefined => some .null
  | .object _ => none -- `srs_assert(false)`
  | .ecmaArray _ _ => none -- `srs_assert(false)`
  | .strictArray _ _ => none -- `srs_assert(false)`
  | .date _ _ => some .null
  | .objectEOF => some .null

mutual

/-- `to_json()`, through the vtable. -/
def SrsAmf0Any.toJson : SrsAmf0Any → Option SrsJsonAny
  | .object properties => (tableToJson [] properties).map .object
  | .ecmaArray _ properties => (tableToJson [] properties).map .object
  | .strictArray _ properties => (elementsToJson [] properties).map .array
  | v => v.toJsonBase

/-- The loop of `SrsAmf0Object::to_json` and `SrsAmf0EcmaArray::to_json`. -/
def tableToJson (obj : List (Bytes × SrsJsonAny)) :
    List (Bytes × SrsAmf0Any) → Option (List (Bytes × SrsJsonAny))
  | [] => some obj
  | (name, any) :: properties =>
    any.toJson.bind fun value => tableToJson (SrsJsonObject.set obj name (some value)) properties

/-- The loop of `SrsAmf0StrictArray::to_json`. -/
def elementsToJson (arr : List SrsJsonAny) : List SrsAmf0Any → Option (List SrsJsonAny)
  | [] => some arr
  | any :: properties => any.toJson.bind fun value => elementsToJson (arr ++ [value]) properties

end

end Ssms.Amf0

namespace Ssms.Json

open Ssms.Kernel Ssms.Protocol Ssms.Amf0

/-- `SrsJsonAny::to_amf0()`. -/
def SrsJsonAny.toAmf0Base : SrsJsonAny → Option SrsAmf0Any
  | .string value => some (.str value)
  | .boolean value => some (.boolean value)
  | .integer value => some (.number (Double.ofInt64 value))
  | .number value => some (.number value)
  | .null => some .null
  | .object _ => none -- `srs_assert(false)`
  | .array _ => none -- `srs_assert(false)`

mutual

/-- `to_amf0()`, through the vtable. -/
def SrsJsonAny.toAmf0 : SrsJsonAny → Option SrsAmf0Any
  | .object properties => (propertiesToAmf0 [] properties).map .object
  | .array properties => (elementsToAmf0 .new properties).map SrsAmf0StrictArray.toAny
  | t => t.toAmf0Base

/-- The loop of `SrsJsonObject::to_amf0`. -/
def propertiesToAmf0 (obj : List (Bytes × SrsAmf0Any)) :
    List (Bytes × SrsJsonAny) → Option (List (Bytes × SrsAmf0Any))
  | [] => some obj
  | (name, any) :: properties =>
    any.toAmf0.bind fun value =>
      propertiesToAmf0 (SrsUnSortedHashtable.set obj name (some value)) properties

/-- The loop of `SrsJsonArray::to_amf0`. -/
def elementsToAmf0 (arr : SrsAmf0StrictArray) : List SrsJsonAny → Option SrsAmf0StrictArray
  | [] => some arr
  | any :: properties => any.toAmf0.bind fun value => elementsToAmf0 (arr.append value) properties

end

/-! ## The loops -/

theorem tableToJson_eq (properties : List (Bytes × SrsAmf0Any)) : ∀ obj,
    tableToJson obj properties = convertProperties SrsAmf0Any.toJson obj properties := by
  induction properties with
  | nil => intro obj; rfl
  | cons e properties ih =>
    intro obj
    exact congrArg (e.2.toJson.bind ·) (funext fun value => ih _)

theorem propertiesToAmf0_eq (properties : List (Bytes × SrsJsonAny)) : ∀ obj,
    propertiesToAmf0 obj properties = convertProperties SrsJsonAny.toAmf0 obj properties := by
  induction properties with
  | nil => intro obj; rfl
  | cons e properties ih =>
    intro obj
    exact congrArg (e.2.toAmf0.bind ·) (funext fun value => ih _)

/-- Elements that convert, one by one. -/
theorem elementsToJson_forall₂ {vs : List SrsAmf0Any} {ts : List SrsJsonAny}
    (h : List.Forall₂ (fun v t => v.toJson = some t) vs ts) : ∀ arr,
    elementsToJson arr vs = some (arr ++ ts) := by
  induction h with
  | nil => exact fun arr => congrArg some (List.append_nil arr).symm
  | cons hv _ ih =>
    intro arr
    rw [elementsToJson, hv, List.append_cons]
    exact ih _

/-- `append` keeps the count right. -/
theorem elementsToAmf0_forall₂ {ts : List SrsJsonAny} {vs : List SrsAmf0Any}
    (h : List.Forall₂ (fun t v => t.toAmf0 = some v) ts vs) : ∀ arr : SrsAmf0StrictArray,
    arr.count = BitVec.ofNat 32 arr.properties.length →
      elementsToAmf0 arr ts = some ⟨BitVec.ofNat 32 (arr.properties ++ vs).length,
        arr.properties ++ vs⟩ := by
  induction h with
  | nil =>
    intro arr harr
    rw [List.append_nil, ← harr]
    rfl
  | cons ht _ ih =>
    intro arr _
    rw [elementsToAmf0, ht, List.append_cons]
    exact ih (arr.append _) rfl

/-! ## AMF0 to JSON and back -/

end Ssms.Json

namespace Ssms.Amf0

open Ssms.Kernel

mutual

/-- A value without what JSON does not tell: which kind of table it was, the count that was read,
and a value other than a string, boolean, number or container. -/
def SrsAmf0Any.normalised : SrsAmf0Any → SrsAmf0Any
  | .string value => .string value
  | .boolean value => .boolean value
  | .number value => .number value
  | .date _ _ => .null
  | .null => .null
  | .undefined => .null
  | .objectEOF => .null
  | .object properties => .object (normalisedTable properties)
  | .ecmaArray _ properties => .object (normalisedTable properties)
  | .strictArray _ properties =>
    .strictArray (BitVec.ofNat 32 properties.length) (normalisedElements properties)

def normalisedTable : List (Bytes × SrsAmf0Any) → List (Bytes × SrsAmf0Any)
  | [] => []
  | (name, any) :: properties => (name, any.normalised) :: normalisedTable properties

def normalisedElements : List SrsAmf0Any → List SrsAmf0Any
  | [] => []
  | any :: properties => any.normalised :: normalisedElements properties

end

end Ssms.Amf0

namespace Ssms.Json

open Ssms.Kernel Ssms.Protocol Ssms.Amf0

mutual

/-- A value with its strings, not its names, cut at the first zero byte. -/
def SrsJsonAny.cutStrings : SrsJsonAny → SrsJsonAny
  | .string value => .string (cStr value)
  | .boolean value => .boolean value
  | .integer value => .integer value
  | .number value => .number value
  | .null => .null
  | .object properties => .object (cutProperties properties)
  | .array properties => .array (cutElements properties)

def cutProperties : List (Bytes × SrsJsonAny) → List (Bytes × SrsJsonAny)
  | [] => []
  | (name, any) :: properties => (name, any.cutStrings) :: cutProperties properties

def cutElements : List SrsJsonAny → List SrsJsonAny
  | [] => []
  | any :: properties => any.cutStrings :: cutElements properties

end

theorem cutProperties_eq (properties : List (Bytes × SrsJsonAny)) :
    cutProperties properties = properties.map fun e => (e.1, e.2.cutStrings) := by
  induction properties with
  | nil => rfl
  | cons e properties ih => rw [cutProperties, ih, List.map_cons]

theorem cutElements_eq (properties : List SrsJsonAny) :
    cutElements properties = properties.map SrsJsonAny.cutStrings := by
  induction properties with
  | nil => rfl
  | cons any properties ih => rw [cutElements, ih, List.map_cons]

/-- The string itself holds no zero byte. -/
def NoNul (t : SrsJsonAny) : Prop := ∀ value, t = .string value → (0 : UInt8) ∉ value

theorem map_eq_self_iff {α : Type} {f : α → α} {l : List α} : l.map f = l ↔ ∀ x ∈ l, f x = x :=
  calc l.map f = l ↔ l.map f = l.map id := by rw [List.map_id]
    _ ↔ ∀ x ∈ l, f x = x := List.map_inj_left

theorem cutStrings_eq_self_iff (t : SrsJsonAny) :
    t.cutStrings = t ↔ t.Everywhere NoNul := by
  have hleaf : ∀ {t : SrsJsonAny}, t.children = [] → (∀ value, t ≠ .string value) →
      t.Everywhere NoNul := fun hc hs => .leaf hc fun value h => absurd h (hs value)
  induction t with
  | string value =>
    rw [SrsJsonAny.cutStrings, SrsJsonAny.string.injEq, cStr_eq_self_iff]
    refine ⟨fun h => .leaf rfl fun value' heq => ?_, fun h => h.here value rfl⟩
    cases heq
    exact h
  | boolean | integer | number | null =>
    exact ⟨fun _ => hleaf rfl (by simp), fun _ => rfl⟩
  | object properties ih =>
    rw [SrsJsonAny.cutStrings, SrsJsonAny.object.injEq, cutProperties_eq, map_eq_self_iff]
    constructor
    · intro h
      refine .node (by simp [NoNul]) (List.forall_mem_map.mpr fun e he => ?_)
      exact (ih e he).mp (congrArg Prod.snd (h e he))
    · intro h e he
      exact Prod.ext rfl ((ih e he).mpr (h.of_mem_object he))
  | array properties ih =>
    rw [SrsJsonAny.cutStrings, SrsJsonAny.array.injEq, cutElements_eq, map_eq_self_iff]
    constructor
    · exact fun h => .node (by simp [NoNul]) fun v hv => (ih v hv).mp (h v hv)
    · exact fun h v hv => (ih v hv).mpr (h.inside v hv)

/-- No number, and integers up to `2 ^ 53`. -/
def SmallNode : SrsJsonAny → Prop
  | .number _ => False
  | .integer value => value.toInt.natAbs ≤ 2 ^ 53
  | _ => True

theorem integer_back {value : BitVec 64} (h : value.toInt.natAbs ≤ 2 ^ 53) :
    ∃ v, (SrsJsonAny.integer value).toAmf0 = some v ∧ v.toJson = some (.integer value) := by
  refine ⟨.number (Double.ofInt64 value), rfl, ?_⟩
  have heq := Double.eq_self (Double.isInt_ofInt64 h).1.1
  show (Double.toInt64 (Double.ofInt64 value)).map _ = _
  rw [Double.toInt64_ofInt64 h, Option.map_some, if_pos heq]

/-- **JSON to AMF0 and back.** No assertion fails, and only strings with a zero byte are changed. -/
theorem toJson_toAmf0 {t : SrsJsonAny} (hd : t.Everywhere DistinctNode)
    (h : t.Everywhere SmallNode) :
    ∃ v, t.toAmf0 = some v ∧ v.toJson = some t.cutStrings := by
  induction t with
  | string value =>
    have hcut : cStr (cStr value) = cStr value := List.takeWhile_idem
    exact ⟨.string (cStr value), rfl, congrArg (fun s => some (SrsJsonAny.string s)) hcut⟩
  | boolean value => exact ⟨.boolean value, rfl, rfl⟩
  | integer value => exact integer_back h.here
  | number value => exact h.here.elim
  | null => exact ⟨.null, rfl, rfl⟩
  | object properties ih =>
    obtain ⟨table, hamf, hjson⟩ := convertProperties_back hd.here fun e he =>
      ih e he (hd.of_mem_object he) (h.of_mem_object he)
    refine ⟨.object table, ?_, ?_⟩
    · rw [SrsJsonAny.toAmf0, propertiesToAmf0_eq, hamf, Option.map_some]
    · rw [SrsAmf0Any.toJson, tableToJson_eq, hjson, SrsJsonAny.cutStrings, cutProperties_eq]
      rfl
  | array properties ih =>
    obtain ⟨vs, hamf, hjson⟩ := forall₂_back fun t ht => ih t ht (hd.inside t ht) (h.inside t ht)
    refine ⟨.strictArray (BitVec.ofNat 32 vs.length) vs, ?_, ?_⟩
    · rw [SrsJsonAny.toAmf0, elementsToAmf0_forall₂ hamf .new rfl]
      rfl
    · rw [SrsAmf0Any.toJson, elementsToJson_forall₂ hjson [], SrsJsonAny.cutStrings, cutElements_eq]
      rfl

/-! ## What `loads` returns -/

theorem loads_distinct {jsonParse : Bytes → JsonValue} {str : Bytes} {t : SrsJsonAny}
    (h : loads jsonParse str = .ok (some t)) : t.Everywhere DistinctNode := by
  unfold loads at h
  split_ifs at h
  · cases h
  · exact srsJsonParseTree_distinct h

/-- The loops of `to_amf0` reach all of it. -/
theorem loads_reached {jsonParse : Bytes → JsonValue} {str : Bytes} {t : SrsJsonAny}
    (h : loads jsonParse str = .ok (some t)) : t.reached = t := by
  unfold loads at h
  split_ifs at h
  · cases h
  · exact srsJsonParseTree_reached h

/-- **What `loads` returns survives the way to AMF0 and back exactly when none of its strings holds
a zero byte.** -/
theorem toJson_toAmf0_iff {jsonParse : Bytes → JsonValue} {str : Bytes} {t : SrsJsonAny}
    (hload : loads jsonParse str = .ok (some t)) (h : t.Everywhere SmallNode) :
    (∃ v, t.toAmf0 = some v ∧ v.toJson = some t) ↔ t.Everywhere NoNul := by
  obtain ⟨v, hamf, hjson⟩ := toJson_toAmf0 (loads_distinct hload) h
  rw [← cutStrings_eq_self_iff]
  constructor
  · rintro ⟨v', hamf', hjson'⟩
    rw [hamf, Option.some_inj] at hamf'
    rw [← hamf', hjson, Option.some_inj] at hjson'
    exact hjson'
  · intro hcut
    exact ⟨v, hamf, hcut ▸ hjson⟩

/-- `{"k":[1,"a"]}`. -/
theorem toJson_toAmf0_sample :
    let t : SrsJsonAny := .object [([0x6B], .array [.integer 1, .string [0x61]])]
    ∃ v, t.toAmf0 = some v ∧ v.toJson = some t := by
  intro t
  have hload : loads (fun str => if str = t.dumps then t.node else .nullptr) t.dumps =
      .ok (some t) := by
    rw [loads, if_pos rfl, if_neg (by decide)]
    rfl
  have hsmall : t.Everywhere SmallNode := by
    refine .node trivial (List.forall_mem_singleton.mpr (.node trivial (List.forall_mem_cons.mpr
      ⟨.leaf rfl ?_, List.forall_mem_singleton.mpr (.leaf rfl trivial)⟩)))
    show (1#64).toInt.natAbs ≤ 2 ^ 53
    decide
  have hstring : NoNul (.string [0x61]) := by simp [NoNul]
  refine (toJson_toAmf0_iff hload hsmall).mpr (.node (by simp [NoNul])
    (List.forall_mem_singleton.mpr (.node (by simp [NoNul]) (List.forall_mem_cons.mpr
      ⟨.leaf rfl (by simp [NoNul]), List.forall_mem_singleton.mpr (.leaf rfl hstring)⟩))))

/-- `{"k":"a\u0000b"}`: the string comes back as `a`. -/
theorem toAmf0_nul_string :
    let text : Bytes := [0x7B, 0x22, 0x6B, 0x22, 0x3A, 0x22, 0x61, 0x5C, 0x75, 0x30, 0x30, 0x30,
      0x30, 0x62, 0x22, 0x7D]
    let t : SrsJsonAny := .object [([0x6B], .string [0x61, 0x00, 0x62])]
    loads (fun str => if str = text then t.node else .nullptr) text = .ok (some t) ∧
      t.Everywhere SmallNode ∧ ¬ ∃ v, t.toAmf0 = some v ∧ v.toJson = some t := by
  refine ⟨rfl, .node trivial (List.forall_mem_singleton.mpr (.leaf rfl trivial)), ?_⟩
  rintro ⟨v, hamf, hjson⟩
  cases hamf
  cases hjson

end Ssms.Json
