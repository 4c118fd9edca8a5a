import Ssms.Json.Value
import Ssms.Lib.Wrap

/-!
# Reading JSON (`SrsJsonAny::loads`, `srs_json_parse_tree`)

`json_parse` is a third-party parser embedded in the source file; here it is a parameter. It returns
a tree of `json_value` nodes, out of which `srs_json_parse_tree` builds the values. The lengths in
the nodes are unsigned, and become `int`s on the way: the loops over the entries of objects and
arrays count with an `int`, and `SrsJsonAny::str` takes the length of a string as one.
-/

namespace Ssms.Json

open Ssms.Kernel Ssms.Protocol Ssms.Lib

/-- A `json_value*`: a null pointer, or the node it points to. Strings, names, objects and arrays
are as long as the node says. -/
inductive JsonValue where
  | nullptr
  | none
  | object (values : List (Bytes × JsonValue))
  | array (values : List JsonValue)
  | integer (integer : BitVec 64)
  | double (dbl : Double)
  | string (ptr : Bytes)
  | boolean (boolean : BitVec 32)
  | null
  deriving Repr

/-- An exception of the standard library. -/
inductive StdException where
  | lengthError
  deriving DecidableEq

/-- `value.append(v, s)` on an empty string: a negative `s` is a `size_t` beyond `max_size()`. -/
def stringAppend (v : Bytes) (s : Int) : Except StdException Bytes :=
  if s < 0 then .error .lengthError else .ok (v.take s.toNat)

/-- `SrsJsonAny::str(value, length)`. -/
def SrsJsonAny.strOfLength (value : Bytes) (length : Int) : Except StdException SrsJsonAny :=
  (stringAppend value length).map .string

mutual

/-- `srs_json_parse_tree(node)`; `none` is the null pointer. -/
def srsJsonParseTree : JsonValue → Except StdException (Option SrsJsonAny)
  | .nullptr => .ok none
  | .null => .ok (some .null)
  | .string ptr => (SrsJsonAny.strOfLength ptr (int32 ptr.length)).map some
  | .integer integer => .ok (some (.integer integer))
  | .double dbl => .ok (some (.number dbl))
  | .boolean boolean => .ok (some (.boolean (boolean ≠ 0)))
  | .object values => (parseEntries [] (passes values.length) values).map (Option.map .object)
  | .array values => (parseElements [] (passes values.length) values).map (Option.map .array)
  | .none => .ok none

/-- The loop over the entries of an object. -/
def parseEntries (obj : List (Bytes × SrsJsonAny)) :
    Nat → List (Bytes × JsonValue) → Except StdException (Option (List (Bytes × SrsJsonAny)))
  | 0, _ => .ok (some obj)
  | _ + 1, [] => .ok (some obj)
  | n + 1, (name, entry) :: values =>
    match srsJsonParseTree entry with
    | .ok (some value) => parseEntries (SrsJsonObject.set obj name (some value)) n values
    | .ok none => .ok none
    | .error e => .error e

/-- The loop over the elements of an array. -/
def parseElements (arr : List SrsJsonAny) :
    Nat → List JsonValue → Except StdException (Option (List SrsJsonAny))
  | 0, _ => .ok (some arr)
  | _ + 1, [] => .ok (some arr)
  | n + 1, p :: values =>
    match srsJsonParseTree p with
    | .ok (some value) => parseElements (arr ++ [value]) n values
    | .ok none => .ok none
    | .error e => .error e

end

/-- `SrsJsonAny::loads(str)`. -/
def loads (jsonParse : Bytes → JsonValue) (str : Bytes) : Except StdException (Option SrsJsonAny) :=
  if str = [] then .ok none else srsJsonParseTree (jsonParse str)

/-! ## The nodes of a value -/

mutual

/-- The node a parser makes of a value. -/
def SrsJsonAny.node : SrsJsonAny → JsonValue
  | .string value => .string value
  | .boolean value => .boolean (if value then 1 else 0)
  | .integer value => .integer value
  | .number value => .double value
  | .null => .null
  | .object properties => .object (entryNodes properties)
  | .array properties => .array (elementNodes properties)

def entryNodes : List (Bytes × SrsJsonAny) → List (Bytes × JsonValue)
  | [] => []
  | (name, any) :: properties => (name, any.node) :: entryNodes properties

def elementNodes : List SrsJsonAny → List JsonValue
  | [] => []
  | any :: properties => any.node :: elementNodes properties

end

theorem entryNodes_eq (properties : List (Bytes × SrsJsonAny)) :
    entryNodes properties = properties.map fun e => (e.1, e.2.node) := by
  induction properties with
  | nil => rfl
  | cons e properties ih => rw [entryNodes, ih, List.map_cons]

theorem elementNodes_eq (properties : List SrsJsonAny) :
    elementNodes properties = properties.map SrsJsonAny.node := by
  induction properties with
  | nil => rfl
  | cons any properties ih => rw [elementNodes, ih, List.map_cons]

/-- Objects have distinct names. -/
def DistinctNode : SrsJsonAny → Prop
  | .object properties => DistinctNames properties
  | _ => True

end Ssms.Json
