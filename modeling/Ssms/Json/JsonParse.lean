import Ssms.Json.JsonMemory
import Ssms.Lib.Decimal
import Mathlib.Tactic.Simps.Basic

/-!
# The embedded JSON parser (`json_parse_ex`, `srs_protocol_json.cpp`)

`json_parse_ex` goes over the text twice, one byte an iteration, with a machine of flags. The first
pass allocates a node for each value and counts: the characters of a string, the entries of an array
or object, the bytes of an object's names. Numbers are computed then. The second pass takes the
nodes in the same order, allocates what was counted, and fills it in.

A run ends in a `Fault` where it would leave memory, which includes reading past the zero byte that
ends the text. Comments are off (`settings.settings` is 0 from `json_parse`), and so are the
messages of the errors, with the lines and columns in them: nobody passes an `error_buf`. `num_e`,
`num_fraction` and the integers are 64 bits wide and wrap. The four operations on doubles are a
parameter (`Arithmetic`).
-/

namespace Ssms.Json

open Ssms.Kernel Ssms.Lib Ssms.Lib.Decimal

/-- The operations of the C library and the processor on doubles. -/
structure Arithmetic where
  add : Double → Double → Double
  mul : Double → Double → Double
  div : Double → Double → Double
  pow : Double → Double → Double

/-- `-x`. -/
def negate (x : Double) : Double := x ^^^ BitVec.intMin 64

/-- The bits of `flags` that tell what is read next. -/
structure Flags where
  next : Bool := false
  reproc : Bool := false
  needComma : Bool := false
  seekValue : Bool := false
  escaped : Bool := false
  string : Bool := false
  needColon : Bool := false
  done : Bool := false
  deriving DecidableEq

/-- The bits of `flags` about a number, and the variables. -/
structure NumState where
  negative : Bool := false
  zero : Bool := false
  e : Bool := false
  eGotSign : Bool := false
  eNegative : Bool := false
  numDigits : Nat := 0
  numFraction : BitVec 64 := 0
  numE : BitVec 64 := 0
  deriving DecidableEq

/-- `json_state`, and the variables of `json_parse_ex`. -/
structure JsonState where
  mem : Memory := {}
  json : Bytes
  ptr : Int := 0
  flags : Flags := { seekValue := true }
  num : NumState := {}
  string : StringPtr := .null
  stringLength : Nat := 0

/-- How an iteration of the loop can end before its last statement. -/
inductive Exit where
  | next (s : JsonState)
  | stop (s : JsonState)
  | failed (s : JsonState)
  | fault (f : Fault)

/-- A part of an iteration: it goes on to the next part, or exits. -/
abbrev Part (α : Type) := Except Exit α

namespace JsonState

variable (s : JsonState)

/-- `state.uint_max`. -/
def uintMax : Nat := 2 ^ 32 - 1 - 8

/-- An operation on memory, as a part of an iteration. -/
def check {α : Type} (x : Except Fault α) : Part α :=
  match x with
  | .ok a => .ok a
  | .error f => .error (.fault f)

/-- `state.ptr += n`. -/
@[simps]
def move (n : Int) : JsonState := { s with ptr := s.ptr + n }

@[simp]
theorem move_move (n n' : Int) : (s.move n).move n' = s.move (n + n') := by
  rw [move, move, move, Int.add_assoc]

/-- Other flags. -/
@[simps]
def setFlags (flags : Flags) : JsonState := { s with flags }

/-- Other contents of memory. -/
@[simps]
def setMemory (m : Memory) : JsonState := { s with mem := m }

/-- Another string, at its character `stringLength`. -/
@[simps]
def setString (string : StringPtr) (stringLength : Nat) : JsonState :=
  { s with string, stringLength }

/-- Other variables of a number. -/
@[simps]
def setNum (num : NumState) : JsonState := { s with num }

/-- `end - state.ptr`. -/
def unread : Int := s.json.length - s.ptr

/-- `*state.ptr`; the text ends in a zero byte. -/
def load : Part UInt8 :=
  if s.ptr < 0 then .error (.fault .outOfBounds)
  else match (s.json ++ [0])[s.ptr.toNat]? with
    | some b => .ok b
    | none => .error (.fault .outOfBounds)

/-- `(state.ptr == end ? 0 : *state.ptr)`. -/
def char : Part UInt8 := if s.ptr = s.json.length then .ok 0 else s.load

/-- The next node, of type `u` in the first pass. -/
def newValue (u : JsonU) : Part JsonState := do
  let m ← check (s.mem.newValue u)
  .ok (s.setMemory m)

/-- `u` of a node becomes another one. -/
def setU (a : Nat) (u : JsonU) : JsonState := s.setMemory (s.mem.setU a u)

/-- `string[string_length] = b` in the second pass. -/
def store (b : UInt8) : Part JsonState :=
  if s.mem.firstPass then .ok s
  else do
    let m ← check (s.mem.store s.string s.stringLength b)
    .ok (s.setMemory m)

/-- `string_add(b)`. -/
def stringAdd (b : UInt8) : Part JsonState := do
  let s ← s.store b
  .ok (s.setString s.string (s.stringLength + 1))

/-- `string_add` for one byte after the other. -/
def stringAddAll (l : Bytes) : Part JsonState := l.foldlM stringAdd s

end JsonState

/-! ## Bytes and numbers -/

/-- The bytes of `whitespace`. -/
def isSpace (b : UInt8) : Bool := b = 0x0A || b = 0x20 || b = 0x09 || b = 0x0D

/-- The bytes that the second pass skips for a number. -/
def isNumberChar (b : UInt8) : Bool :=
  IsDigit b || b = 0x2B || b = 0x2D || b = 0x65 || b = 0x45 || b = 0x2E

/-- How far the `while` loop of the second pass goes. -/
def numberLength : Bytes → Nat
  | [] => 0
  | b :: l => if isNumberChar b then numberLength l + 1 else 0

/-- `b - '0'`. -/
def digitOf (b : UInt8) : BitVec 64 := BitVec.ofNat 64 (b.toNat - 0x30)

/-- `(double)n`. -/
def toDouble (n : BitVec 64) : Double := Double.ofInt64 n

/-- `10.0`. -/
def ten : Double := toDouble 10

/-! ## Strings -/

/-- `hex_value(c)`. -/
def hexValue (c : UInt8) : UInt8 :=
  if IsDigit c then c - 0x30
  else if c = 0x61 ∨ c = 0x41 then 0x0A
  else if c = 0x62 ∨ c = 0x42 then 0x0B
  else if c = 0x63 ∨ c = 0x43 then 0x0C
  else if c = 0x64 ∨ c = 0x44 then 0x0D
  else if c = 0x65 ∨ c = 0x45 then 0x0E
  else if c = 0x66 ∨ c = 0x46 then 0x0F
  else 0xFF

/-- The byte `lead | (uchar >> shift)`. -/
def leadByte (lead uchar shift : UInt32) : UInt8 := (lead ||| (uchar >>> shift)).toUInt8

/-- The byte `0x80 | ((uchar >> shift) & 0x3F)`. -/
def trailByte (uchar shift : UInt32) : UInt8 := (0x80 ||| ((uchar >>> shift) &&& 0x3F)).toUInt8

/-- The bytes that are added for `uchar`. -/
def unicodeBytes (uchar : UInt32) : Bytes :=
  if uchar ≤ 0x7F then [uchar.toUInt8]
  else if uchar ≤ 0x7FF then [leadByte 0xC0 uchar 6, trailByte uchar 0]
  else if uchar ≤ 0xFFFF then [leadByte 0xE0 uchar 12, trailByte uchar 6, trailByte uchar 0]
  else [leadByte 0xF0 uchar 18, trailByte uchar 12, trailByte uchar 6, trailByte uchar 0]

/-- `uchar` of the hexadecimal values of four digits. -/
def ucharOf (b1 b2 b3 b4 : UInt8) : UInt32 :=
  (((b1 <<< 4) ||| b2).toUInt32 <<< 8) ||| ((b3 <<< 4) ||| b4).toUInt32

/-- `uchar` is half of a surrogate pair. -/
def isSurrogate (uchar : UInt32) : Bool := uchar &&& 0xF800 = 0xD800

/-- `uchar` of two halves. -/
def ucharOfPair (uchar uchar2 : UInt32) : UInt32 :=
  (0x010000 : UInt32) ||| ((uchar &&& 0x3FF) <<< 10) ||| (uchar2 &&& 0x3FF)

namespace JsonState

variable (s : JsonState)

/-- `*++state.ptr` is to be `c`. -/
def expect (c : UInt8) : Part JsonState := do
  let s := s.move 1
  let b ← s.load
  if b = c then .ok s else .error (.failed s)

/-- `hex_value(*++state.ptr)` is to be a value. -/
def nextHex : Part (UInt8 × JsonState) := do
  let s := s.move 1
  let b ← s.load
  if hexValue b = 0xFF then .error (.failed s) else .ok (hexValue b, s)

/-- Four hexadecimal digits. -/
def hex4 : Part (UInt32 × JsonState) := do
  let (b1, s) ← s.nextHex
  let (b2, s) ← s.nextHex
  let (b3, s) ← s.nextHex
  let (b4, s) ← s.nextHex
  .ok (ucharOf b1 b2 b3 b4, s)

/-- The other half of a surrogate pair. -/
def secondHalf (uchar : UInt32) : Part JsonState :=
  if s.unread < 6 then .error (.failed s)
  else do
    let s ← s.expect 0x5C
    let s ← s.expect 0x75
    let (uchar2, s) ← s.hex4
    s.stringAddAll (unicodeBytes (ucharOfPair uchar uchar2))

/-- `case 'u'`. -/
def unicodeEscape : Part JsonState :=
  if s.unread < 4 then .error (.failed s)
  else do
    let (uchar, s) ← s.hex4
    if isSurrogate uchar then s.secondHalf uchar
    else s.stringAddAll (unicodeBytes uchar)

/-- `switch (b)` after a `\`. -/
def escapedChar (b : UInt8) : Part JsonState :=
  if b = 0x62 then s.stringAdd 0x08
  else if b = 0x66 then s.stringAdd 0x0C
  else if b = 0x6E then s.stringAdd 0x0A
  else if b = 0x72 then s.stringAdd 0x0D
  else if b = 0x74 then s.stringAdd 0x09
  else if b = 0x75 then s.unicodeEscape
  else s.stringAdd b

/-- The end of a string: of a string value, or of the name of an entry. -/
def closeString : Part JsonState := do
  let s ← s.store 0
  let s := (s.setFlags { s.flags with string := false }).setString .null s.stringLength
  let (a, node) ← check (s.mem.deref s.mem.top)
  match node.u with
  | .string _ ptr =>
    .ok ((s.setU a (.string s.stringLength ptr)).setFlags { s.flags with next := true })
  | .object .. =>
    let u ← check (node.u.addName s.mem.firstPass s.stringLength)
    .error (.next ((s.setU a u).setFlags { s.flags with seekValue := true, needColon := true }))
  | _ => .ok s

/-- `if (flags & flag_string)`. -/
def inString (b : UInt8) : Part JsonState :=
  if !s.flags.string then .ok s
  else if b = 0 then .error (.failed s)
  else if uintMax < s.stringLength then .error (.failed s)
  else if s.flags.escaped then do
    let s ← (s.setFlags { s.flags with escaped := false }).escapedChar b
    .error (.next s)
  else if b = 0x5C then .error (.next (s.setFlags { s.flags with escaped := true }))
  else if b = 0x22 then s.closeString
  else do
    let s ← s.stringAdd b
    .error (.next s)

/-! ## Values -/

/-- `if (flags & flag_done)`. -/
def afterRoot (b : UInt8) : Part JsonState :=
  if !s.flags.done then .ok s
  else if b = 0 then .error (.stop s)
  else if isSpace b then .error (.next s)
  else .error (.failed s)

/-- The rest of a literal is to follow. -/
def literal (l : Bytes) : Part JsonState :=
  if s.unread < l.length then .error (.failed s) else l.foldlM expect s

/-- The value ends here. -/
def setNext : JsonState := s.setFlags { s.flags with next := true }

/-- The second pass skips a number. -/
def skipNumber : JsonState :=
  (s.move (numberLength (s.json.drop s.ptr.toNat))).setFlags
    { s.flags with next := true, reproc := true }

/-- A digit or a minus sign. -/
def beginNumber (b : UInt8) : Part JsonState := do
  let s ← s.newValue (.integer 0)
  if !s.mem.firstPass then .ok s.skipNumber
  else
    let s := s.setNum { negative := b = 0x2D }
    if b = 0x2D then .error (.next s) else .ok (s.setFlags { s.flags with reproc := true })

/-- `switch (b)` where a value begins. -/
def beginValue (b : UInt8) : Part JsonState :=
  if b = 0x7B then do
    let s ← s.newValue (.object 0 0 [] [] 0)
    .error (.next s)
  else if b = 0x5B then do
    let s ← s.newValue (.array 0 [])
    .error (.next (s.setFlags { s.flags with seekValue := true }))
  else if b = 0x22 then do
    let s ← s.newValue (.string 0 [])
    let (a, _) ← check (s.mem.deref s.mem.top)
    .error (.next ((s.setFlags { s.flags with string := true }).setString (.value a) 0))
  else if b = 0x74 then do
    let s ← s.literal [0x72, 0x75, 0x65]
    let s ← s.newValue (.boolean 0)
    let (a, _) ← check (s.mem.deref s.mem.top)
    .ok (s.setU a (.boolean 1)).setNext
  else if b = 0x66 then do
    let s ← s.literal [0x61, 0x6C, 0x73, 0x65]
    let s ← s.newValue (.boolean 0)
    .ok s.setNext
  else if b = 0x6E then do
    let s ← s.literal [0x75, 0x6C, 0x6C]
    let s ← s.newValue .null
    .ok s.setNext
  else if IsDigit b ∨ b = 0x2D then s.beginNumber b
  else .error (.failed s)

/-- `if (flags & flag_seek_value)`. -/
def seekingValue (b : UInt8) : Part JsonState :=
  if isSpace b then .error (.next s)
  else if b = 0x5D then do
    let array ← check s.mem.topIsArray
    if array then
      .ok (s.setFlags { s.flags with needComma := false, seekValue := false, next := true })
    else .error (.failed s)
  else if s.flags.needComma then
    if b = 0x2C then .error (.next (s.setFlags { s.flags with needComma := false }))
    else .error (.failed s)
  else if s.flags.needColon then
    if b = 0x3A then .error (.next (s.setFlags { s.flags with needColon := false }))
    else .error (.failed s)
  else (s.setFlags { s.flags with seekValue := false }).beginValue b

/-- `case json_object`. -/
def inObject (a objectMem : Nat) (b : UInt8) : Part JsonState :=
  if isSpace b then .error (.next s)
  else if b = 0x22 then
    if s.flags.needComma then .error (.failed s)
    else .ok ((s.setFlags { s.flags with string := true }).setString (.name a objectMem) 0)
  else if b = 0x7D then .ok (s.setFlags { s.flags with needComma := false, next := true })
  else if b = 0x2C ∧ s.flags.needComma then .ok (s.setFlags { s.flags with needComma := false })
  else .error (.failed s)

/-! ## Numbers -/

/-- A digit of a number. -/
def inDigits (a : Nat) (u : JsonU) (b : UInt8) : Part JsonState :=
  let num := { s.num with numDigits := s.num.numDigits + 1 }
  if num.e then
    .error (.next (s.setNum { num with eGotSign := true, numE := num.numE * 10 + digitOf b }))
  else match u with
    | .integer integer =>
      if num.zero then .error (.failed (s.setNum num))
      else .error (.next ((s.setU a (.integer (integer * 10 + digitOf b))).setNum
        { num with zero := num.numDigits = 1 && b = 0x30 }))
    | _ => .error (.next (s.setNum { num with numFraction := num.numFraction * 10 + digitOf b }))

/-- The sign, and the end of a number. -/
def endNumber (a : Nat) (u : JsonU) : JsonState :=
  let u := if s.num.negative then
      match u with
      | .integer integer => .integer (-integer)
      | .double dbl => .double (negate dbl)
      | u => u
    else u
  (s.setU a u).setFlags { s.flags with next := true, reproc := true }

/-- `.` after an integer. -/
def decimalPoint (a : Nat) (integer : BitVec 64) : Part JsonState :=
  if s.num.numDigits = 0 then .error (.failed s)
  else .error (.next ((s.setU a (.double (toDouble integer))).setNum
    { s.num with numDigits := 0 }))

/-- After the digits of the fraction, or of an integer: the exponent, or the end. -/
def beginExponent (a : Nat) (u : JsonU) (b : UInt8) : Part JsonState :=
  if b = 0x65 ∨ b = 0x45 then
    let u := match u with
      | .integer integer => .double (toDouble integer)
      | u => u
    .error (.next ((s.setU a u).setNum { s.num with e := true, zero := false, numDigits := 0 }))
  else .ok (s.endNumber a u)

/-- `if (!(flags & flag_num_e))`. -/
def endMantissa (arith : Arithmetic) (a : Nat) (u : JsonU) (b : UInt8) : Part JsonState :=
  match u with
  | .double dbl =>
    if s.num.numDigits = 0 then .error (.failed s)
    else
      let digits := toDouble (BitVec.ofNat 64 s.num.numDigits)
      let fraction := arith.div (toDouble s.num.numFraction) (arith.pow ten digits)
      s.beginExponent a (.double (arith.add dbl fraction)) b
  | u => s.beginExponent a u b

/-- Its `else`. -/
def endExponent (arith : Arithmetic) (a : Nat) (u : JsonU) : Part JsonState :=
  if s.num.numDigits = 0 then .error (.failed s)
  else match u with
    | .double dbl =>
      let e := if s.num.eNegative then -s.num.numE else s.num.numE
      .ok (s.endNumber a (.double (arith.mul dbl (arith.pow ten (toDouble e)))))
    | u => .ok (s.endNumber a u)

/-- `case json_integer`, `case json_double`. -/
def inNumber (arith : Arithmetic) (a : Nat) (u : JsonU) (b : UInt8) : Part JsonState :=
  if IsDigit b then s.inDigits a u b
  else if (b = 0x2B ∨ b = 0x2D) ∧ s.num.e = true ∧ s.num.eGotSign = false then
    .error (.next (s.setNum
      { s.num with eGotSign := true, eNegative := s.num.eNegative || b = 0x2D }))
  else match u with
    | .integer integer =>
      if b = 0x2E then s.decimalPoint a integer
      else if s.num.e then s.endExponent arith a u
      else s.endMantissa arith a u b
    | u => if s.num.e then s.endExponent arith a u else s.endMantissa arith a u b

/-- `if (flags & flag_seek_value)` and its `else`. -/
def inValue (arith : Arithmetic) (b : UInt8) : Part JsonState :=
  if s.flags.seekValue then s.seekingValue b
  else do
    let (a, node) ← check (s.mem.deref s.mem.top)
    match node.u with
    | .object _ _ _ _ objectMem => s.inObject a objectMem b
    | .integer integer => s.inNumber arith a (.integer integer) b
    | .double dbl => s.inNumber arith a (.double dbl) b
    | _ => .ok s

/-! ## The end of a value -/

/-- `if (flags & flag_next)`. -/
def endValue : Part JsonState := do
  let s := s.setFlags { s.flags with next := false, needComma := true }
  let (child, node) ← check (s.mem.deref s.mem.top)
  if node.parent = none then .error (.next (s.setFlags { s.flags with done := true }))
  else
    let (a, parent) ← check (s.mem.deref node.parent)
    let seekValue := parent.u.isArray || s.flags.seekValue
    let u ← check (parent.u.addEntry s.mem.firstPass child)
    let s := (s.setU a u).setFlags { s.flags with seekValue }
    if uintMax < u.lengthOf then .error (.failed s)
    else .error (.next (s.setMemory { s.mem with top := some a }))

/-- `if (flags & flag_reproc)`, and what follows. -/
def endIteration : Part JsonState :=
  let s := if s.flags.reproc then (s.move (-1)).setFlags { s.flags with reproc := false } else s
  if s.flags.next then s.endValue else .ok s

/-- One iteration of the loop over the text. -/
def iteration (arith : Arithmetic) : Part JsonState := do
  let b ← s.char
  let s ← s.inString b
  let s ← s.afterRoot b
  let s ← s.inValue arith b
  s.endIteration

end JsonState

/-- How a pass over the text ends. -/
inductive PassResult where
  | stop (s : JsonState)
  | failed (s : JsonState)
  | fault (f : Fault)

/-- `for (state.ptr = json;; ++state.ptr)`. -/
def passStep (arith : Arithmetic) (s : JsonState) : Except PassResult JsonState :=
  match s.iteration arith with
  | .ok s => .ok (s.move 1)
  | .error (.next s) => .ok (s.move 1)
  | .error (.stop s) => .error (.stop s)
  | .error (.failed s) => .error (.failed s)
  | .error (.fault f) => .error (.fault f)

/-- A pass over the text; none when out of fuel. -/
def pass (arith : Arithmetic) (s : JsonState) : Option PassResult :=
  Loop.run (passStep arith) (3 * s.json.length + 1) s

/-! ## `json_parse_ex` -/

/-- What `json_parse_ex` returns: the root with the memory, or a null pointer with what was
freed. -/
inductive ParseResult where
  | value (root : Nat) (heap : List JsonNode)
  | null (s : FreeState)
  | fault (f : Fault)
  | outOfFuel

/-- After `e_failed`. -/
def onFailed (m : Memory) : ParseResult :=
  let alloc := if m.firstPass then m.root else m.alloc
  match freeChain alloc { heap := m.heap } with
  | none => .outOfFuel
  | some (.error f) => .fault f
  | some (.ok freed) =>
    if m.firstPass then .null freed
    else match jsonValueFreeEx m.root freed with
      | none => .outOfFuel
      | some (.error f) => .fault f
      | some (.ok freed) => .null freed

/-- The text after a byte order mark. -/
def skipBom (json : Bytes) : Bytes :=
  if json.take 3 = [0xEF, 0xBB, 0xBF] then json.drop 3 else json

/-- The second pass begins with what the first one allocated. -/
def JsonState.secondPass (s : JsonState) : JsonState :=
  { mem := { firstPass := false, heap := s.mem.heap, alloc := s.mem.root }
    json := s.json
    num := { numDigits := s.num.numDigits, numFraction := s.num.numFraction, numE := s.num.numE } }

/-- `json_parse_ex(settings, json, length, error_buf)`. -/
def jsonParseEx (arith : Arithmetic) (json : Bytes) : ParseResult :=
  match pass arith { json := skipBom json } with
  | none => .outOfFuel
  | some (.fault f) => .fault f
  | some (.failed s) => onFailed s.mem
  | some (.stop s) =>
    match pass arith s.secondPass with
    | none => .outOfFuel
    | some (.fault f) => .fault f
    | some (.failed s) => onFailed s.mem
    | some (.stop s) =>
      match s.mem.root with
      | none => .null { heap := s.mem.heap }
      | some root => .value root s.mem.heap

/-- `json_parse(json, length)`, as the tree that is returned. -/
def jsonParse (arith : Arithmetic) (json : Bytes) : JsonValue :=
  match jsonParseEx arith json with
  | .value root heap => treeAt heap heap.length (some root)
  | _ => .nullptr

end Ssms.Json
