import Ssms.Json.Parse
import Ssms.Kernel.Double
import Ssms.Lib.Loop

/-!
# The nodes of the JSON parser in memory (`new_value`, `json_value_free_ex`)

A node is allocated for each value in the first pass of `json_parse_ex`; the nodes are linked in
that order (`next_alloc`). The second pass takes them in the same order, and allocates what was
counted.

The heap is the list of the nodes, and an address is an index into it. What a pointer points to is
kept in its node: the cells of an array, of an object's entries and of its names, and the characters
of a string, where `none` is a cell that nothing has been stored in. An operation ends in a `Fault`
where it would leave memory: through a null pointer, past the cells of an allocation, where the size
of an allocation is no `int`, or where what it touches has been freed. Allocations succeed.
-/

namespace Ssms.Json

open Ssms.Kernel Ssms.Lib

/-! ## Nodes -/

/-- A `json_object_entry`: its name is an offset into the names of the object. -/
structure JsonObjectEntry where
  name : Option Nat := none
  nameLength : Nat := 0
  value : Option Nat := none
  deriving DecidableEq

/-- `type` and the union `u`. In the first pass, `u.object.values` counts the bytes of the names;
`objectMem` is `_reserved.object_mem`, as an offset into the names. -/
inductive JsonU where
  | object (length nameBytes : Nat) (values : List JsonObjectEntry) (names : List (Option UInt8))
      (objectMem : Nat)
  | array (length : Nat) (values : List (Option Nat))
  | integer (integer : BitVec 64)
  | double (dbl : Double)
  | string (length : Nat) (ptr : List (Option UInt8))
  | boolean (boolean : BitVec 32)
  | null
  deriving DecidableEq

/-- What a `json_value` is, without its place in the order of the allocations. -/
structure JsonBody where
  parent : Option Nat
  u : JsonU
  deriving DecidableEq

/-- A `json_value` in memory. -/
structure JsonNode extends JsonBody where
  nextAlloc : Option Nat
  deriving DecidableEq

/-- What an operation can do that C leaves undefined. -/
inductive Fault where
  | nullPointer
  | outOfBounds
  | intOverflow
  | useAfterFree
  deriving DecidableEq

namespace JsonU

/-- `sizeof(json_object_entry)`. -/
def entrySize : Nat := 24

/-- `u.array.length`, which is also `u.object.length`. -/
def lengthOf : JsonU → Nat
  | object length .. => length
  | array length _ => length
  | _ => 0

/-- `type == json_array`. -/
def isArray : JsonU → Bool
  | array .. => true
  | _ => false

/-- In the second pass, what was counted is allocated. -/
def allocate : JsonU → Except Fault JsonU
  | array length values =>
    if length = 0 then .ok (array length values)
    else .ok (array 0 (List.replicate length none))
  | object length nameBytes values names objectMem =>
    if length = 0 then .ok (object length nameBytes values names objectMem)
    else if 2 ^ 31 ≤ entrySize * length then .error .intOverflow
    else .ok (object 0 0 (List.replicate length {}) (List.replicate nameBytes none) 0)
  | string length _ => .ok (string 0 (List.replicate (length + 1) none))
  | u => .ok u

/-- A name of the next entry has ended. -/
def addName (firstPass : Bool) (nameLength : Nat) : JsonU → Except Fault JsonU
  | object length nameBytes values names objectMem =>
    if firstPass then .ok (object length (nameBytes + (nameLength + 1)) values names objectMem)
    else match values[length]? with
      | none => .error .outOfBounds
      | some entry =>
        let entry := { entry with name := some objectMem, nameLength := nameLength }
        .ok (object length nameBytes (values.set length entry) names
          (objectMem + (nameLength + 1)))
  | _ => .error .nullPointer

/-- The value `child` is the next entry of an array or object, whose length grows. -/
def addEntry (firstPass : Bool) (child : Nat) : JsonU → Except Fault JsonU
  | object length nameBytes values names objectMem =>
    if firstPass then .ok (object (length + 1) nameBytes values names objectMem)
    else match values[length]? with
      | none => .error .outOfBounds
      | some entry => .ok (object (length + 1) nameBytes
          (values.set length { entry with value := some child }) names objectMem)
  | array length values =>
    if firstPass then .ok (array (length + 1) values)
    else if length < values.length then .ok (array (length + 1) (values.set length (some child)))
    else .error .outOfBounds
  | _ => .error .nullPointer

end JsonU

/-! ## The memory of a pass -/

/-- `string`: the characters of a string value, or a place in the names of an object. -/
inductive StringPtr where
  | null
  | value (address : Nat)
  | name (address offset : Nat)
  deriving DecidableEq

/-- The nodes, and the variables of `json_parse_ex` that point to them. -/
structure Memory where
  firstPass : Bool := true
  heap : List JsonNode := []
  top : Option Nat := none
  root : Option Nat := none
  alloc : Option Nat := none
  deriving DecidableEq

namespace Memory

variable (m : Memory)

/-- The node a pointer points to. -/
def deref (p : Option Nat) : Except Fault (Nat × JsonNode) :=
  match p with
  | none => .error .nullPointer
  | some a => match m.heap[a]? with
    | none => .error .nullPointer
    | some n => .ok (a, n)

/-- `u` of a node becomes another one. -/
def setU (a : Nat) (u : JsonU) : Memory :=
  { m with heap := m.heap.modify a fun n => { n with u := u } }

/-- `string[index] = b`. -/
def store (string : StringPtr) (index : Nat) (b : UInt8) : Except Fault Memory :=
  match string with
  | .null => .error .nullPointer
  | .value a => match m.heap[a]? with
    | some ⟨⟨_, .string length ptr⟩, _⟩ =>
      if index < ptr.length then .ok (m.setU a (.string length (ptr.set index (some b))))
      else .error .outOfBounds
    | _ => .error .nullPointer
  | .name a offset => match m.heap[a]? with
    | some ⟨⟨_, .object length nameBytes values names objectMem⟩, _⟩ =>
      if offset + index < names.length then
        .ok (m.setU a (.object length nameBytes values (names.set (offset + index) (some b))
          objectMem))
      else .error .outOfBounds
    | _ => .error .nullPointer

/-- `new_value(&state, &top, &root, &alloc, type)`: a zeroed node of the type, or the next node. -/
def newValue (u : JsonU) : Except Fault Memory :=
  if m.firstPass then
    let value := m.heap.length
    let heap := match m.alloc with
      | none => m.heap
      | some a => m.heap.modify a fun n => { n with nextAlloc := some value }
    .ok { m with
      heap := heap ++ [⟨⟨m.top, u⟩, none⟩]
      root := m.root <|> some value
      alloc := some value
      top := some value }
  else do
    let (value, node) ← m.deref m.alloc
    let u ← node.u.allocate
    .ok { m.setU value u with
      root := m.root <|> some value
      alloc := node.nextAlloc
      top := some value }

/-- `top && top->type == json_array`. -/
def topIsArray : Except Fault Bool :=
  match m.top with
  | none => .ok false
  | some _ => do
    let (_, node) ← m.deref m.top
    .ok node.u.isArray

end Memory

/-! ## `json_value_free_ex` -/

/-- What is allocated: a node, and what `u.string.ptr` or `u.array.values` of it points to. -/
inductive Block where
  | node (address : Nat)
  | cells (address : Nat)
  deriving DecidableEq

/-- The nodes, and what has been freed, oldest first. -/
structure FreeState where
  heap : List JsonNode
  freed : List Block := []

namespace FreeState

variable (s : FreeState)

/-- `mem_free` of a block. -/
def free (b : Block) : Except Fault FreeState :=
  if b ∈ s.freed then .error .useAfterFree else .ok { s with freed := s.freed ++ [b] }

/-- `mem_free` of a pointer to cells, which is null where there are none. -/
def freeCells {α : Type} (a : Nat) (cells : List α) : Except Fault FreeState :=
  if cells.isEmpty then .ok s else s.free (.cells a)

/-- A node that has not been freed. -/
def deref (a : Nat) : Except Fault JsonNode :=
  if .node a ∈ s.freed then .error .useAfterFree
  else match s.heap[a]? with
    | none => .error .nullPointer
    | some n => .ok n

/-- `value = value->u.array.values[--value->u.array.length]`. -/
def descend (a : Nat) (u : JsonU) (child : Option (Option Nat)) :
    Except Fault (Option Nat × FreeState) :=
  match child with
  | none => .error .outOfBounds
  | some child => .ok (child, { s with heap := s.heap.modify a fun n => { n with u := u } })

/-- `break`: what the node points to is freed, and the node; its parent is next. -/
def ascend {α : Type} (a : Nat) (parent : Option Nat) (cells : List α) :
    Except Fault (Option Nat × FreeState) := do
  let s ← s.freeCells a cells
  let s ← s.free (.node a)
  .ok (parent, s)

/-- One iteration of the loop of `json_value_free_ex`. -/
def iteration (a : Nat) : Except Fault (Option Nat × FreeState) := do
  let node ← s.deref a
  match node.u with
  | .array length values =>
    if length = 0 then s.ascend a node.parent values
    else s.descend a (.array (length - 1) values) values[length - 1]?
  | .object length nameBytes values names objectMem =>
    let u := .object (length - 1) nameBytes values names objectMem
    if length = 0 then s.ascend a node.parent values
    else s.descend a u (values[length - 1]?.map JsonObjectEntry.value)
  | .string _ ptr => s.ascend a node.parent ptr
  | _ => s.ascend a node.parent ([] : List UInt8)

end FreeState

/-- `while (value)`: the next node, with the memory. -/
def freeStep : Option Nat × FreeState → Except (Except Fault FreeState) (Option Nat × FreeState)
  | (none, s) => .error (.ok s)
  | (some a, s) =>
    match s.iteration a with
    | .ok r => .ok r
    | .error f => .error (.error f)

/-- `json_value_free_ex(settings, value)`; none when out of fuel. -/
def jsonValueFreeEx (value : Option Nat) (s : FreeState) : Option (Except Fault FreeState) :=
  match value with
  | none => some (.ok s)
  | some a =>
    Loop.run freeStep (2 * s.heap.length + 1)
      (some a, { s with heap := s.heap.modify a fun n => { n with parent := none } })

/-- `while (alloc)` after `e_failed`. -/
def chainStep : Option Nat × FreeState → Except (Except Fault FreeState) (Option Nat × FreeState)
  | (none, s) => .error (.ok s)
  | (some a, s) =>
    match s.deref a, s.free (.node a) with
    | .ok node, .ok s => .ok (node.nextAlloc, s)
    | .error f, _ => .error (.error f)
    | _, .error f => .error (.error f)

/-- The nodes from `alloc` on are freed; none when out of fuel. -/
def freeChain (alloc : Option Nat) (s : FreeState) : Option (Except Fault FreeState) :=
  Loop.run chainStep (s.heap.length + 1) (alloc, s)

/-! ## The tree in memory -/

/-- The characters that have been stored. -/
def charsOf (cells : List (Option UInt8)) : Bytes := cells.map (·.getD 0)

/-- The tree that a `json_value*` points to. -/
def treeAt (heap : List JsonNode) : Nat → Option Nat → JsonValue
  | _, none => .nullptr
  | 0, some _ => .nullptr
  | fuel + 1, some a =>
    match heap[a]? with
    | none => .nullptr
    | some node => match node.u with
      | .object length _ values names _ =>
        .object ((values.take length).map fun entry =>
          (charsOf ((names.drop (entry.name.getD 0)).take entry.nameLength),
            treeAt heap fuel entry.value))
      | .array length values => .array ((values.take length).map (treeAt heap fuel))
      | .integer integer => .integer integer
      | .double dbl => .double dbl
      | .string length ptr => .string (charsOf (ptr.take length))
      | .boolean boolean => .boolean boolean
      | .null => .null

end Ssms.Json
