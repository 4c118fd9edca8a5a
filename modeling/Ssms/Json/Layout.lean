import Ssms.Json.Build
import Ssms.Json.Tree
import Ssms.Lib.Everywhere

/-!
# The nodes of a value in memory

The heap is a list of nodes in the order of their allocation, a value before what is in it.
`nodesIn` are the nodes of a value, `pending` those that the second pass has not come to yet.

* `newValue_layout`, `putAll_layout`: an allocation and a string that is stored, on such a heap.
* `ends_root`, `ends_entry`: the end of a value, which is linked into its parent.
-/

namespace Ssms.Json

open Ssms.Kernel Ssms.Lib Lenient

/-! ## The heap of a list of nodes -/

/-- The address of the first of some nodes, if there is one. -/
def firstAt (i : Nat) : List JsonBody → Option Nat
  | [] => none
  | _ :: _ => some i

/-- Nodes from address `i` on, linked in the order of their allocation. -/
def linkFrom (i : Nat) : List JsonBody → List JsonNode
  | [] => []
  | b :: l => ⟨b, firstAt (i + 1) l⟩ :: linkFrom (i + 1) l

/-- The heap of the nodes. -/
def link (l : List JsonBody) : List JsonNode := linkFrom 0 l

section Link

variable (pre post : List JsonBody) (b b' : JsonBody) (u : JsonU)

theorem firstAt_modify (i a : Nat) (l : List JsonBody) (f : JsonBody → JsonBody) :
    firstAt i (l.modify a f) = firstAt i l := by
  cases l <;> cases a <;> rfl

theorem modify_linkFrom (l : List JsonBody) : ∀ i a,
    (linkFrom i l).modify a (fun n => { n with u := u }) =
      linkFrom i (l.modify a fun b => { b with u := u }) := by
  induction l with
  | nil => exact fun i a => by cases a <;> rfl
  | cons b l ih =>
    intro i a
    cases a with
    | zero => rfl
    | succ a => rw [linkFrom, List.modify_succ_cons, List.modify_succ_cons, linkFrom, ih,
        firstAt_modify]

theorem getElem?_linkFrom : ∀ i,
    (linkFrom i (pre ++ b :: post))[pre.length]? = some ⟨b, firstAt (i + pre.length + 1) post⟩ := by
  induction pre with
  | nil => exact fun i => rfl
  | cons x pre ih =>
    intro i
    rw [List.cons_append, linkFrom, List.length_cons, List.getElem?_cons_succ, ih,
      Nat.add_right_comm i 1, Nat.add_assoc i]

/-- The first pass links its last node to a new one. -/
theorem linkFrom_concat : ∀ i, linkFrom i (pre ++ [b, b']) =
    ((linkFrom i (pre ++ [b])).modify pre.length
      fun n => { n with nextAlloc := some (i + pre.length + 1) }) ++ [⟨b', none⟩] := by
  induction pre with
  | nil => exact fun i => rfl
  | cons x pre ih =>
    intro i
    have hfirst : firstAt (i + 1) (pre ++ [b, b']) = firstAt (i + 1) (pre ++ [b]) := by
      cases pre <;> rfl
    simp only [List.cons_append, linkFrom, List.length_cons, List.modify_succ_cons, ih, hfirst]
    rw [Nat.add_right_comm i 1, Nat.add_assoc i]

@[simp]
theorem length_linkFrom (l : List JsonBody) : ∀ i, (linkFrom i l).length = l.length := by
  induction l with
  | nil => exact fun i => rfl
  | cons b l ih => exact fun i => by rw [linkFrom, List.length_cons, ih, List.length_cons]

end Link

/-- Memory with the nodes `l`, of which `k` have been allocated or taken. -/
def layout (first : Bool) (l : List JsonBody) (k : Nat) (top : Option Nat) : Memory where
  firstPass := first
  heap := link l
  top := top
  root := if k = 0 then none else some 0
  alloc :=
    if first then if k = 0 then none else some (k - 1)
    else if k < l.length then some k else none

/-- What is in memory before the nodes `l` are read: nothing in the first pass. -/
def pending (first : Bool) (l : List JsonBody) : List JsonBody := if first then [] else l

/-- A node of the first pass, or what the second one makes of the one it takes. -/
def Allocates (first : Bool) (u counted u' : JsonU) : Prop :=
  if first then u' = u else counted.allocate = .ok u'

section Layout

variable (first : Bool) (l pre post : List JsonBody) (k : Nat) (p top : Option Nat)

theorem setU_layout (b : JsonBody) (u : JsonU) :
    (layout first (pre ++ b :: post) k top).setU pre.length u =
      layout first (pre ++ { b with u := u } :: post) k top := by
  simp only [Memory.setU, layout, link, modify_linkFrom, modify_append_cons _ _ _ _ rfl,
    List.length_append, List.length_cons]

theorem deref_layout (b : JsonBody) :
    (layout first (pre ++ b :: post) k top).deref (some pre.length) =
      .ok (pre.length, ⟨b, firstAt (pre.length + 1) post⟩) := by
  simp only [Memory.deref, layout, link, getElem?_linkFrom, Nat.zero_add]

variable {first post} {u u' counted : JsonU}

theorem newValue_layout (hpost : first = true → post = []) (h : Allocates first u counted u') :
    (layout first (pre ++ (pending first (⟨p, counted⟩ :: l) ++ post)) pre.length p).newValue u =
      .ok (layout first (pre ++ ⟨p, u'⟩ :: (pending first l ++ post)) (pre.length + 1)
        (some pre.length)) := by
  cases first with
  | true =>
    obtain rfl := hpost rfl
    obtain rfl : u' = u := h
    rcases List.eq_nil_or_concat pre with rfl | ⟨pre, b, rfl⟩
    · rfl
    · have hlink := linkFrom_concat pre b ⟨p, u'⟩ 0
      simp [Memory.newValue, layout, pending, link, hlink]
  | false =>
    have h : counted.allocate = .ok u' := h
    have hset := setU_layout false pre (l ++ post) pre.length p ⟨p, counted⟩ u'
    have hderef := deref_layout false pre (l ++ post) pre.length p ⟨p, counted⟩
    have halloc : (layout false (pre ++ ⟨p, counted⟩ :: (l ++ post)) pre.length p).alloc =
        some pre.length := by
      simp [layout]
    have hnext : firstAt (pre.length + 1) (l ++ post) =
        if pre.length + 1 < (pre ++ ⟨p, u'⟩ :: (l ++ post)).length then some (pre.length + 1)
        else none := by
      cases l ++ post <;> simp [firstAt]
    have hpending : ∀ l, pending false l = l := fun l => rfl
    rw [Memory.newValue, if_neg (by simp [layout]), hpending, hpending, List.cons_append, halloc,
      hderef, ok_bind]
    dsimp only
    rw [h, ok_bind, hset, hnext]
    cases pre <;> rfl

end Layout

/-! ## What is in the nodes -/

/-- The cells of a string that has been stored. -/
def cellsOf (w : Bytes) : List (Option UInt8) := (w ++ [0]).map some

/-- The bytes of names, with the zero bytes that end them. -/
def namesLength (names : List Bytes) : Nat := (names.map fun name => name.length + 1).sum

/-- Entries whose names begin at an offset. -/
def entriesFrom (offset : Nat) : List (Bytes × Nat) → List JsonObjectEntry
  | [] => []
  | (name, a) :: es =>
    ⟨some offset, name.length, some a⟩ :: entriesFrom (offset + (name.length + 1)) es

/-- A string. -/
def stringOf (first : Bool) (w : Bytes) : JsonU :=
  .string w.length (if first then [] else cellsOf w)

/-- An array with the elements `done`, and room for `todo` more. -/
def arrayOf (first : Bool) (done : List Nat) (todo : Nat) : JsonU :=
  .array done.length (if first then [] else done.map some ++ List.replicate todo none)

/-- An object with the entries `done`, and room for more with the names `todo`. -/
def objectOf (first : Bool) (done : List (Bytes × Nat)) (todo : List Bytes) : JsonU :=
  if first then .object done.length (namesLength (done.map Prod.fst)) [] [] 0
  else .object done.length 0
    (entriesFrom 0 done ++ List.replicate todo.length ({} : JsonObjectEntry))
    ((done.map Prod.fst).flatMap cellsOf ++ List.replicate (namesLength todo) none)
    (namesLength (done.map Prod.fst))

/-- The same after the name of the next entry. -/
def namedOf (first : Bool) (done : List (Bytes × Nat)) (name : Bytes) (todo : List Bytes) : JsonU :=
  if first then .object done.length (namesLength (done.map Prod.fst) + (name.length + 1)) [] [] 0
  else .object done.length 0
    (entriesFrom 0 done ++
      ⟨some (namesLength (done.map Prod.fst)), name.length, none⟩ ::
        List.replicate todo.length ({} : JsonObjectEntry))
    ((done.map Prod.fst).flatMap cellsOf ++
      (cellsOf name ++ List.replicate (namesLength todo) none))
    (namesLength (done.map Prod.fst) + (name.length + 1))

/-- The node points to something that is allocated. -/
def JsonU.hasCells : JsonU → Bool
  | .object _ _ values _ _ => !values.isEmpty
  | .array _ values => !values.isEmpty
  | .string _ ptr => !ptr.isEmpty
  | _ => false

/-- Nothing but the nodes has been allocated, as in the first pass. -/
def Unfilled (l : List JsonBody) : Prop := ∀ b ∈ l, b.u.hasCells = false

section Nodes

variable {first : Bool}

theorem length_cellsOf (w : Bytes) : (cellsOf w).length = w.length + 1 := by
  simp [cellsOf]

theorem length_flatMap_cellsOf (names : List Bytes) :
    (names.flatMap cellsOf).length = namesLength names := by
  simp [List.length_flatMap, length_cellsOf, namesLength]

theorem length_entriesFrom (es : List (Bytes × Nat)) :
    ∀ offset, (entriesFrom offset es).length = es.length := by
  induction es with
  | nil => exact fun offset => rfl
  | cons e es ih =>
    obtain ⟨name, a⟩ := e
    exact fun offset => by rw [entriesFrom, List.length_cons, ih, List.length_cons]

theorem namesLength_append (names names' : List Bytes) :
    namesLength (names ++ names') = namesLength names + namesLength names' := by
  rw [namesLength, List.map_append, List.sum_append]
  rfl

theorem entriesFrom_concat (es : List (Bytes × Nat)) (name : Bytes) (a : Nat) :
    ∀ offset, entriesFrom offset (es ++ [(name, a)]) =
      entriesFrom offset es ++
        [⟨some (offset + namesLength (es.map Prod.fst)), name.length, some a⟩] := by
  induction es with
  | nil => exact fun offset => rfl
  | cons e es ih =>
    obtain ⟨name', a'⟩ := e
    intro offset
    have hlen : namesLength (((name', a') :: es).map Prod.fst) =
        name'.length + 1 + namesLength (es.map Prod.fst) := rfl
    rw [List.cons_append, entriesFrom, entriesFrom, ih, List.cons_append, hlen,
      Nat.add_assoc offset]

/-- An element is added. -/
theorem addEntry_arrayOf (done : List Nat) (todo a : Nat) :
    (arrayOf first done (todo + 1)).addEntry first a = .ok (arrayOf first (done ++ [a]) todo) := by
  cases first with
  | true => simp [arrayOf, JsonU.addEntry]
  | false =>
    simp [arrayOf, JsonU.addEntry, List.replicate_succ]

/-- What has been stored of the next entry's name. -/
def storedOf (done : List (Bytes × Nat)) (name : Bytes) (todo : List Bytes) : JsonU :=
  .object done.length 0
    (entriesFrom 0 done ++ List.replicate (todo.length + 1) ({} : JsonObjectEntry))
    ((done.map Prod.fst).flatMap cellsOf ++
      (cellsOf name ++ List.replicate (namesLength todo) none))
    (namesLength (done.map Prod.fst))

/-- A name is added. -/
theorem addName_first (done : List (Bytes × Nat)) (name : Bytes) (todo : List Bytes) :
    (objectOf true done (name :: todo)).addName true name.length =
      .ok (namedOf true done name todo) := by
  simp [objectOf, namedOf, JsonU.addName]

theorem addName_second (done : List (Bytes × Nat)) (name : Bytes) (todo : List Bytes) :
    (storedOf done name todo).addName false name.length = .ok (namedOf false done name todo) := by
  simp [storedOf, namedOf, JsonU.addName, length_entriesFrom, List.replicate_succ]

/-- A value is added. -/
theorem addEntry_namedOf (done : List (Bytes × Nat)) (name : Bytes) (todo : List Bytes) (a : Nat) :
    (namedOf first done name todo).addEntry first a =
      .ok (objectOf first (done ++ [(name, a)]) todo) := by
  cases first with
  | true => simp [objectOf, namedOf, JsonU.addEntry, namesLength]
  | false =>
    have hlen := length_entriesFrom done 0
    have hone : namesLength [name] = name.length + 1 := rfl
    simp [objectOf, namedOf, JsonU.addEntry, namesLength_append, entriesFrom_concat, hlen, hone]

theorem allocates_array (as : List Nat) :
    Allocates first (.array 0 []) (arrayOf true as 0) (arrayOf first [] as.length) := by
  cases first with
  | true => rfl
  | false =>
    cases as with
    | nil => rfl
    | cons a as => rfl

theorem allocates_object {es : List (Bytes × Nat)} (hroom : JsonU.entrySize * es.length < 2 ^ 31) :
    Allocates first (.object 0 0 [] [] 0) (objectOf true es [])
      (objectOf first [] (es.map Prod.fst)) := by
  cases first with
  | true => rfl
  | false =>
    cases es with
    | nil => rfl
    | cons e es =>
      have hroom : ¬ 2 ^ 31 ≤ JsonU.entrySize * (e :: es).length := by omega
      have hne : (e :: es).length ≠ 0 := by simp
      simp only [Allocates, objectOf, JsonU.allocate, if_neg hroom, if_neg hne, if_true,
        Bool.false_eq_true, if_false]
      simp [entriesFrom, namesLength]

theorem allocates_string (w : Bytes) : Allocates first (.string 0 []) (stringOf true w)
    (.string 0 (if first then [] else List.replicate (w.length + 1) none)) := by
  cases first <;> rfl

end Nodes

/-! ## Storing into the nodes -/

/-- What `string` points to: the cells of a node from an offset on. -/
structure Stores (string : StringPtr) (a offset : Nat) (U : List (Option UInt8) → JsonU) :
    Prop where
  store : ∀ {m : Memory} {node cells i b}, m.heap[a]? = some node → node.u = U cells →
    offset + i < cells.length → m.store string i b =
      .ok (m.setU a (U (cells.set (offset + i) (some b))))

theorem stores_value (a length : Nat) : Stores (.value a) a 0 (.string length) := by
  refine ⟨fun {m node cells i b} hnode hu hi => ?_⟩
  obtain ⟨⟨parent, u⟩, next⟩ := node
  obtain rfl : u = .string length cells := hu
  rw [Nat.zero_add] at hi ⊢
  simp only [Memory.store, hnode, if_pos hi]

theorem stores_name (a offset length nameBytes objectMem : Nat) (values : List JsonObjectEntry) :
    Stores (.name a offset) a offset
      fun names => .object length nameBytes values names objectMem := by
  refine ⟨fun {m node cells i b} hnode hu hi => ?_⟩
  obtain ⟨⟨parent, u⟩, next⟩ := node
  obtain rfl : u = .object length nameBytes values cells objectMem := hu
  simp only [Memory.store, hnode, if_pos hi]

section Storing

variable {first : Bool} {pre post : List JsonBody} {k : Nat} {p : Option Nat}

/-- The cells that are stored into one after the other. -/
theorem putAll_layout {string : StringPtr} {offset : Nat} {U : List (Option UInt8) → JsonU}
    (h : Stores string pre.length offset U) (post : List JsonBody) (k : Nat) (p top : Option Nat)
    (y : List (Option UInt8)) (w : Bytes) :
    ∀ {x : List (Option UInt8)} {i : Nat}, x.length = offset + i →
      Memory.putAll string i w
        (layout false (pre ++ ⟨p, U (x ++ (List.replicate w.length none ++ y))⟩ :: post) k top) =
      .ok (layout false (pre ++ ⟨p, U (x ++ (w.map some ++ y))⟩ :: post) k top) := by
  induction w with
  | nil => exact fun _ => rfl
  | cons b w ih =>
    intro x i hx
    have hcells : x ++ (List.replicate (b :: w).length none ++ y) =
        x ++ none :: (List.replicate w.length none ++ y) := rfl
    have hset : (x ++ none :: (List.replicate w.length none ++ y)).set x.length (some b) =
        (x ++ [some b]) ++ (List.replicate w.length none ++ y) := by simp
    have hstore := h.store (i := i) (b := b) (m := layout false
      (pre ++ ⟨p, U (x ++ none :: (List.replicate w.length none ++ y))⟩ :: post) k top)
      (getElem?_linkFrom pre post _ 0) rfl (by simp; omega)
    rw [← hx, hset, setU_layout] at hstore
    have hrest := ih (x := x ++ [some b]) (i := i + 1) (by simp; omega)
    rw [List.append_assoc x [some b] (w.map some ++ y)] at hrest
    rw [hcells, Memory.putAll, Memory.put, if_neg (by simp [layout]), hstore, ok_bind, hrest]
    rfl

/-- A string value is stored. -/
theorem storesString_layout (l pre : List JsonBody) (p : Option Nat) (w : Bytes)
    (hpost : first = true → post = []) :
    StoresString (layout first (pre ++ (pending first (⟨p, stringOf true w⟩ :: l) ++ post))
      pre.length p) w
      (layout first (pre ++ ⟨p, stringOf first w⟩ :: (pending first l ++ post)) (pre.length + 1)
        (some pre.length)) := by
  have hnew := newValue_layout l pre p hpost (allocates_string w)
  cases first with
  | true =>
    have h := StoresString.mk (w := w) hnew rfl (Memory.putAll_of_first rfl 0)
      (deref_layout _ _ _ _ _ _) rfl
    rwa [setU_layout] at h
  | false =>
    have hput := putAll_layout (stores_value pre.length 0) (l ++ post) (pre.length + 1) p
      (some pre.length) [] (w ++ [0]) (x := []) (i := 0) rfl
    rw [List.length_append, List.append_nil, List.append_nil] at hput
    have h := StoresString.mk (w := w) hnew rfl hput (deref_layout _ _ _ _ _ _) rfl
    rwa [setU_layout] at h

/-- The name of an entry is stored. -/
theorem storesName_layout (done : List (Bytes × Nat)) (name : Bytes) (todo : List Bytes) :
    StoresName (layout first (pre ++ ⟨p, objectOf first done (name :: todo)⟩ :: post) k
      (some pre.length)) name
      (layout first (pre ++ ⟨p, namedOf first done name todo⟩ :: post) k (some pre.length)) := by
  cases first with
  | true =>
    have hderef := deref_layout true pre post k (some pre.length)
      ⟨p, objectOf true done (name :: todo)⟩
    have h := StoresName.mk hderef rfl (Memory.putAll_of_first rfl _) hderef
      (addName_first done name todo)
    rwa [setU_layout] at h
  | false =>
    have hput := putAll_layout (stores_name pre.length (namesLength (done.map Prod.fst)) done.length
      0 (namesLength (done.map Prod.fst))
      (entriesFrom 0 done ++ List.replicate (todo.length + 1) ({} : JsonObjectEntry)))
      post k p (some pre.length) (List.replicate (namesLength todo) none) (name ++ [0])
      (x := (done.map Prod.fst).flatMap cellsOf) (i := 0) (length_flatMap_cellsOf _)
    have hobject : objectOf false done (name :: todo) = .object done.length 0
        (entriesFrom 0 done ++ List.replicate (todo.length + 1) ({} : JsonObjectEntry))
        ((done.map Prod.fst).flatMap cellsOf ++
          (List.replicate (name ++ [0]).length none ++ List.replicate (namesLength todo) none))
        (namesLength (done.map Prod.fst)) := by
      simp [objectOf, namesLength, List.replicate_append_replicate]
    rw [← hobject] at hput
    have h := StoresName.mk (deref_layout _ _ _ _ _ _) hobject hput (deref_layout _ _ _ _ _ _)
      (addName_second done name todo)
    rwa [setU_layout] at h

/-- A number is stored. -/
theorem storesNumber_layout (l pre : List JsonBody) (p : Option Nat) (n : Number)
    (hpost : first = true → post = []) :
    StoresNumber (layout first (pre ++ (pending first (⟨p, n.u⟩ :: l) ++ post)) pre.length p) n
      (layout first (pre ++ ⟨p, n.u⟩ :: (pending first l ++ post)) (pre.length + 1)
        (some pre.length)) := by
  cases first with
  | true =>
    have hzero : Allocates true (.integer 0) n.u (.integer 0) := rfl
    have hnew := newValue_layout l pre p hpost hzero
    have hlen : (layout true (pre ++ (pending true (⟨p, n.u⟩ :: l) ++ post)) pre.length
        p).heap.length = pre.length := by
      obtain rfl := hpost rfl
      simp [layout, link, pending]
    have h := StoresNumber.first (n := n) rfl hnew
    rwa [hlen, setU_layout] at h
  | false =>
    refine .second rfl (newValue_layout l pre p hpost ?_)
    cases n <;> rfl

/-- The end of the root value. -/
theorem ends_root {u : JsonU} : Ends (layout first (pre ++ ⟨none, u⟩ :: post) k (some pre.length))
    { needComma := true, done := true }
    (layout first (pre ++ ⟨none, u⟩ :: post) k (some pre.length)) :=
  .root (deref_layout _ _ _ _ _ _) rfl

/-- The end of an entry: the node that it is in has one more. -/
theorem ends_entry (first : Bool) (pre mid post : List JsonBody) (p : Option Nat)
    (k : Nat) (v : JsonU)
    {u u' : JsonU} {c : Nat} (hc : c = pre.length + (mid.length + 1))
    (hentry : u.addEntry first c = .ok u')
    (hroom : u'.lengthOf ≤ JsonState.uintMax) :
    Ends (layout first (pre ++ ⟨p, u⟩ :: (mid ++ ⟨some pre.length, v⟩ :: post)) k (some c))
      { needComma := true, seekValue := u.isArray }
      (layout first (pre ++ ⟨p, u'⟩ :: (mid ++ ⟨some pre.length, v⟩ :: post)) k
        (some pre.length)) := by
  have htop := deref_layout first (pre ++ ⟨p, u⟩ :: mid) post k (some c) ⟨some pre.length, v⟩
  rw [List.length_append, List.length_cons, ← hc, List.append_assoc, List.cons_append] at htop
  have h := Ends.entry htop (deref_layout _ _ _ _ _ _) hentry hroom
  rw [setU_layout] at h
  exact h

end Storing

/-! ## Trees -/

namespace JsonValue

mutual

/-- How many nodes a value has. -/
def size : JsonValue → Nat
  | .array vs => sizes vs + 1
  | .object ms => memberSizes ms + 1
  | _ => 1

def sizes : List JsonValue → Nat
  | [] => 0
  | v :: vs => v.size + sizes vs

def memberSizes : List (Bytes × JsonValue) → Nat
  | [] => 0
  | (_, v) :: ms => v.size + memberSizes ms

end

end JsonValue

open JsonValue (size sizes memberSizes)

/-- Where values are that come one after the other. -/
def addresses (base : Nat) : List JsonValue → List Nat
  | [] => []
  | v :: vs => base :: addresses (base + v.size) vs

/-- The same with names. -/
def memberAddresses (base : Nat) : List (Bytes × JsonValue) → List (Bytes × Nat)
  | [] => []
  | (name, v) :: ms => (name, base) :: memberAddresses (base + v.size) ms

/-- The first node of a value: as the first pass leaves it, or as the second one does. -/
def nodeOf (first : Bool) (base : Nat) : JsonValue → JsonU
  | .nullptr | .none | .null => .null
  | .boolean boolean => .boolean boolean
  | .integer integer => .integer integer
  | .double dbl => .double dbl
  | .string w => stringOf first w
  | .array vs => arrayOf first (addresses (base + 1) vs) 0
  | .object ms => objectOf first (memberAddresses (base + 1) ms) []

mutual

/-- The nodes inside a value at `base`. -/
def nodesIn (first : Bool) (base : Nat) : JsonValue → List JsonBody
  | .array vs => elementNodesOf first base (base + 1) vs
  | .object ms => memberNodesOf first base (base + 1) ms
  | _ => []

/-- The nodes of values from `base` on, in the node `parent`. -/
def elementNodesOf (first : Bool) (parent base : Nat) : List JsonValue → List JsonBody
  | [] => []
  | v :: vs => ⟨some parent, nodeOf first base v⟩ ::
      (nodesIn first base v ++ elementNodesOf first parent (base + v.size) vs)

def memberNodesOf (first : Bool) (parent base : Nat) : List (Bytes × JsonValue) → List JsonBody
  | [] => []
  | (_, v) :: ms => ⟨some parent, nodeOf first base v⟩ ::
      (nodesIn first base v ++ memberNodesOf first parent (base + v.size) ms)

end

/-- What the parser makes, and has room for. -/
def FitsNode : JsonValue → Prop
  | .nullptr | .none => False
  | .boolean boolean => boolean = 0 ∨ boolean = 1
  | .string ptr => ptr.length < 2 ^ 31
  | .array vs => vs.length < 2 ^ 31
  | .object ms => JsonU.entrySize * ms.length < 2 ^ 31
  | _ => True

section Trees

variable (first : Bool)

theorem length_addresses (vs : List JsonValue) : ∀ base,
    (addresses base vs).length = vs.length := by
  induction vs with
  | nil => exact fun base => rfl
  | cons v vs ih => exact fun base => by rw [addresses, List.length_cons, ih, List.length_cons]

theorem map_fst_memberAddresses (ms : List (Bytes × JsonValue)) :
    ∀ base, (memberAddresses base ms).map Prod.fst = ms.map Prod.fst := by
  induction ms with
  | nil => exact fun base => rfl
  | cons e ms ih =>
    obtain ⟨name, v⟩ := e
    exact fun base => by rw [memberAddresses, List.map_cons, ih, List.map_cons]

theorem length_memberAddresses (ms : List (Bytes × JsonValue)) (base : Nat) :
    (memberAddresses base ms).length = ms.length := by
  rw [← List.length_map (f := Prod.fst), map_fst_memberAddresses, List.length_map]

mutual

/-- The nodes of a value are as many as its size says. -/
theorem length_nodesIn : ∀ (v : JsonValue) (base : Nat), (nodesIn first base v).length + 1 = v.size
  | .nullptr, _ | .none, _ | .null, _ | .string _, _ | .integer _, _ | .double _, _
  | .boolean _, _ => rfl
  | .array vs, base => by rw [nodesIn, length_elementNodesOf vs, size]
  | .object ms, base => by rw [nodesIn, length_memberNodesOf ms, size]

theorem length_elementNodesOf : ∀ (vs : List JsonValue) (parent base : Nat),
    (elementNodesOf first parent base vs).length = sizes vs
  | [], _, _ => rfl
  | v :: vs, parent, base => by
    have hv := length_nodesIn v base
    rw [elementNodesOf, List.length_cons, List.length_append, length_elementNodesOf vs, sizes]
    omega

theorem length_memberNodesOf : ∀ (ms : List (Bytes × JsonValue)) (parent base : Nat),
    (memberNodesOf first parent base ms).length = memberSizes ms
  | [], _, _ => rfl
  | (_, v) :: ms, parent, base => by
    have hv := length_nodesIn v base
    rw [memberNodesOf, List.length_cons, List.length_append, length_memberNodesOf ms, memberSizes]
    omega

end

theorem hasCells_nodeOf (v : JsonValue) (base : Nat) : (nodeOf true base v).hasCells = false := by
  cases v <;> rfl

mutual

/-- The first pass allocates nodes only. -/
theorem unfilled_nodesIn : ∀ (v : JsonValue) (base : Nat), Unfilled (nodesIn true base v)
  | .nullptr, _ | .none, _ | .null, _ | .string _, _ | .integer _, _ | .double _, _
  | .boolean _, _ => nofun
  | .array vs, base => unfilled_elementNodesOf vs base (base + 1)
  | .object ms, base => unfilled_memberNodesOf ms base (base + 1)

theorem unfilled_elementNodesOf : ∀ (vs : List JsonValue) (parent base : Nat),
    Unfilled (elementNodesOf true parent base vs)
  | [], _, _ => nofun
  | v :: vs, parent, base => List.forall_mem_cons.mpr ⟨hasCells_nodeOf v base,
      List.forall_mem_append.mpr ⟨unfilled_nodesIn v base, unfilled_elementNodesOf vs parent _⟩⟩

theorem unfilled_memberNodesOf : ∀ (ms : List (Bytes × JsonValue)) (parent base : Nat),
    Unfilled (memberNodesOf true parent base ms)
  | [], _, _ => nofun
  | (_, v) :: ms, parent, base => List.forall_mem_cons.mpr ⟨hasCells_nodeOf v base,
      List.forall_mem_append.mpr ⟨unfilled_nodesIn v base, unfilled_memberNodesOf ms parent _⟩⟩

end

end Trees

end Ssms.Json
