import Ssms.Json.Lenient
import Ssms.Lib.Modify

/-!
# What reading a value does to memory

`Builds φ m f m'`: reading `φ` takes the memory from `m` to `m'` and leaves the flags `f`. It is the
same in both passes, and put together from the operations of the parser. How the bytes of the text
lead there is the matter of `leads_reads`, and what the memory looks like that of `builds_value`.
-/

namespace Ssms.Json

open Ssms.Kernel Ssms.Lib Lenient

theorem ok_bind {ε α β : Type} (a : α) (f : α → Except ε β) : (Except.ok a >>= f) = f a := rfl

theorem error_bind {ε α β : Type} (e : ε) (f : α → Except ε β) :
    (Except.error e >>= f) = .error e := rfl

/-- Only an object has names. -/
theorem JsonU.addName_inv {firstPass : Bool} {n : Nat} {u u' : JsonU}
    (h : u.addName firstPass n = .ok u') :
    ∃ length nameBytes values names objectMem,
      u = .object length nameBytes values names objectMem := by
  cases u with
  | object => exact ⟨_, _, _, _, _, rfl⟩
  | _ => cases h

namespace Memory

variable {m m' : Memory} {a : Nat} {u u' : JsonU}

@[simp] theorem setU_firstPass : (m.setU a u).firstPass = m.firstPass := rfl
@[simp] theorem setU_top : (m.setU a u).top = m.top := rfl
@[simp] theorem setU_root : (m.setU a u).root = m.root := rfl
@[simp] theorem setU_alloc : (m.setU a u).alloc = m.alloc := rfl

@[simp] theorem length_heap_setU : (m.setU a u).heap.length = m.heap.length :=
  List.length_modify _ _ _

@[simp] theorem setU_setU : (m.setU a u).setU a u' = m.setU a u' := by
  simp only [setU, List.modify_modify_eq]
  rfl

/-- The node whose `u` has been set. -/
theorem deref_setU (ha : a < m.heap.length) :
    ∃ node, (m.setU a u).deref (some a) = .ok (a, node) ∧ node.u = u := by
  refine ⟨{ m.heap[a] with u := u }, ?_, rfl⟩
  simp [deref, setU, ha]

/-- What is allocated in the first pass. -/
theorem newValue_first (hfirst : m.firstPass = true) (h : m.newValue u = .ok m') :
    m'.top = some m.heap.length ∧ m.heap.length < m'.heap.length ∧
      m'.setU m.heap.length u = m' ∧ m'.firstPass = true := by
  rw [newValue, if_pos hfirst] at h
  cases h
  refine ⟨rfl, ?_, ?_, hfirst⟩
  · cases m.alloc <;> simp
  · rw [setU]
    cases m.alloc <;> simp only [modify_append_cons _ _ _ _ (List.length_modify _ _ _).symm,
      modify_append_cons _ _ _ _ rfl]

/-- What is taken, and allocated, in the second pass. -/
theorem newValue_second (hsecond : m.firstPass = false) (h : m.newValue u = .ok m') :
    ∃ value node u', m.deref m.alloc = .ok (value, node) ∧ node.u.allocate = .ok u' ∧
      m' = { m.setU value u' with
        root := m.root <|> some value
        alloc := node.nextAlloc
        top := some value } := by
  rw [newValue, if_neg (by simp [hsecond])] at h
  cases hnode : m.deref m.alloc with
  | error e =>
    rw [hnode] at h
    cases h
  | ok r =>
    obtain ⟨value, node⟩ := r
    simp only [hnode, ok_bind] at h
    cases hu : node.u.allocate with
    | error e =>
      rw [hu] at h
      cases h
    | ok u' =>
      rw [hu] at h
      exact ⟨value, node, u', rfl, hu, (Except.ok.inj h).symm⟩

theorem newValue_firstPass (h : m.newValue u = .ok m') : m'.firstPass = m.firstPass := by
  cases hfirst : m.firstPass with
  | true => exact (newValue_first hfirst h).2.2.2
  | false =>
    obtain ⟨value, node, u', -, -, rfl⟩ := newValue_second hfirst h
    exact hfirst

theorem deref_inv {p : Option Nat} {node : JsonNode} (h : m.deref p = .ok (a, node)) :
    p = some a ∧ m.heap[a]? = some node := by
  cases p with
  | none => cases h
  | some b =>
    rw [deref] at h
    cases hb : m.heap[b]? with
    | none =>
      rw [hb] at h
      cases h
    | some n =>
      rw [hb] at h
      cases h
      exact ⟨rfl, hb⟩

/-- What has been allocated can be dereferenced. -/
theorem deref_newValue (h : m.newValue u = .ok m') (htop : m'.top = some a) :
    ∃ node, m'.deref (some a) = .ok (a, node) := by
  cases hfirst : m.firstPass with
  | true =>
    obtain ⟨htop', hlen, -⟩ := newValue_first hfirst h
    obtain rfl : a = m.heap.length := Option.some.inj (htop.symm.trans htop')
    exact ⟨m'.heap[m.heap.length], by simp [deref, hlen]⟩
  | false =>
    obtain ⟨value, node, u', hnode, -, rfl⟩ := newValue_second hfirst h
    obtain rfl : value = a := Option.some.inj htop
    obtain ⟨hlt, -⟩ := List.getElem?_eq_some_iff.mp (deref_inv hnode).2
    obtain ⟨node', hnode', -⟩ := deref_setU (m := m) (u := u') hlt
    exact ⟨node', hnode'⟩

/-! ## Characters -/

/-- What `string_add` does to memory. -/
def put (m : Memory) (string : StringPtr) (index : Nat) (b : UInt8) : Except Fault Memory :=
  if m.firstPass then .ok m else m.store string index b

/-- Characters one after the other. -/
def putAll (string : StringPtr) : Nat → Bytes → Memory → Except Fault Memory
  | _, [], m => .ok m
  | n, b :: w, m => m.put string n b >>= putAll string (n + 1) w

variable {string : StringPtr} {n : Nat} {w : Bytes}

theorem putAll_append (w w' : Bytes) : ∀ n m, putAll string n (w ++ w') m =
    (putAll string n w m >>= putAll string (n + w.length) w') := by
  induction w with
  | nil => exact fun n m => rfl
  | cons b w ih =>
    intro n m
    rw [List.cons_append, putAll, putAll]
    cases m.put string n b with
    | error f => rfl
    | ok m₁ => rw [ok_bind, ok_bind, ih, List.length_cons, Nat.add_right_comm, Nat.add_assoc]

theorem putAll_cons_inv {b : UInt8} (h : putAll string n (b :: w) m = .ok m') :
    ∃ m₁, m.put string n b = .ok m₁ ∧ putAll string (n + 1) w m₁ = .ok m' := by
  rw [putAll] at h
  cases hput : m.put string n b with
  | error f =>
    rw [hput] at h
    cases h
  | ok m₁ => exact ⟨m₁, rfl, by rwa [hput] at h⟩

theorem putAll_append_inv {w' : Bytes} (h : putAll string n (w ++ w') m = .ok m') :
    ∃ m₁, putAll string n w m = .ok m₁ ∧ putAll string (n + w.length) w' m₁ = .ok m' := by
  rw [putAll_append] at h
  cases hput : putAll string n w m with
  | error f =>
    rw [hput] at h
    cases h
  | ok m₁ => exact ⟨m₁, rfl, by rwa [hput] at h⟩

theorem putAll_of_first (h : m.firstPass = true) : ∀ n, putAll string n w m = .ok m := by
  induction w with
  | nil => exact fun n => rfl
  | cons b w ih => exact fun n => by rw [putAll, put, if_pos h, ok_bind, ih]

end Memory

/-! ## Values -/

/-- The value `top` has ended. -/
inductive Ends (m : Memory) : Flags → Memory → Prop
  | root {a node} (htop : m.deref m.top = .ok (a, node)) (hparent : node.parent = none) :
      Ends m { needComma := true, done := true } m
  | entry {child node p parent u} (htop : m.deref m.top = .ok (child, node))
      (hparent : m.deref node.parent = .ok (p, parent))
      (hentry : parent.u.addEntry m.firstPass child = .ok u)
      (hroom : u.lengthOf ≤ JsonState.uintMax) :
      Ends m { needComma := true, seekValue := parent.u.isArray }
        { m.setU p u with top := some p }

/-- A string value. -/
inductive StoresString (m : Memory) (w : Bytes) : Memory → Prop
  | mk {m₁ m₂ a node length ptr} (hnew : m.newValue (.string 0 []) = .ok m₁)
      (htop : m₁.top = some a) (hput : Memory.putAll (.value a) 0 (w ++ [0]) m₁ = .ok m₂)
      (hnode : m₂.deref m₂.top = .ok (a, node)) (hu : node.u = .string length ptr) :
      StoresString m w (m₂.setU a (.string w.length ptr))

/-- The name of an entry of `top`. -/
inductive StoresName (m : Memory) (w : Bytes) : Memory → Prop
  | mk {m₁ a node length nameBytes values names objectMem node' u'}
      (hnode : m.deref m.top = .ok (a, node))
      (hu : node.u = .object length nameBytes values names objectMem)
      (hput : Memory.putAll (.name a objectMem) 0 (w ++ [0]) m = .ok m₁)
      (hnode' : m₁.deref m₁.top = .ok (a, node'))
      (hname : node'.u.addName m₁.firstPass w.length = .ok u') : StoresName m w (m₁.setU a u')

/-- A number, which the first pass computes. -/
inductive StoresNumber (m : Memory) (n : Number) : Memory → Prop
  | first {m₁} (hpass : m.firstPass = true) (hnew : m.newValue (.integer 0) = .ok m₁) :
      StoresNumber m n (m₁.setU m.heap.length n.u)
  | second {m₁} (hpass : m.firstPass = false) (hnew : m.newValue (.integer 0) = .ok m₁) :
      StoresNumber m n m₁

/-- **Reading a phrase takes one memory to another.** -/
inductive Builds : Phrase → Memory → Flags → Memory → Prop
  | null {m m₁ m' f} (hnew : m.newValue .null = .ok m₁) (hend : Ends m₁ f m') :
      Builds (.value .null) m f m'
  | true {m m₁ m' a node f} (hnew : m.newValue (.boolean 0) = .ok m₁)
      (htop : m₁.deref m₁.top = .ok (a, node)) (hend : Ends (m₁.setU a (.boolean 1)) f m') :
      Builds (.value (.boolean 1)) m f m'
  | false {m m₁ m' f} (hnew : m.newValue (.boolean 0) = .ok m₁) (hend : Ends m₁ f m') :
      Builds (.value (.boolean 0)) m f m'
  | integer {m m₁ m' k f} (hnumber : StoresNumber m (.integer k) m₁) (hend : Ends m₁ f m') :
      Builds (.value (.integer k)) m f m'
  | double {m m₁ m' x f} (hnumber : StoresNumber m (.double x) m₁) (hend : Ends m₁ f m') :
      Builds (.value (.double x)) m f m'
  | string {m m₁ m' w f} (hstring : StoresString m w m₁) (hend : Ends m₁ f m') :
      Builds (.value (.string w)) m f m'
  | array {m m₁ m' vs f} (hnew : m.newValue (.array 0 []) = .ok m₁)
      (hvs : Builds (.elements .false vs) m₁ f m') : Builds (.value (.array vs)) m f m'
  | object {m m₁ m' ms f} (hnew : m.newValue (.object 0 0 [] [] 0) = .ok m₁)
      (hms : Builds (.members .false ms) m₁ f m') : Builds (.value (.object ms)) m f m'
  | endElements {m m' comma f} (harray : m.topIsArray = .ok .true) (hend : Ends m f m') :
      Builds (.elements comma []) m f m'
  | element {m m₁ m' comma v vs f}
      (hv : Builds (.value v) m { needComma := .true, seekValue := .true } m₁)
      (hvs : Builds (.elements .true vs) m₁ f m') : Builds (.elements comma (v :: vs)) m f m'
  | endMembers {m m' comma a node length nameBytes values names objectMem f}
      (hnode : m.deref m.top = .ok (a, node))
      (hu : node.u = .object length nameBytes values names objectMem) (hend : Ends m f m') :
      Builds (.members comma []) m f m'
  | member {m m₁ m₂ m' comma name v ms f} (hname : StoresName m name m₁)
      (hv : Builds (.value v) m₁ { needComma := .true } m₂)
      (hms : Builds (.members .true ms) m₂ f m') :
      Builds (.members comma ((name, v) :: ms)) m f m'

/-- Whether a comma comes first makes no difference. -/
theorem Builds.elements_comma {comma comma' : Bool} {vs : List JsonValue} {m m' : Memory}
    {f : Flags} (h : Builds (.elements comma vs) m f m') : Builds (.elements comma' vs) m f m' := by
  cases h with
  | endElements harray hend => exact .endElements harray hend
  | element hv hvs => exact .element hv hvs

theorem Builds.members_comma {comma comma' : Bool} {ms : List (Bytes × JsonValue)} {m m' : Memory}
    {f : Flags} (h : Builds (.members comma ms) m f m') : Builds (.members comma' ms) m f m' := by
  cases h with
  | endMembers hnode hu hend => exact .endMembers hnode hu hend
  | member hname hv hms => exact .member hname hv hms

end Ssms.Json
