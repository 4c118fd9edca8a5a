import Ssms.Json.Layout

/-!
# Both passes lay out the nodes of a value

* `builds_value`: reading a value appends its nodes in the first pass, and fills them in in the
  second one.
-/

namespace Ssms.Json

open Ssms.Kernel Ssms.Lib Lenient
open JsonValue (size sizes memberSizes)

section Filling

variable {first : Bool} {pre mid post : List JsonBody} {p : Option Nat} {k : Nat} {f : Flags}
  {m' : Memory}

theorem pending_append (l l' : List JsonBody) :
    pending first (l ++ l') = pending first l ++ pending first l' := by
  cases first <;> rfl

@[simp]
theorem pending_nil : pending first [] = [] := by
  cases first <;> rfl

theorem lengthOf_objectOf {done : List (Bytes × Nat)} {todo : List Bytes} :
    (objectOf first done todo).lengthOf = done.length := by
  cases first <;> rfl

theorem objectOf_eq (first : Bool) (done : List (Bytes × Nat)) (todo : List Bytes) :
    ∃ length nameBytes values names objectMem,
      objectOf first done todo = .object length nameBytes values names objectMem := by
  cases first <;> exact ⟨_, _, _, _, _, rfl⟩

theorem isArray_namedOf (done : List (Bytes × Nat)) (name : Bytes) (todo : List Bytes) :
    (namedOf first done name todo).isArray = false := by
  cases first <;> rfl

theorem topIsArray_layout (done : List Nat) (todo : Nat) :
    (layout first (pre ++ ⟨p, arrayOf first done todo⟩ :: post) k (some pre.length)).topIsArray =
      .ok true := by
  have hderef := deref_layout first pre post k (some pre.length) ⟨p, arrayOf first done todo⟩
  simp only [layout] at hderef
  simp only [Memory.topIsArray, layout, hderef, ok_bind]
  rfl

/-! ## Values of one node -/

theorem builds_null (hpost : first = true → post = [])
    (hend : Ends (layout first (pre ++ ⟨p, .null⟩ :: post) (pre.length + 1) (some pre.length))
      f m') :
    Builds (.value .null) (layout first (pre ++ (pending first [⟨p, .null⟩] ++ post)) pre.length p)
      f m' := by
  have hnull : Allocates first .null .null .null := by cases first <;> rfl
  have hnew := newValue_layout [] pre p hpost hnull
  rw [pending_nil] at hnew
  exact .null hnew hend

theorem builds_boolean {b : BitVec 32} (hb : b = 0 ∨ b = 1) (hpost : first = true → post = [])
    (hend : Ends (layout first (pre ++ ⟨p, .boolean b⟩ :: post) (pre.length + 1) (some pre.length))
      f m') :
    Builds (.value (.boolean b))
      (layout first (pre ++ (pending first [⟨p, .boolean b⟩] ++ post)) pre.length p) f m' := by
  have hboolean : Allocates first (.boolean 0) (.boolean b)
      (.boolean (if first then 0 else b)) := by
    cases first <;> rfl
  have hnew := newValue_layout [] pre p hpost hboolean
  rw [pending_nil] at hnew
  rcases hb with rfl | rfl
  · rw [ite_self] at hnew
    exact .false hnew hend
  · refine .true hnew (deref_layout _ _ _ _ _ _) ?_
    rwa [setU_layout]

theorem builds_integer {n : BitVec 64} (hpost : first = true → post = [])
    (hend : Ends (layout first (pre ++ ⟨p, .integer n⟩ :: post) (pre.length + 1) (some pre.length))
      f m') :
    Builds (.value (.integer n))
      (layout first (pre ++ (pending first [⟨p, .integer n⟩] ++ post)) pre.length p) f m' := by
  have hnumber := storesNumber_layout [] pre p (.integer n) hpost
  rw [pending_nil] at hnumber
  exact .integer hnumber hend

theorem builds_double {x : Double} (hpost : first = true → post = [])
    (hend : Ends (layout first (pre ++ ⟨p, .double x⟩ :: post) (pre.length + 1) (some pre.length))
      f m') :
    Builds (.value (.double x))
      (layout first (pre ++ (pending first [⟨p, .double x⟩] ++ post)) pre.length p) f m' := by
  have hnumber := storesNumber_layout [] pre p (.double x) hpost
  rw [pending_nil] at hnumber
  exact .double hnumber hend

theorem builds_string {w : Bytes} (hpost : first = true → post = [])
    (hend : Ends (layout first (pre ++ ⟨p, stringOf first w⟩ :: post) (pre.length + 1)
      (some pre.length)) f m') :
    Builds (.value (.string w))
      (layout first (pre ++ (pending first [⟨p, stringOf true w⟩] ++ post)) pre.length p) f m' := by
  have hstring := storesString_layout [] pre p w hpost
  rw [pending_nil] at hstring
  exact .string hstring hend

/-! ## Trees -/

mutual

/-- **Where the nodes of a value end up in memory, the parser builds it.** -/
theorem builds_value : ∀ {v : JsonValue}, Everywhere JsonValue.children FitsNode v →
    ∀ (pre post : List JsonBody) (p : Option Nat) {f : Flags} {m' : Memory},
      (first = true → post = []) →
      Ends (layout first (pre ++ ⟨p, nodeOf first pre.length v⟩ ::
        (nodesIn first pre.length v ++ post)) (pre.length + v.size) (some pre.length)) f m' →
      Builds (.value v) (layout first (pre ++ (pending first
        (⟨p, nodeOf true pre.length v⟩ :: nodesIn true pre.length v) ++ post)) pre.length p) f m'
  | .nullptr, hv, _, _, _, _, _, _, _ | .none, hv, _, _, _, _, _, _, _ => hv.here.elim
  | .null, _, _, _, _, _, _, hpost, hend => builds_null hpost hend
  | .boolean b, hv, _, _, _, _, _, hpost, hend => builds_boolean hv.here hpost hend
  | .integer k, _, _, _, _, _, _, hpost, hend => builds_integer hpost hend
  | .double x, _, _, _, _, _, _, hpost, hend => builds_double hpost hend
  | .string w, _, _, _, _, _, _, hpost, hend => builds_string hpost hend
  | .array vs, hv, pre, post, p, f, m', hpost, hend => by
    have hnew := newValue_layout (elementNodesOf true pre.length (pre.length + 1) vs) pre p hpost
      (allocates_array (addresses (pre.length + 1) vs))
    rw [length_addresses] at hnew
    have hsize : pre.length + (JsonValue.array vs).size = pre.length + 1 + sizes vs := by
      rw [size]
      omega
    have hroom : ([] : List Nat).length + vs.length ≤ JsonState.uintMax := by
      have hlength : vs.length < 2 ^ 31 := hv.here
      rw [List.length_nil, JsonState.uintMax]
      omega
    rw [hsize] at hend
    exact .array hnew (builds_elements (fun v hmem => hv.inside v hmem) pre [] post p []
      (pre.length + 1) false hpost rfl hroom hend)
  | .object ms, hv, pre, post, p, f, m', hpost, hend => by
    have hentries : JsonU.entrySize * ms.length < 2 ^ 31 := hv.here
    have hnew := newValue_layout (memberNodesOf true pre.length (pre.length + 1) ms) pre p hpost
      (allocates_object (by rwa [length_memberAddresses ms (pre.length + 1)]))
    rw [map_fst_memberAddresses] at hnew
    have hsize : pre.length + (JsonValue.object ms).size = pre.length + 1 + memberSizes ms := by
      rw [size]
      omega
    have hroom : ([] : List (Bytes × Nat)).length + ms.length ≤ JsonState.uintMax := by
      rw [List.length_nil, Nat.zero_add]
      unfold JsonU.entrySize at hentries
      unfold JsonState.uintMax
      omega
    rw [hsize] at hend
    exact .object hnew (builds_members (fun e hmem => hv.inside e.2 (List.mem_map_of_mem hmem)) pre
      [] post p [] (pre.length + 1) false hpost rfl hroom hend)

theorem builds_elements : ∀ {vs : List JsonValue},
    (∀ v ∈ vs, Everywhere JsonValue.children FitsNode v) →
    ∀ (pre mid post : List JsonBody) (p : Option Nat) (done : List Nat) (base : Nat) (comma : Bool)
      {f : Flags} {m' : Memory}, (first = true → post = []) →
      base = pre.length + (mid.length + 1) → done.length + vs.length ≤ JsonState.uintMax →
      Ends (layout first (pre ++ ⟨p, arrayOf first (done ++ addresses base vs) 0⟩ ::
        (mid ++ (elementNodesOf first pre.length base vs ++ post))) (base + sizes vs)
          (some pre.length)) f m' →
      Builds (.elements comma vs) (layout first (pre ++ ⟨p, arrayOf first done vs.length⟩ ::
        (mid ++ (pending first (elementNodesOf true pre.length base vs) ++ post))) base
          (some pre.length)) f m'
  | [], _, pre, mid, post, p, done, base, comma, f, m', hpost, hbase, hroom, hend => by
    refine .endElements (topIsArray_layout done 0) ?_
    simpa [elementNodesOf, addresses, sizes] using hend
  | v :: vs, hvs, pre, mid, post, p, done, base, comma, f, m', hpost, hbase, hroom, hend => by
    obtain ⟨hv, hvs⟩ := List.forall_mem_cons.mp hvs
    rw [List.length_cons] at hroom
    have hlen := length_nodesIn first v base
    have hpre : (pre ++ ⟨p, arrayOf first done (vs.length + 1)⟩ :: mid).length = base := by
      rw [List.length_append, List.length_cons, hbase]
    have hends := ends_entry first pre mid (nodesIn first base v ++
      (pending first (elementNodesOf true pre.length (base + v.size) vs) ++ post)) p (base + v.size)
      (nodeOf first base v) hbase (addEntry_arrayOf done vs.length base)
      (by simp only [arrayOf, JsonU.lengthOf, List.length_append, List.length_singleton]; omega)
    have harray : (arrayOf first done (vs.length + 1)).isArray = true := rfl
    rw [harray] at hends
    have hfirst := builds_value hv (pre ++ ⟨p, arrayOf first done (vs.length + 1)⟩ :: mid)
      (pending first (elementNodesOf true pre.length (base + v.size) vs) ++ post) (some pre.length)
      (fun h => by rw [hpost h, h]; rfl)
      (by rw [hpre, List.append_assoc, List.cons_append]; exact hends)
    have hend' : Ends (layout first (pre ++ ⟨p, arrayOf first ((done ++ [base]) ++
        addresses (base + v.size) vs) 0⟩ :: ((mid ++ ⟨some pre.length, nodeOf first base v⟩ ::
          nodesIn first base v) ++ (elementNodesOf first pre.length (base + v.size) vs ++ post)))
        (base + v.size + sizes vs) (some pre.length)) f m' := by
      simpa [elementNodesOf, addresses, sizes, Nat.add_assoc] using hend
    have hrest := builds_elements hvs pre
      (mid ++ ⟨some pre.length, nodeOf first base v⟩ :: nodesIn first base v) post p
      (done ++ [base])
      (base + v.size) true hpost
      (by rw [List.length_append, List.length_cons]; omega)
      (by rw [List.length_append, List.length_singleton]; omega) hend'
    have hnodes : elementNodesOf true pre.length base (v :: vs) =
        (⟨some pre.length, nodeOf true base v⟩ :: nodesIn true base v) ++
          elementNodesOf true pre.length (base + v.size) vs := rfl
    rw [hpre] at hfirst
    rw [List.append_assoc, List.cons_append] at hrest
    refine .element ?_ hrest
    rw [hnodes, pending_append]
    simpa only [List.append_assoc, List.cons_append, List.length_cons] using hfirst

theorem builds_members : ∀ {ms : List (Bytes × JsonValue)},
    (∀ e ∈ ms, Everywhere JsonValue.children FitsNode e.2) →
    ∀ (pre mid post : List JsonBody) (p : Option Nat) (done : List (Bytes × Nat)) (base : Nat)
      (comma : Bool) {f : Flags} {m' : Memory}, (first = true → post = []) →
      base = pre.length + (mid.length + 1) → done.length + ms.length ≤ JsonState.uintMax →
      Ends (layout first (pre ++ ⟨p, objectOf first (done ++ memberAddresses base ms) []⟩ ::
        (mid ++ (memberNodesOf first pre.length base ms ++ post))) (base + memberSizes ms)
          (some pre.length)) f m' →
      Builds (.members comma ms) (layout first (pre ++ ⟨p, objectOf first done (ms.map Prod.fst)⟩ ::
        (mid ++ (pending first (memberNodesOf true pre.length base ms) ++ post))) base
          (some pre.length)) f m'
  | [], _, pre, mid, post, p, done, base, comma, f, m', hpost, hbase, hroom, hend => by
    obtain ⟨length, nameBytes, values, names, objectMem, hu⟩ := objectOf_eq first done []
    refine .endMembers (deref_layout _ _ _ _ _ _) hu ?_
    simpa [memberNodesOf, memberAddresses, memberSizes] using hend
  | (name, v) :: ms, hms, pre, mid, post, p, done, base, comma, f, m', hpost, hbase, hroom,
      hend => by
    obtain ⟨hv, hms⟩ := List.forall_mem_cons.mp hms
    rw [List.length_cons] at hroom
    have hlen := length_nodesIn first v base
    have hpre : (pre ++ ⟨p, namedOf first done name (ms.map Prod.fst)⟩ :: mid).length = base := by
      rw [List.length_append, List.length_cons, hbase]
    have hends := ends_entry first pre mid (nodesIn first base v ++
      (pending first (memberNodesOf true pre.length (base + v.size) ms) ++ post)) p (base + v.size)
      (nodeOf first base v) hbase (addEntry_namedOf done name (ms.map Prod.fst) base)
      (by rw [lengthOf_objectOf, List.length_append, List.length_singleton]; omega)
    rw [isArray_namedOf] at hends
    have hfirst := builds_value hv (pre ++ ⟨p, namedOf first done name (ms.map Prod.fst)⟩ :: mid)
      (pending first (memberNodesOf true pre.length (base + v.size) ms) ++ post) (some pre.length)
      (fun h => by rw [hpost h, h]; rfl)
      (by rw [hpre, List.append_assoc, List.cons_append]; exact hends)
    have hend' : Ends (layout first (pre ++ ⟨p, objectOf first ((done ++ [(name, base)]) ++
        memberAddresses (base + v.size) ms) []⟩ ::
        ((mid ++ ⟨some pre.length, nodeOf first base v⟩ ::
          nodesIn first base v) ++ (memberNodesOf first pre.length (base + v.size) ms ++ post)))
        (base + v.size + memberSizes ms) (some pre.length)) f m' := by
      simpa [memberNodesOf, memberAddresses, memberSizes, Nat.add_assoc] using hend
    have hrest := builds_members hms pre
      (mid ++ ⟨some pre.length, nodeOf first base v⟩ :: nodesIn first base v) post p
      (done ++ [(name, base)]) (base + v.size) true hpost
      (by rw [List.length_append, List.length_cons]; omega)
      (by rw [List.length_append, List.length_singleton]; omega) hend'
    have hnodes : memberNodesOf true pre.length base ((name, v) :: ms) =
        (⟨some pre.length, nodeOf true base v⟩ :: nodesIn true base v) ++
          memberNodesOf true pre.length (base + v.size) ms := rfl
    rw [hpre] at hfirst
    rw [List.append_assoc, List.cons_append] at hrest
    refine .member (storesName_layout done name (ms.map Prod.fst)) ?_ hrest
    rw [hnodes, pending_append]
    simpa only [List.append_assoc, List.cons_append] using hfirst

end

end Filling

end Ssms.Json
