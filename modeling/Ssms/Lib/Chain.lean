import Mathlib.Data.List.Nodup

/-!
# Chains of nodes in a heap

A heap is a list of nodes, a pointer is null (`none`) or a place in it, and `next` is the pointer
that a node holds. `Chain next heap p es`: from `p` on, one finds the nodes `es` and then null.
There is at most one such chain (`Chain.unique`), it is no longer than the heap (`Chain.length_le`),
which bounds a loop along it, and it is found again in every heap that keeps its nodes
(`Chain.transfer`, `Chain.append`).
-/

namespace Ssms.Lib

variable {ν : Type} {next : ν → Option Nat} {heap heap' : List ν} {p : Option Nat} {es es' : List ν}

/-- The nodes found from a pointer on, up to null. -/
inductive Chain (next : ν → Option Nat) (heap : List ν) : Option Nat → List ν → Prop
  | null : Chain next heap none []
  | node {p e es} (here : heap[p]? = some e) (rest : Chain next heap (next e) es) :
      Chain next heap (some p) (e :: es)

namespace Chain

theorem unique (h : Chain next heap p es) (h' : Chain next heap p es') : es = es' := by
  induction h generalizing es' with
  | null =>
    cases h'
    rfl
  | node here rest ih =>
    cases h' with
    | node here' rest' =>
      obtain rfl := Option.some.inj (here.symm.trans here')
      rw [ih rest']

/-- There is a node exactly where the pointer is not null. -/
theorem isSome_eq (h : Chain next heap p es) : p.isSome = !es.isEmpty := by
  cases h <;> rfl

/-- **A chain is found again where its nodes still point to the same places.** -/
theorem transfer {δ : Type} (f : ν → δ) (h : Chain next heap p es)
    (hkeep : ∀ (p : Nat) e, heap[p]? = some e →
      ∃ e', heap'[p]? = some e' ∧ next e' = next e ∧ f e' = f e) :
    ∃ es', Chain next heap' p es' ∧ es'.map f = es.map f := by
  induction h with
  | null => exact ⟨[], .null, rfl⟩
  | node here rest ih =>
    obtain ⟨e', here', hnext, hf⟩ := hkeep _ _ here
    obtain ⟨es', rest', hmap⟩ := ih
    exact ⟨e' :: es', .node here' (hnext ▸ rest'), by rw [List.map_cons, hf, hmap, List.map_cons]⟩

theorem append (h : Chain next heap p es) (l : List ν) : Chain next (heap ++ l) p es := by
  have hkeep (p : Nat) (e : ν) (here : heap[p]? = some e) :
      ∃ e', (heap ++ l)[p]? = some e' ∧ next e' = next e ∧ id e' = id e :=
    ⟨e, by rw [List.getElem?_append_left (List.getElem?_eq_some_iff.mp here).1, here], rfl, rfl⟩
  obtain ⟨es', h', hmap⟩ := h.transfer id hkeep
  rw [List.map_id, List.map_id] at hmap
  exact hmap ▸ h'

/-- At each place of a chain a part of it begins, so no place comes twice. -/
theorem exists_places (h : Chain next heap p es) : ∃ places : List Nat,
    places.length = es.length ∧ places.Nodup ∧
      ∀ q ∈ places, q < heap.length ∧ ∃ es', Chain next heap (some q) es' ∧ es' <:+ es := by
  induction h with
  | null => exact ⟨[], rfl, List.nodup_nil, fun q hq => absurd hq List.not_mem_nil⟩
  | @node p e es here rest ih =>
    obtain ⟨places, hlength, hnodup, hplaces⟩ := ih
    refine ⟨p :: places, by simp [hlength], List.nodup_cons.mpr ⟨fun hp => ?_, hnodup⟩, ?_⟩
    · -- the chain from `p` would be a part of what comes after `p`
      obtain ⟨-, es', hchain, hsuffix⟩ := hplaces p hp
      have hsame := hchain.unique (.node here rest)
      have hle := hsuffix.length_le
      rw [hsame, List.length_cons] at hle
      omega
    · intro q hq
      rcases List.mem_cons.mp hq with rfl | hq
      · exact ⟨(List.getElem?_eq_some_iff.mp here).1, e :: es, .node here rest, List.suffix_refl _⟩
      · obtain ⟨hlt, es', hchain, hsuffix⟩ := hplaces q hq
        exact ⟨hlt, es', hchain, hsuffix.trans (List.suffix_cons e es)⟩

/-- **A chain is no longer than its heap.** -/
theorem length_le (h : Chain next heap p es) : es.length ≤ heap.length := by
  obtain ⟨places, hlength, hnodup, hplaces⟩ := h.exists_places
  have hsubset : places ⊆ List.range heap.length := fun q hq => List.mem_range.mpr (hplaces q hq).1
  have hle := hnodup.length_le_of_subset hsubset
  rwa [List.length_range, hlength] at hle

end Chain

end Ssms.Lib
