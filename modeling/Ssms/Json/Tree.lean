import Ssms.Json.Parse

/-!
# The tree of a parser's nodes (`srs_json_parse_tree`)

`tree` is the value that a node stands for: an array keeps its elements, and an object keeps of each
name its last entry, in the order of these. A null pointer and a `json_none` node stand for nothing.
`cut` is the same with every string and container cut to its length as an `int`, and `visits` are
the nodes that the loops come to, in order.

* `srsJsonParseTree_eq`: `srs_json_parse_tree` stops at the first node it comes to that stands for
  nothing or is a string too long for an `int`, and otherwise returns the cut value.
* `buildsTree_iff`: exactly when it returns null where a node that stands for nothing is reached and
  the tree everywhere else; `srsJsonParseTree_whole` is the case where all lengths are `int`s.
-/

namespace Ssms.Json

open Ssms.Kernel Ssms.Protocol Ssms.Lib

namespace JsonValue

/-- The nodes directly inside a node. -/
def children : JsonValue → List JsonValue
  | .object values => values.map Prod.snd
  | .array values => values
  | _ => []

/-- A node and the nodes reached from it. -/
inductive Contains : JsonValue → JsonValue → Prop
  | self (v : JsonValue) : Contains v v
  | inside {v w u : JsonValue} (hw : w ∈ v.children) (h : Contains w u) : Contains v u

/-- A null pointer, or `json_none`. -/
def IsNothing (v : JsonValue) : Prop := v = .nullptr ∨ v = .none

/-- The `length` in a node. -/
def length : JsonValue → Nat
  | .string ptr => ptr.length
  | .object values => values.length
  | .array values => values.length
  | _ => 0

end JsonValue

/-- Of the entries with one name the last one, in the order of these. -/
def lastOccurrences {α : Type} : List (Bytes × α) → List (Bytes × α)
  | [] => []
  | e :: l => if e.1 ∈ l.map Prod.fst then lastOccurrences l else e :: lastOccurrences l

mutual

/-- The value of a node. -/
def JsonValue.tree : JsonValue → SrsJsonAny
  | .nullptr | .none | .null => .null
  | .string ptr => .string ptr
  | .integer integer => .integer integer
  | .double dbl => .number dbl
  | .boolean boolean => .boolean (boolean ≠ 0)
  | .object values => .object (lastOccurrences (entryTrees values))
  | .array values => .array (elementTrees values)

def entryTrees : List (Bytes × JsonValue) → List (Bytes × SrsJsonAny)
  | [] => []
  | (name, entry) :: values => (name, entry.tree) :: entryTrees values

def elementTrees : List JsonValue → List SrsJsonAny
  | [] => []
  | p :: values => p.tree :: elementTrees values

end

/-! ## `set`, entry after entry -/

theorem live_puts {α : Type} (l : List (Bytes × α)) :
    live (l.map fun e => .put e.1 e.2) = lastOccurrences l := by
  induction l with
  | nil => rfl
  | cons e l ih =>
    have hspares : (l.map fun e => Event.put e.1 e.2).all (·.spares e.1) = true ↔
        e.1 ∉ l.map Prod.fst := by
      simp [Event.spares, List.all_map]
      grind
    rw [List.map_cons, live, lastOccurrences, ih]
    by_cases h : e.1 ∈ l.map Prod.fst
    · rw [if_pos h, if_neg (by rw [hspares]; exact not_not_intro h)]
    · rw [if_neg h, if_pos (hspares.mpr h)]

/-- **An object keeps of each name its last entry.** -/
theorem jsonObjectAfter_eq {α : Type} (l : Properties α) :
    jsonObjectAfter l = lastOccurrences l := by
  have hops : jsonObjectAfter l = hashtableAfter (l.map fun e => TableOp.set e.1 (some e.2)) := by
    rw [jsonObjectAfter, hashtableAfter, List.foldl_map]
    rfl
  rw [hops, hashtableAfter_eq, OrdTable.entries_run, List.map_map]
  exact live_puts l

/-- An induction over a value. -/
theorem JsonValue.inductionOn {motive : JsonValue → Prop} (v : JsonValue)
    (leaf : ∀ v : JsonValue, (∀ vs, v ≠ .array vs) → (∀ ms, v ≠ .object ms) → motive v)
    (array : ∀ vs, (∀ v ∈ vs, motive v) → motive (.array vs))
    (object : ∀ ms, (∀ e ∈ ms, motive e.2) → motive (.object ms)) : motive v := by
  have h : ∀ k (v : JsonValue), sizeOf v < k → motive v := by
    intro k
    induction k with
    | zero => exact fun v h => absurd h (Nat.not_lt_zero _)
    | succ k ih =>
      intro v hv
      cases v with
      | array vs =>
        refine array vs fun v hmem => ih v ?_
        have hlt := List.sizeOf_lt_of_mem hmem
        simp only [JsonValue.array.sizeOf_spec] at hv
        omega
      | object ms =>
        refine object ms fun e hmem => ih e.2 ?_
        have hlt := List.sizeOf_lt_of_mem hmem
        obtain ⟨name, v⟩ := e
        simp only [JsonValue.object.sizeOf_spec, Prod.mk.sizeOf_spec] at hv hlt
        simp only
        omega
      | _ => exact leaf _ nofun nofun
  exact h _ v (Nat.lt_succ_self _)

/-! ## The value and the cut value -/

theorem entryTrees_eq (values : List (Bytes × JsonValue)) :
    entryTrees values = values.map fun e => (e.1, e.2.tree) := by
  induction values with
  | nil => rfl
  | cons e values ih => rw [entryTrees, ih, List.map_cons]

theorem elementTrees_eq (values : List JsonValue) :
    elementTrees values = values.map JsonValue.tree := by
  induction values with
  | nil => rfl
  | cons p values ih => rw [elementTrees, ih, List.map_cons]

mutual

/-- The value of a node, cut to what the loops reach of it. -/
def JsonValue.cut : JsonValue → SrsJsonAny
  | .nullptr | .none | .null => .null
  | .string ptr => .string (ptr.take (passes ptr.length))
  | .integer integer => .integer integer
  | .double dbl => .number dbl
  | .boolean boolean => .boolean (boolean ≠ 0)
  | .object values => .object (lastOccurrences (entryCuts (passes values.length) values))
  | .array values => .array (elementCuts (passes values.length) values)

def entryCuts : Nat → List (Bytes × JsonValue) → List (Bytes × SrsJsonAny)
  | 0, _ => []
  | _ + 1, [] => []
  | n + 1, (name, entry) :: values => (name, entry.cut) :: entryCuts n values

def elementCuts : Nat → List JsonValue → List SrsJsonAny
  | 0, _ => []
  | _ + 1, [] => []
  | n + 1, p :: values => p.cut :: elementCuts n values

end

theorem entryCuts_eq (n : Nat) (values : List (Bytes × JsonValue)) :
    entryCuts n values = (values.take n).map fun e => (e.1, e.2.cut) :=
  eq_map_take (fun _ => by rw [entryCuts]) (fun _ => by rw [entryCuts])
    (fun _ _ _ => by rw [entryCuts]) n _

theorem elementCuts_eq (n : Nat) (values : List JsonValue) :
    elementCuts n values = (values.take n).map JsonValue.cut :=
  eq_map_take (fun _ => by rw [elementCuts]) (fun _ => by rw [elementCuts])
    (fun _ _ _ => by rw [elementCuts]) n _

mutual

/-- The nodes that the loops come to, in order. -/
def JsonValue.visits : JsonValue → List JsonValue
  | .object values => .object values :: entryVisits (passes values.length) values
  | .array values => .array values :: elementVisits (passes values.length) values
  | v => [v]

def entryVisits : Nat → List (Bytes × JsonValue) → List JsonValue
  | 0, _ => []
  | _ + 1, [] => []
  | n + 1, (_, entry) :: values => entry.visits ++ entryVisits n values

def elementVisits : Nat → List JsonValue → List JsonValue
  | 0, _ => []
  | _ + 1, [] => []
  | n + 1, p :: values => p.visits ++ elementVisits n values

end

theorem entryVisits_eq (n : Nat) (values : List (Bytes × JsonValue)) :
    entryVisits n values = (values.take n).flatMap fun e => e.2.visits := by
  induction values generalizing n with
  | nil => cases n <;> rfl
  | cons e values ih =>
    cases n with
    | zero => rfl
    | succ n => rw [entryVisits, ih, List.take_succ_cons, List.flatMap_cons]

theorem elementVisits_eq (n : Nat) (values : List JsonValue) :
    elementVisits n values = (values.take n).flatMap JsonValue.visits := by
  induction values generalizing n with
  | nil => cases n <;> rfl
  | cons p values ih =>
    cases n with
    | zero => rfl
    | succ n => rw [elementVisits, ih, List.take_succ_cons, List.flatMap_cons]

theorem mem_entryVisits {w : JsonValue} {n : Nat} {values : List (Bytes × JsonValue)}
    (h : w ∈ entryVisits n values) : ∃ e ∈ values, w ∈ e.2.visits := by
  rw [entryVisits_eq] at h
  obtain ⟨e, he, hw⟩ := List.mem_flatMap.mp h
  exact ⟨e, List.mem_of_mem_take he, hw⟩

theorem mem_elementVisits {w : JsonValue} {n : Nat} {values : List JsonValue}
    (h : w ∈ elementVisits n values) : ∃ p ∈ values, w ∈ p.visits := by
  rw [elementVisits_eq] at h
  obtain ⟨p, hp, hw⟩ := List.mem_flatMap.mp h
  exact ⟨p, List.mem_of_mem_take hp, hw⟩

/-- The loops come to nothing but what is inside. -/
theorem contains_of_mem_visits {v w : JsonValue} (h : w ∈ v.visits) : v.Contains w := by
  induction v using JsonValue.inductionOn with
  | leaf v harray hobject =>
    cases v with
    | array vs => exact absurd rfl (harray vs)
    | object ms => exact absurd rfl (hobject ms)
    | _ => exact List.mem_singleton.mp h ▸ .self _
  | array vs ih =>
    rcases List.mem_cons.mp h with rfl | h
    · exact .self _
    · obtain ⟨p, hp, hw⟩ := mem_elementVisits h
      exact .inside hp (ih p hp hw)
  | object ms ih =>
    rcases List.mem_cons.mp h with rfl | h
    · exact .self _
    · obtain ⟨e, he, hw⟩ := mem_entryVisits h
      exact .inside (List.mem_map_of_mem he) (ih e he hw)

/-! ## Where the loops stop -/

/-- How the loops end at a node. -/
inductive Stop where
  | null
  | thrown
  deriving DecidableEq

namespace JsonValue

/-- A node that stands for nothing, and a string too long for an `int`. -/
def stop : JsonValue → Option Stop
  | .nullptr | .none => some .null
  | .string ptr => if int32 ptr.length < 0 then some .thrown else Option.none
  | _ => Option.none

/-- The first stop that the loops come to. -/
def firstStop (v : JsonValue) : Option Stop := v.visits.findSome? stop

theorem isNothing_of_stop {v : JsonValue} (h : v.stop = some .null) : v.IsNothing := by
  cases v with
  | nullptr => exact Or.inl rfl
  | none => exact Or.inr rfl
  | string ptr =>
    simp only [stop] at h
    split_ifs at h
    cases h
  | _ => cases h

theorem firstStop_object (values : List (Bytes × JsonValue)) :
    (object values).firstStop = (entryVisits (passes values.length) values).findSome? stop := by
  simp only [firstStop, visits, List.findSome?_cons, stop]

theorem firstStop_array (values : List JsonValue) :
    (array values).firstStop = (elementVisits (passes values.length) values).findSome? stop := by
  simp only [firstStop, visits, List.findSome?_cons, stop]

theorem firstStop_string (ptr : Bytes) : (string ptr).firstStop = (string ptr).stop := by
  simp [firstStop, visits]

end JsonValue

/-- What is returned: `r`, where nothing stops the loops. -/
def outcome {α : Type} (r : α) : Option Stop → Except StdException (Option α)
  | none => .ok (some r)
  | some .null => .ok none
  | some .thrown => .error .lengthError

theorem outcome_map {α β : Type} (f : α → β) (r : α) (s : Option Stop) :
    (outcome r s).map (Option.map f) = outcome (f r) s := by
  rcases s with _ | _ | _ <;> rfl

theorem outcome_eq_some_iff {α : Type} {r a : α} {s : Option Stop} :
    outcome r s = .ok (some a) ↔ s = none ∧ r = a := by
  rcases s with _ | _ | _ <;> simp [outcome]

theorem strOfLength_eq (ptr : Bytes) :
    (SrsJsonAny.strOfLength ptr (int32 ptr.length)).map some =
      outcome (JsonValue.string ptr).cut (JsonValue.string ptr).firstStop := by
  rw [JsonValue.firstStop_string, SrsJsonAny.strOfLength, stringAppend, JsonValue.stop,
    JsonValue.cut, passes]
  split_ifs <;> simp only [Except.map, outcome]

mutual

/-- **`srs_json_parse_tree` stops at the first node that stops the loops, and otherwise returns the
cut value.** -/
theorem srsJsonParseTree_eq : ∀ v : JsonValue, srsJsonParseTree v = outcome v.cut v.firstStop
  | .object values => by
    rw [srsJsonParseTree, parseEntries_eq, outcome_map, JsonValue.cut, ← jsonObjectAfter_eq,
      JsonValue.firstStop_object]
    simp only [jsonObjectAfter]
  | .array values => by
    rw [srsJsonParseTree, parseElements_eq, outcome_map, JsonValue.cut,
      JsonValue.firstStop_array, List.nil_append]
  | .string ptr => strOfLength_eq ptr
  | .nullptr | .none | .null | .integer _ | .double _ | .boolean _ => rfl

theorem parseEntries_eq : ∀ (obj : List (Bytes × SrsJsonAny)) (n : Nat)
    (values : List (Bytes × JsonValue)), parseEntries obj n values =
      outcome ((entryCuts n values).foldl (fun t e => SrsJsonObject.set t e.1 (some e.2)) obj)
        ((entryVisits n values).findSome? JsonValue.stop)
  | _, 0, _ => by simp only [parseEntries, entryCuts, entryVisits]; rfl
  | _, _ + 1, [] => by simp only [parseEntries, entryCuts, entryVisits]; rfl
  | obj, n + 1, (name, entry) :: values => by
    rw [parseEntries, srsJsonParseTree_eq entry, entryVisits, List.findSome?_append,
      ← JsonValue.firstStop]
    rcases entry.firstStop with _ | _ | _
    · exact parseEntries_eq _ n values
    · rfl
    · rfl

theorem parseElements_eq : ∀ (arr : List SrsJsonAny) (n : Nat) (values : List JsonValue),
    parseElements arr n values =
      outcome (arr ++ elementCuts n values) ((elementVisits n values).findSome? JsonValue.stop)
  | arr, 0, _ => by simp only [parseElements, elementCuts, elementVisits, List.append_nil]; rfl
  | arr, _ + 1, [] => by simp only [parseElements, elementCuts, elementVisits, List.append_nil]; rfl
  | arr, n + 1, p :: values => by
    rw [parseElements, srsJsonParseTree_eq p, elementVisits, List.findSome?_append,
      ← JsonValue.firstStop, elementCuts, List.append_cons]
    rcases p.firstStop with _ | _ | _
    · exact parseElements_eq _ n values
    · rfl
    · rfl

end

/-! ## The lengths that matter -/

/-- An `int` holds the length. -/
def JsonValue.Short (v : JsonValue) : Prop := v.length < 2 ^ 31

instance : DecidablePred JsonValue.Short := fun v => Nat.decLt v.length (2 ^ 31)

/-- The nodes directly inside that the tree is made of: of entries with one name only the last. -/
def JsonValue.kept : JsonValue → List JsonValue
  | .object values => (lastOccurrences values).map Prod.snd
  | .array values => values
  | _ => []

theorem mem_of_mem_lastOccurrences {α : Type} {l : List (Bytes × α)} {e : Bytes × α}
    (h : e ∈ lastOccurrences l) : e ∈ l := by
  induction l with
  | nil => exact h
  | cons a l ih =>
    rw [lastOccurrences] at h
    split_ifs at h
    · exact List.mem_cons_of_mem _ (ih h)
    · rcases List.mem_cons.mp h with rfl | h
      · exact List.mem_cons_self
      · exact List.mem_cons_of_mem _ (ih h)

theorem distinctNames_lastOccurrences {α : Type} (l : List (Bytes × α)) :
    DistinctNames (lastOccurrences l) := by
  induction l with
  | nil => exact distinctNames_nil
  | cons e l ih =>
    rw [lastOccurrences]
    split_ifs with hmem
    · exact ih
    · refine List.nodup_cons.mpr ⟨fun he => hmem ?_, ih⟩
      obtain ⟨e', he', hname⟩ := List.mem_map.mp he
      exact hname ▸ List.mem_map_of_mem (mem_of_mem_lastOccurrences he')

/-- Some name is the last one. -/
theorem lastOccurrences_eq_nil {α : Type} {l : List (Bytes × α)} (h : lastOccurrences l = []) :
    l = [] := by
  induction l with
  | nil => rfl
  | cons a l ih =>
    rw [lastOccurrences] at h
    split_ifs at h with hmem
    rw [ih h] at hmem
    exact absurd hmem List.not_mem_nil

theorem length_lastOccurrences_le {α : Type} (l : List (Bytes × α)) :
    (lastOccurrences l).length ≤ l.length := by
  induction l with
  | nil => exact Nat.le_refl _
  | cons e l ih =>
    rw [lastOccurrences]
    split_ifs
    · exact Nat.le_succ_of_le ih
    · exact Nat.succ_le_succ ih

theorem lastOccurrences_map {α β : Type} (f : α → β) (l : List (Bytes × α)) :
    lastOccurrences (l.map fun e => (e.1, f e.2)) =
      (lastOccurrences l).map fun e => (e.1, f e.2) := by
  have hnames : ∀ l : List (Bytes × α),
      (l.map fun e => (e.1, f e.2)).map Prod.fst = l.map Prod.fst := fun l => by
    rw [List.map_map]
    rfl
  induction l with
  | nil => rfl
  | cons e l ih =>
    rw [List.map_cons, lastOccurrences, lastOccurrences, hnames, ih]
    split_ifs
    · rfl
    · rw [List.map_cons]

theorem kept_subset_children {v w : JsonValue} (h : w ∈ v.kept) : w ∈ v.children := by
  cases v with
  | object values =>
    obtain ⟨e, he, rfl⟩ := List.mem_map.mp h
    exact List.mem_map_of_mem (mem_of_mem_lastOccurrences he)
  | _ => exact h

/-- **The cut value is the value exactly where the lengths of all that is kept fit.** -/
theorem cut_eq_tree_iff {v : JsonValue} (h : Everywhere JsonValue.children (·.length < 2 ^ 32) v) :
    v.cut = v.tree ↔ Everywhere JsonValue.kept JsonValue.Short v := by
  induction v using JsonValue.inductionOn with
  | leaf v harray hobject =>
    cases v with
    | array vs => exact absurd rfl (harray vs)
    | object ms => exact absurd rfl (hobject ms)
    | string ptr =>
      rw [JsonValue.cut, JsonValue.tree, SrsJsonAny.string.injEq, take_passes_eq_iff]
      exact ⟨fun hshort => .leaf rfl hshort, fun hkept => hkept.here⟩
    | _ => exact iff_of_true rfl (.leaf rfl (by simp [JsonValue.Short, JsonValue.length]))
  | array vs ih =>
    rw [JsonValue.cut, JsonValue.tree, elementCuts_eq, elementTrees_eq, SrsJsonAny.array.injEq,
      map_take_passes_eq_iff]
    constructor
    · rintro ⟨hshort, heq⟩
      exact .node hshort fun w hw => (ih w hw (h.inside w hw)).mp (heq w hw)
    · intro hkept
      exact ⟨hkept.here, fun w hw => (ih w hw (h.inside w hw)).mpr (hkept.inside w hw)⟩
  | object ms ih =>
    rw [JsonValue.cut, JsonValue.tree, entryCuts_eq, entryTrees_eq, SrsJsonAny.object.injEq,
      lastOccurrences_map, lastOccurrences_map]
    have hchild : ∀ e ∈ lastOccurrences ms, e.2.cut = e.2.tree ↔
        Everywhere JsonValue.kept JsonValue.Short e.2 := fun e he =>
      have he := mem_of_mem_lastOccurrences he
      ih e he (h.inside _ (List.mem_map_of_mem he))
    constructor
    · intro heq
      have hshort : ms.length < 2 ^ 31 := by
        by_contra hlong
        rw [passes_eq_zero (not_lt.mp hlong) h.here, List.take_zero] at heq
        have : ms = [] := lastOccurrences_eq_nil (List.map_eq_nil_iff.mp heq.symm)
        simp [this] at hlong
      rw [passes_eq hshort, List.take_length, List.map_inj_left] at heq
      refine .node hshort fun w hw => ?_
      obtain ⟨e, he, rfl⟩ := List.mem_map.mp hw
      exact (hchild e he).mp (congrArg Prod.snd (heq e he))
    · intro hkept
      have hshort : ms.length < 2 ^ 31 := hkept.here
      rw [passes_eq hshort, List.take_length, List.map_inj_left]
      intro e he
      rw [(hchild e he).mpr (hkept.inside _ (List.mem_map_of_mem he))]

/-- The loops come to a node that stands for nothing before any string that is too long; or there is
no such node, they come to no such string, and the lengths of all that is kept fit. -/
def JsonValue.Fitting (v : JsonValue) : Prop :=
  v.firstStop = some .null ∨
    v.firstStop = Option.none ∧ (∀ w, v.Contains w → ¬ w.IsNothing) ∧
      Everywhere JsonValue.kept JsonValue.Short v

/-! ## Where all lengths are `int`s -/

theorem JsonValue.Contains.everywhere {P : JsonValue → Prop} {v w : JsonValue}
    (hw : v.Contains w) (h : Everywhere JsonValue.children P v) : P w := by
  induction hw with
  | self v => exact h.here
  | inside hchild _ ih => exact ih (h.inside _ hchild)

/-- The loops come to all that is inside. -/
theorem mem_visits_of_contains {v w : JsonValue}
    (h : Everywhere JsonValue.children JsonValue.Short v) (hw : v.Contains w) : w ∈ v.visits := by
  induction hw with
  | self v => cases v <;> exact List.mem_cons_self
  | @inside v u w hchild _ ih =>
    have hu := ih (h.inside _ hchild)
    cases v with
    | object values =>
      obtain ⟨e, he, rfl⟩ := List.mem_map.mp hchild
      rw [JsonValue.visits, passes_eq (show values.length < 2 ^ 31 from h.here), entryVisits_eq,
        List.take_length]
      exact List.mem_cons_of_mem _ (List.mem_flatMap.mpr ⟨e, he, hu⟩)
    | array values =>
      rw [JsonValue.visits, passes_eq (show values.length < 2 ^ 31 from h.here), elementVisits_eq,
        List.take_length]
      exact List.mem_cons_of_mem _ (List.mem_flatMap.mpr ⟨_, hchild, hu⟩)
    | _ => exact absurd hchild List.not_mem_nil

theorem Short.stop_ne_thrown {v : JsonValue} (h : v.Short) : v.stop ≠ some .thrown := by
  cases v with
  | string ptr =>
    have hlt : ptr.length < 2 ^ 31 := h
    have hneg := int32_neg_iff (n := ptr.length) (by omega)
    rw [JsonValue.stop, if_neg (by omega)]
    exact nofun
  | _ => simp [JsonValue.stop]

/-- Nodes whose lengths are all `int`s fit. -/
theorem fitting_of_short {v : JsonValue} (h : Everywhere JsonValue.children JsonValue.Short v) :
    v.Fitting := by
  cases hstop : v.firstStop with
  | none =>
    refine Or.inr ⟨hstop, fun w hw hnothing => ?_, h.restrict fun _ _ => kept_subset_children⟩
    have := List.findSome?_eq_none_iff.mp hstop w (mem_visits_of_contains h hw)
    rcases hnothing with rfl | rfl <;> cases this
  | some s =>
    cases s with
    | null => exact Or.inl hstop
    | thrown =>
      obtain ⟨w, hw, hs⟩ := List.exists_of_findSome?_eq_some hstop
      exact absurd hs (Short.stop_ne_thrown ((contains_of_mem_visits hw).everywhere h))

/-- Where nothing is missing either, the node gives its tree. -/
theorem srsJsonParseTree_whole {v : JsonValue} (h : ∀ w, v.Contains w → ¬ w.IsNothing)
    (hshort : Everywhere JsonValue.children JsonValue.Short v) :
    srsJsonParseTree v = .ok (some v.tree) := by
  rcases fitting_of_short hshort with hnull | ⟨hnone, -, hkept⟩
  · obtain ⟨w, hw, hs⟩ := List.exists_of_findSome?_eq_some hnull
    exact absurd (JsonValue.isNothing_of_stop hs) (h w (contains_of_mem_visits hw))
  · have hcut := (cut_eq_tree_iff (hshort.mono fun w (hw : w.length < 2 ^ 31) => by omega)).mpr
      hkept
    rw [srsJsonParseTree_eq, hnone, hcut]
    rfl

/-! ## The nodes of a value -/

theorem lastOccurrences_of_distinct {α : Type} {l : List (Bytes × α)} (h : DistinctNames l) :
    lastOccurrences l = l := by
  induction l with
  | nil => rfl
  | cons e l ih =>
    rw [DistinctNames, List.map_cons, List.nodup_cons] at h
    rw [lastOccurrences, if_neg h.1, ih h.2]

/-- The cut value of the node is the value exactly where all lengths are `int`s. -/
theorem cut_node_eq_iff {t : SrsJsonAny} (h : t.Everywhere DistinctNode) :
    t.node.cut = t ↔ t.Everywhere SrsJsonAny.Short := by
  induction t with
  | string value =>
    rw [SrsJsonAny.node, JsonValue.cut, SrsJsonAny.string.injEq, take_passes_eq_iff]
    exact ⟨fun hs => .leaf rfl hs, fun hs => hs.here⟩
  | boolean value => cases value <;> exact iff_of_true rfl (.leaf rfl (Nat.two_pow_pos 31))
  | integer | number | null => exact iff_of_true rfl (.leaf rfl (Nat.two_pow_pos 31))
  | object properties ih =>
    have hd : DistinctNames (properties.take (passes properties.length)) :=
      ((List.take_sublist _ _).map _).nodup h.here
    have hcut : (SrsJsonAny.object properties).node.cut =
        .object ((properties.take (passes properties.length)).map
          fun e => (e.1, e.2.node.cut)) := by
      rw [SrsJsonAny.node, JsonValue.cut, entryCuts_eq, entryNodes_eq, List.length_map,
        ← List.map_take, List.map_map, ← lastOccurrences_of_distinct hd,
        ← lastOccurrences_map fun t : SrsJsonAny => t.node.cut, lastOccurrences_of_distinct hd]
      rfl
    have hiff := map_take_passes_eq_iff (f := fun e => (e.1, e.2.node.cut)) (g := id)
      (l := properties)
    rw [List.map_id] at hiff
    rw [hcut, SrsJsonAny.object.injEq, hiff]
    constructor
    · rintro ⟨hs, heq⟩
      refine .node hs (List.forall_mem_map.mpr fun e he => ?_)
      exact (ih e he (h.of_mem_object he)).mp (congrArg Prod.snd (heq e he))
    · intro hs
      refine ⟨hs.here, fun e he => ?_⟩
      rw [(ih e he (h.of_mem_object he)).mpr (hs.of_mem_object he)]
      rfl
  | array properties ih =>
    have hcut : (SrsJsonAny.array properties).node.cut =
        .array ((properties.take (passes properties.length)).map fun t => t.node.cut) := by
      rw [SrsJsonAny.node, JsonValue.cut, elementCuts_eq, elementNodes_eq, List.length_map,
        ← List.map_take, List.map_map]
      rfl
    have hiff := map_take_passes_eq_iff (f := fun t => t.node.cut) (g := id) (l := properties)
    rw [List.map_id] at hiff
    rw [hcut, SrsJsonAny.array.injEq, hiff]
    constructor
    · rintro ⟨hs, heq⟩
      exact .node hs fun t ht => (ih t ht (h.inside t ht)).mp (heq t ht)
    · intro hs
      exact ⟨hs.here, fun t ht => (ih t ht (h.inside t ht)).mpr (hs.inside t ht)⟩

/-- Nothing stops the loops. -/
theorem firstStop_node {t : SrsJsonAny} (h : t.Everywhere SrsJsonAny.Short) :
    t.node.firstStop = none := by
  induction t with
  | string value =>
    have hstop : (JsonValue.string value).stop ≠ some .thrown := Short.stop_ne_thrown h.here
    rw [SrsJsonAny.node, JsonValue.firstStop_string]
    rw [JsonValue.stop] at hstop ⊢
    exact if_neg fun hneg => hstop (if_pos hneg)
  | boolean | integer | number | null => rfl
  | object properties ih =>
    rw [SrsJsonAny.node, JsonValue.firstStop_object, List.findSome?_eq_none_iff, entryNodes_eq]
    intro w hw
    obtain ⟨_, hmem, hvisits⟩ := mem_entryVisits hw
    obtain ⟨e, he, rfl⟩ := List.mem_map.mp hmem
    exact List.findSome?_eq_none_iff.mp (ih e he (h.of_mem_object he)) w hvisits
  | array properties ih =>
    rw [SrsJsonAny.node, JsonValue.firstStop_array, List.findSome?_eq_none_iff, elementNodes_eq]
    intro w hw
    obtain ⟨_, hmem, hvisits⟩ := mem_elementVisits hw
    obtain ⟨t, ht, rfl⟩ := List.mem_map.mp hmem
    exact List.findSome?_eq_none_iff.mp (ih t ht (h.inside t ht)) w hvisits

/-- **The nodes of a value give the value back exactly where all lengths are `int`s.** -/
theorem srsJsonParseTree_node_iff {t : SrsJsonAny} (h : t.Everywhere DistinctNode) :
    srsJsonParseTree t.node = .ok (some t) ↔ t.Everywhere SrsJsonAny.Short := by
  rw [← cut_node_eq_iff h, srsJsonParseTree_eq, outcome_eq_some_iff]
  exact ⟨fun hok => hok.2, fun hcut => ⟨firstStop_node ((cut_node_eq_iff h).mp hcut), hcut⟩⟩

theorem short_of_node {t : SrsJsonAny} (h : Everywhere JsonValue.children JsonValue.Short t.node) :
    t.Everywhere SrsJsonAny.Short := by
  induction t with
  | string => exact .leaf rfl h.here
  | boolean | integer | number | null => exact .leaf rfl (Nat.two_pow_pos 31)
  | object properties ih =>
    rw [SrsJsonAny.node, entryNodes_eq] at h
    have hlength : (properties.map fun e => (e.1, e.2.node)).length < 2 ^ 31 := h.here
    rw [List.length_map] at hlength
    refine .node hlength (List.forall_mem_map.mpr fun e he => ih e he (h.inside _ ?_))
    exact List.mem_map_of_mem (f := Prod.snd) (List.mem_map_of_mem he)
  | array properties ih =>
    rw [SrsJsonAny.node, elementNodes_eq] at h
    have hlength : (properties.map SrsJsonAny.node).length < 2 ^ 31 := h.here
    rw [List.length_map] at hlength
    exact .node hlength fun t ht => ih t ht (h.inside _ (List.mem_map_of_mem ht))

/-! ## What is built -/

/-- The objects of a cut value have distinct names. -/
theorem cut_distinct (v : JsonValue) : v.cut.Everywhere DistinctNode := by
  induction v using JsonValue.inductionOn with
  | leaf v harray hobject =>
    cases v with
    | array vs => exact absurd rfl (harray vs)
    | object ms => exact absurd rfl (hobject ms)
    | _ => exact .leaf rfl trivial
  | array vs ih =>
    rw [JsonValue.cut, elementCuts_eq]
    generalize passes vs.length = n
    exact .node trivial (List.forall_mem_map.mpr fun v hv => ih v (List.mem_of_mem_take hv))
  | object ms ih =>
    rw [JsonValue.cut, entryCuts_eq, lastOccurrences_map]
    generalize passes ms.length = n
    refine .node ?_ (List.forall_mem_map.mpr (List.forall_mem_map.mpr fun e he => ?_))
    · rw [DistinctNode, DistinctNames, List.map_map]
      exact distinctNames_lastOccurrences _
    · exact ih e (List.mem_of_mem_take (mem_of_mem_lastOccurrences he))

/-- What is returned has distinct names in its objects. -/
theorem srsJsonParseTree_distinct {v : JsonValue} {t : SrsJsonAny}
    (h : srsJsonParseTree v = .ok (some t)) : t.Everywhere DistinctNode := by
  rw [srsJsonParseTree_eq, outcome_eq_some_iff] at h
  exact h.2 ▸ cut_distinct v

/-- The lengths of the vectors in a cut value are `int`s. -/
theorem cut_shortVector (v : JsonValue) : v.cut.Everywhere SrsJsonAny.ShortVector := by
  induction v using JsonValue.inductionOn with
  | leaf v harray hobject =>
    cases v with
    | array vs => exact absurd rfl (harray vs)
    | object ms => exact absurd rfl (hobject ms)
    | _ => exact .leaf rfl trivial
  | array vs ih =>
    have hn := passes_lt_two_pow vs.length
    rw [JsonValue.cut, elementCuts_eq]
    generalize passes vs.length = n at hn ⊢
    refine .node ?_ (List.forall_mem_map.mpr fun v hv => ih v (List.mem_of_mem_take hv))
    rw [SrsJsonAny.ShortVector, List.length_map]
    exact (List.length_take_le n vs).trans_lt hn
  | object ms ih =>
    have hn := passes_lt_two_pow ms.length
    rw [JsonValue.cut, entryCuts_eq, lastOccurrences_map]
    generalize passes ms.length = n at hn ⊢
    refine .node ?_ (List.forall_mem_map.mpr (List.forall_mem_map.mpr fun e he =>
      ih e (List.mem_of_mem_take (mem_of_mem_lastOccurrences he))))
    rw [SrsJsonAny.ShortVector, List.length_map]
    exact ((length_lastOccurrences_le _).trans (List.length_take_le n ms)).trans_lt hn

/-- **Loops with an `int` as their counter reach the whole of what is returned.** -/
theorem srsJsonParseTree_reached {v : JsonValue} {t : SrsJsonAny}
    (h : srsJsonParseTree v = .ok (some t)) : t.reached = t := by
  rw [srsJsonParseTree_eq, outcome_eq_some_iff] at h
  exact reached_eq_self_iff.mpr (h.2 ▸ cut_shortVector v)

/-- Null is returned exactly where a node that stands for nothing is reached, and the tree of the
node everywhere else. -/
def BuildsTree (v : JsonValue) : Prop :=
  ∃ r, srsJsonParseTree v = .ok r ∧ (r = none ↔ ∃ w, v.Contains w ∧ w.IsNothing) ∧
    ∀ t, r = some t → t = v.tree

/-- **`srs_json_parse_tree` builds the tree exactly of the nodes that fit.** The lengths in the
nodes are `unsigned int`s. -/
theorem buildsTree_iff {v : JsonValue} (h : Everywhere JsonValue.children (·.length < 2 ^ 32) v) :
    BuildsTree v ↔ v.Fitting := by
  unfold BuildsTree JsonValue.Fitting
  rw [srsJsonParseTree_eq]
  cases hstop : v.firstStop with
  | none =>
    have hbuilds : (∃ r, outcome v.cut none = .ok r ∧
        (r = none ↔ ∃ w, v.Contains w ∧ w.IsNothing) ∧ ∀ t, r = some t → t = v.tree) ↔
        (∀ w, v.Contains w → ¬ w.IsNothing) ∧ v.cut = v.tree := by
      constructor
      · rintro ⟨r, hr, hnull, htree⟩
        cases hr
        exact ⟨fun w hw hnothing => Option.some_ne_none _ (hnull.mpr ⟨w, hw, hnothing⟩),
          htree _ rfl⟩
      · rintro ⟨hnone, hcut⟩
        refine ⟨_, rfl, iff_of_false (Option.some_ne_none _) fun ⟨w, hw, hnothing⟩ =>
          hnone w hw hnothing, ?_⟩
        rintro t ht
        cases ht
        exact hcut
    rw [hbuilds, cut_eq_tree_iff h]
    simp
  | some s =>
    cases s with
    | null =>
      obtain ⟨w, hw, hs⟩ := List.exists_of_findSome?_eq_some hstop
      have hnothing : ∃ w, v.Contains w ∧ w.IsNothing :=
        ⟨w, contains_of_mem_visits hw, JsonValue.isNothing_of_stop hs⟩
      exact iff_of_true ⟨none, rfl, iff_of_true rfl hnothing, nofun⟩ (Or.inl rfl)
    | thrown =>
      refine iff_of_false ?_ (by simp)
      rintro ⟨r, hr, -⟩
      cases hr

/-- `{"a":["x"],"b":2,"a":3}`. -/
theorem buildsTree_repeatedName : BuildsTree (.object [([0x61], .array [.string [0x78]]),
    ([0x62], .integer 2), ([0x61], .integer 3)]) := by
  have hshort : Everywhere JsonValue.children JsonValue.Short (.object
      [([0x61], .array [.string [0x78]]), ([0x62], .integer 2), ([0x61], .integer 3)]) := by
    refine .node (by decide) (List.forall_mem_cons.mpr ⟨.node (by decide)
      (List.forall_mem_singleton.mpr (.leaf rfl (by decide))), List.forall_mem_cons.mpr
      ⟨.leaf rfl (by decide), List.forall_mem_singleton.mpr (.leaf rfl (by decide))⟩⟩)
  refine (buildsTree_iff (hshort.mono fun w hw => ?_)).mpr (fitting_of_short hshort)
  exact Nat.lt_trans hw (by decide)

/-- A string and an array of `2 ^ 31`. -/
theorem buildsTree_long : ¬ BuildsTree (.string (List.replicate (2 ^ 31) 0x61)) ∧
    ¬ BuildsTree (.array (List.replicate (2 ^ 31) .null)) := by
  constructor
  · rintro ⟨r, hr, -⟩
    have hneg : int32 (List.replicate (2 ^ 31) (0x61 : UInt8)).length < 0 := by
      rw [int32_neg_iff] <;> rw [List.length_replicate]
      decide
    rw [srsJsonParseTree, SrsJsonAny.strOfLength, stringAppend, if_pos hneg] at hr
    cases hr
  · rintro ⟨r, hr, -, htree⟩
    have hzero : passes (List.replicate (2 ^ 31) JsonValue.null).length = 0 := by
      apply passes_eq_zero <;> rw [List.length_replicate]
      decide
    rw [srsJsonParseTree, hzero, parseElements] at hr
    cases hr
    have hnil := htree _ rfl
    rw [JsonValue.tree, SrsJsonAny.array.injEq, elementTrees_eq] at hnil
    have hlength := congrArg List.length hnil
    rw [List.length_map, List.length_replicate] at hlength
    exact absurd hlength (by decide)

end Ssms.Json
