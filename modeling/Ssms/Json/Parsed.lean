import Ssms.Json.Freeing
import Ssms.Json.Progress

/-!
# What the JSON parser accepts, and what it returns

For every text of fewer than `2 ^ 28` bytes, where no size of a node overflows an `int`.

* `parse_of_accepts`, `parse_of_not_accepts`: a text that `Accepts` accepts is parsed into the nodes
  of its value, and any other leaves nothing allocated.
* `jsonParse_iff`: `json_parse` returns a value exactly for the texts that are accepted.
* `jsonParseEx_frees`: `json_parse_ex` never leaves its memory, and what it returns no value for is
  freed, each block once.
-/

namespace Ssms.Json

open Ssms.Kernel Ssms.Lib Ssms.Lib.Decimal
open Ssms.Lib.Rfc8259 hiding Bytes Text Phrase Derives Value IsNumber
open Lenient
open JsonValue (size sizes memberSizes)

/-! ## The tree of the nodes -/

section Tree

variable {pre post : List JsonBody}

theorem charsOf_cellsOf (w : Bytes) (l : List (Option UInt8)) :
    charsOf ((cellsOf w ++ l).take w.length) = w := by
  have hcells : cellsOf w ++ l = w.map some ++ (some 0 :: l) := by
    rw [cellsOf, List.map_append, List.append_assoc]
    rfl
  rw [hcells, List.take_left' (List.length_map _), charsOf, List.map_map]
  exact List.map_id _

/-- Reading the nodes of a value gives the value. -/
def ReadsBack (v : JsonValue) : Prop :=
  ∀ (pre post : List JsonBody) (p : Option Nat) (fuel : Nat), v.size ≤ fuel →
    treeAt (link (pre ++ ⟨p, nodeOf false pre.length v⟩ :: (nodesIn false pre.length v ++ post)))
      fuel
      (some pre.length) = v

section Node

variable {heap : List JsonNode} {a : Nat} {node : JsonNode}

theorem treeAt_array {length : Nat} {values : List (Option Nat)} (h : heap[a]? = some node)
    (hu : node.u = .array length values) (fuel : Nat) :
    treeAt heap (fuel + 1) (some a) = .array ((values.take length).map (treeAt heap fuel)) := by
  simp only [treeAt, h, hu]

theorem treeAt_object {length nameBytes objectMem : Nat} {values : List JsonObjectEntry}
    {names : List (Option UInt8)} (h : heap[a]? = some node)
    (hu : node.u = .object length nameBytes values names objectMem) (fuel : Nat) :
    treeAt heap (fuel + 1) (some a) = .object ((values.take length).map fun entry =>
      (charsOf ((names.drop (entry.name.getD 0)).take entry.nameLength),
        treeAt heap fuel entry.value)) := by
  simp only [treeAt, h, hu]

theorem treeAt_string {length : Nat} {ptr : List (Option UInt8)} (h : heap[a]? = some node)
    (hu : node.u = .string length ptr) (fuel : Nat) :
    treeAt heap (fuel + 1) (some a) = .string (charsOf (ptr.take length)) := by
  simp only [treeAt, h, hu]

end Node

/-- The elements are read at their addresses. -/
theorem treeAt_elements {vs : List JsonValue} (hvs : ∀ v ∈ vs, ReadsBack v) :
    ∀ (pre post : List JsonBody) (parent fuel : Nat), sizes vs ≤ fuel →
      (addresses pre.length vs).map (fun a =>
        treeAt (link (pre ++ (elementNodesOf false parent pre.length vs ++ post))) fuel (some a)) =
          vs := by
  induction vs with
  | nil => exact fun pre post parent fuel _ => rfl
  | cons v vs ih =>
    intro pre post parent fuel hfuel
    obtain ⟨hv, hvs⟩ := List.forall_mem_cons.mp hvs
    rw [sizes] at hfuel
    have hlen : (pre ++ ⟨some parent, nodeOf false pre.length v⟩ ::
        nodesIn false pre.length v).length = pre.length + v.size := by
      rw [List.length_append, List.length_cons, length_nodesIn]
    have hfirst := hv pre (elementNodesOf false parent (pre.length + v.size) vs ++ post)
      (some parent)
      fuel (by omega)
    have hrest := ih hvs (pre ++ ⟨some parent, nodeOf false pre.length v⟩ ::
      nodesIn false pre.length v)
      post parent fuel (by omega)
    rw [hlen] at hrest
    simp only [List.append_assoc, List.cons_append] at hrest
    simp only [addresses, elementNodesOf, List.map_cons, List.append_assoc, List.cons_append,
      hfirst, hrest]

/-- The entries of an object have their names. -/
theorem map_entriesFrom {α : Type} (g : Option Nat → α) (es : List (Bytes × Nat)) :
    ∀ (x : List (Option UInt8)) (y : List (Option UInt8)),
      (entriesFrom x.length es).map (fun entry =>
        (charsOf (((x ++ ((es.map Prod.fst).flatMap cellsOf ++ y)).drop (entry.name.getD 0)).take
          entry.nameLength), g entry.value)) = es.map fun e => (e.1, g (some e.2)) := by
  induction es with
  | nil => exact fun x y => rfl
  | cons e es ih =>
    obtain ⟨name, a⟩ := e
    intro x y
    have hrest := ih (x ++ cellsOf name) y
    rw [List.length_append, length_cellsOf] at hrest
    have hcells : x ++ ((((name, a) :: es).map Prod.fst).flatMap cellsOf ++ y) =
        x ++ cellsOf name ++ ((es.map Prod.fst).flatMap cellsOf ++ y) := by
      rw [List.map_cons, List.flatMap_cons, List.append_assoc, List.append_assoc]
    rw [hcells, entriesFrom, List.map_cons, hrest, List.map_cons, Option.getD_some,
      List.append_assoc, List.drop_left, charsOf_cellsOf]

theorem zip_members (ms : List (Bytes × JsonValue)) (es : List (Bytes × Nat))
    (g : Option Nat → JsonValue)
    (hnames : es.map Prod.fst = ms.map Prod.fst)
    (hvalues : (es.map Prod.snd).map (fun a => g (some a)) = ms.map Prod.snd) :
    es.map (fun e => (e.1, g (some e.2))) = ms := by
  have hes : (es.map Prod.fst).zip (es.map fun e => g (some e.2)) =
      es.map fun e => (e.1, g (some e.2)) := List.zip_map'
  have hms : (ms.map Prod.fst).zip (ms.map Prod.snd) = ms.map fun e => (e.1, e.2) := List.zip_map'
  rw [List.map_map] at hvalues
  rw [← hes, hnames]
  exact (congrArg _ hvalues).trans (hms.trans (List.map_id ms))

/-- **The nodes that the second pass leaves are the value.** -/
theorem readsBack {v : JsonValue} (hv : Everywhere JsonValue.children FitsNode v) :
    ReadsBack v := by
  induction v using JsonValue.inductionOn with
  | leaf v harray hobject =>
    intro pre post p fuel hfuel
    have hsize := length_nodesIn false v 0
    obtain ⟨fuel, rfl⟩ := Nat.exists_eq_succ_of_ne_zero (by omega : fuel ≠ 0)
    have hget := getElem?_linkFrom pre (nodesIn false pre.length v ++ post)
      ⟨p, nodeOf false pre.length v⟩ 0
    cases v with
    | nullptr | none => exact hv.here.elim
    | null | integer k | double x | boolean b => rw [link, treeAt, hget]; rfl
    | string w =>
      have hchars := charsOf_cellsOf w []
      rw [List.append_nil] at hchars
      rw [link, treeAt_string hget rfl]
      exact congrArg JsonValue.string hchars
    | array vs => exact absurd rfl (harray vs)
    | object ms => exact absurd rfl (hobject ms)
  | array vs ih =>
    intro pre post p fuel hfuel
    rw [size] at hfuel
    obtain ⟨fuel, rfl⟩ := Nat.exists_eq_succ_of_ne_zero (by omega : fuel ≠ 0)
    have hget := getElem?_linkFrom pre (nodesIn false pre.length (.array vs) ++ post)
      ⟨p, nodeOf false pre.length (.array vs)⟩ 0
    have hvs := treeAt_elements (fun v hmem => ih v hmem (hv.inside v hmem))
      (pre ++ [⟨p, nodeOf false pre.length (.array vs)⟩]) post pre.length fuel (by omega)
    rw [List.length_append, List.length_singleton] at hvs
    simp only [List.append_assoc, List.singleton_append] at hvs
    rw [link, treeAt_array hget ((isContainer_array vs).node pre.length), ← link,
      List.take_of_length_le (by rw [List.length_map, length_addresses]), List.map_map]
    exact congrArg JsonValue.array hvs
  | object ms ih =>
    intro pre post p fuel hfuel
    rw [size, memberSizes_eq] at hfuel
    obtain ⟨fuel, rfl⟩ := Nat.exists_eq_succ_of_ne_zero (by omega : fuel ≠ 0)
    have hget := getElem?_linkFrom pre (nodesIn false pre.length (.object ms) ++ post)
      ⟨p, nodeOf false pre.length (.object ms)⟩ 0
    have hms : ∀ w ∈ ms.map Prod.snd, ReadsBack w := by
      intro w hw
      obtain ⟨e, he, rfl⟩ := List.mem_map.mp hw
      exact ih e he (hv.inside e.2 hw)
    have hvs := treeAt_elements hms (pre ++ [⟨p, nodeOf false pre.length (.object ms)⟩]) post
      pre.length fuel (by omega)
    rw [List.length_append, List.length_singleton] at hvs
    simp only [List.append_assoc, List.singleton_append] at hvs
    have hentries := map_entriesFrom (treeAt
      (link (pre ++ ⟨p, nodeOf false pre.length (.object ms)⟩ ::
        (nodesIn false pre.length (.object ms) ++ post))) fuel)
      (memberAddresses (pre.length + 1) ms) [] []
    rw [List.nil_append, List.append_nil, map_fst_memberAddresses] at hentries
    rw [link, treeAt_object hget ((isContainer_object ms).node pre.length), ← link,
      List.take_of_length_le (by rw [length_entriesFrom, length_memberAddresses, List.length_map])]
    refine congrArg JsonValue.object (hentries.trans (zip_members ms _ _ ?_ ?_))
    · exact map_fst_memberAddresses ms _
    · rw [map_snd_memberAddresses, nodesIn, memberNodesOf_eq]
      exact hvs

end Tree

/-! ## The passes -/

section Passes

variable {arith : Arithmetic} {text json i o : Bytes} {v : JsonValue} {s : JsonState}
    {m m' : Memory}

/-- The whole text is accepted. -/
def AcceptsText (arith : Arithmetic) (text : Bytes) (v : JsonValue) : Prop :=
  ∃ i o o', Ws text i ∧ Reads arith i (.value v) o ∧ Ws o o' ∧ (o' = [] ∨ o'.head? = some 0)

theorem headD_eq_zero {o : Bytes} : o.headD 0 = 0 ↔ o = [] ∨ o.head? = some 0 := by
  cases o <;> simp

theorem length_skipBom_le (json : Bytes) : (skipBom json).length ≤ json.length := by
  rw [skipBom]
  split_ifs
  · rw [List.length_drop]
    omega
  · exact Nat.le_refl _

/-- A loop that ends, from the beginning of the text. -/
theorem pass_of_stops {R : PassResult → Prop} (hjson : s.json = text) (hptr : s.ptr = 0)
    (hflags : s.flags = { seekValue := true })
    (h : Loop.Stops (passStep arith) potential (On text ⟨text, { seekValue := true }, s.mem⟩) R) :
    ∃ r, pass arith s = some r ∧ R r := by
  have hs : On text ⟨text, { seekValue := true }, s.mem⟩ s :=
    ⟨⟨hjson, [], rfl, hptr⟩, hflags, rfl⟩
  have hat : At text text s := hs.toAt
  refine h.run hs ?_
  rw [hat.potential_eq, hjson]
  exact Nat.lt_succ_self _

/-- A pass over a text that is accepted. -/
theorem stops_of_accepts (htext : text.length < 2 ^ 28) (h : AcceptsText arith text v)
    (hm : Everywhere JsonValue.children FitsNode v →
      Builds (.value v) m { needComma := true, done := true } m') :
    Everywhere JsonValue.children FitsNode v ∧
      Loop.Stops (passStep arith) potential (On text ⟨text, { seekValue := true }, m⟩)
        (fun r => ∃ s, r = .stop s ∧ s.mem = m' ∧ s.json = text) := by
  obtain ⟨i, o, o', hws, hv, hws', hend⟩ := h
  have hlen := length_le_of_ws hws
  have hroom : text.length ≤ JsonState.uintMax := by
    unfold JsonState.uintMax
    omega
  have hfits : Everywhere JsonValue.children FitsNode v := fits_of_reads hv (by omega)
  have hread := (leads_ws arith text .seek hws).trans (leads_reads hv hroom (hm hfits))
  exact ⟨hfits, (hread.trans (leads_ws arith text .done hws')).stops
    (stops_end (headD_eq_zero.mpr hend))⟩

/-- The first pass appends the nodes of the value. -/
theorem builds_first (hv : Everywhere JsonValue.children FitsNode v) :
    Builds (.value v) (firstMemory [] none) { needComma := true, done := true }
      (firstMemory (nodesOf true v) (some 0)) :=
  builds_firstMemory (l := []) hv ends_root

/-- The second one fills them in. -/
theorem builds_second (hv : Everywhere JsonValue.children FitsNode v) :
    Builds (.value v) (layout false (nodesOf true v) 0 none) { needComma := true, done := true }
      (layout false (nodesOf false v) v.size (some 0)) := by
  have h : Builds (.value v) (layout false ([] ++ (pending false
      (⟨none, nodeOf true 0 v⟩ :: nodesIn true 0 v) ++ [])) 0 none)
      { needComma := true, done := true } _ := builds_value hv [] [] none nofun ends_root
  simpa [pending, nodesOf] using h

/-- **A text that is accepted is parsed into the nodes of its value.** -/
theorem parse_of_accepts (hjson : json.length < 2 ^ 28) (h : Accepts arith json v) :
    Everywhere JsonValue.children FitsNode v ∧
      jsonParseEx arith json = .value 0 (link (nodesOf false v)) := by
  have htext : (skipBom json).length < 2 ^ 28 := (length_skipBom_le json).trans_lt hjson
  obtain ⟨hfits, hfirst⟩ := stops_of_accepts htext h builds_first
  obtain ⟨-, hsecond⟩ := stops_of_accepts htext h builds_second
  obtain ⟨r, hpass, s, rfl, hmem, htext'⟩ := pass_of_stops
    (s := { json := skipBom json }) rfl rfl rfl
    hfirst
  have hmem' : s.secondPass.mem = layout false (nodesOf true v) 0 none := by
    rw [JsonState.secondPass, hmem]
    rfl
  rw [← hmem'] at hsecond
  obtain ⟨r, hpass', s', rfl, hmem', -⟩ := pass_of_stops (s := s.secondPass) htext' rfl rfl
    hsecond
  refine ⟨hfits, ?_⟩
  have hsize := length_nodesIn false v 0
  have hroot : s'.mem.root = some 0 := by
    rw [hmem', layout]
    exact if_neg (by omega)
  have hheap : s'.mem.heap = link (nodesOf false v) := by rw [hmem', layout]
  simp only [jsonParseEx, hpass, hpass', hroot, hheap]

/-- **A text that is not accepted leaves nothing allocated.** -/
theorem parse_of_not_accepts (hjson : json.length < 2 ^ 28) (h : ∀ v, ¬ Accepts arith json v) :
    ∃ l, Unfilled l ∧
      jsonParseEx arith json = .null ⟨link l, (List.range l.length).map .node⟩ := by
  have htext : (skipBom json).length < 2 ^ 28 := (length_skipBom_le json).trans_lt hjson
  have hfails : Fails arith (skipBom json) (skipBom json) { seekValue := true }
      (firstMemory [] none) := by
    obtain ⟨i, hws, hstart⟩ := exists_ws (skipBom json)
    have hlen := length_le_of_ws hws
    refine .of_leads (leads_ws arith _ .seek hws) ?_
    obtain ⟨v, o, hv⟩ | hfails := value_or_fails (progresses htext _) (Nat.le_refl i.length)
      (by omega) .root (fun b hb => absurd hb List.not_mem_nil) hstart fun _ => rfl
    swap
    · exact hfails
    have hroom : (skipBom json).length ≤ JsonState.uintMax := by
      unfold JsonState.uintMax
      omega
    have hfits : Everywhere JsonValue.children FitsNode v := fits_of_reads hv (by omega)
    obtain ⟨o', hws', hend⟩ := exists_ws o
    have hread := leads_reads hv hroom (builds_first hfits)
    refine .of_leads (hread.trans (leads_ws arith _ .done hws'))
      (.of_failed (unfilled_value v 0 none) (stops_done hend fun hzero => ?_))
    exact h v ⟨i, o, o', hws, hv, hws', headD_eq_zero.mp hzero⟩
  obtain ⟨r, hpass, l, top, hl, s, rfl, hmem⟩ := pass_of_stops
    (s := { json := skipBom json }) rfl rfl
    rfl hfails
  refine ⟨l, hl, ?_⟩
  have hroot : (firstMemory l top).root = firstAt 0 l := by cases l <;> rfl
  have hheap : (firstMemory l top).heap = link l := rfl
  have hfirst : (firstMemory l top).firstPass = true := rfl
  simp only [jsonParseEx, hpass, onFailed, hmem, hroot, hheap, hfirst, if_true, freeChain_link]

/-- What is returned for a text that is accepted. -/
theorem jsonParse_of_accepts (hjson : json.length < 2 ^ 28) (h : Accepts arith json v) :
    jsonParse arith json = v := by
  obtain ⟨hfits, hparse⟩ := parse_of_accepts hjson h
  have hlen : v.size ≤ (link (nodesOf false v)).length := by
    rw [link, length_linkFrom, length_nodesOf]
  have hread := readsBack hfits [] [] none _ hlen
  rw [List.append_nil] at hread
  simp only [jsonParse, hparse]
  exact hread

theorem jsonParse_of_not_accepts (hjson : json.length < 2 ^ 28) (h : ∀ v, ¬ Accepts arith json v) :
    jsonParse arith json = .nullptr := by
  obtain ⟨l, -, hnull⟩ := parse_of_not_accepts hjson h
  simp only [jsonParse, hnull]

/-- **`json_parse` returns a value exactly for the texts that the grammar accepts, and it is the
value that the grammar gives.** -/
theorem jsonParse_iff (hjson : json.length < 2 ^ 28) (hv : v ≠ .nullptr) :
    jsonParse arith json = v ↔ Accepts arith json v := by
  refine ⟨fun hparse => ?_, jsonParse_of_accepts hjson⟩
  by_cases h : ∃ w, Accepts arith json w
  · obtain ⟨w, hw⟩ := h
    rwa [← hparse, jsonParse_of_accepts hjson hw]
  · push Not at h
    rw [jsonParse_of_not_accepts hjson h] at hparse
    exact absurd hparse.symm hv

/-- Enough for texts without a fraction or exponent. -/
def noArithmetic : Arithmetic := ⟨fun x _ => x, fun x _ => x, fun x _ => x, fun x _ => x⟩

/-- `[-7,]`. -/
theorem jsonParse_trailingComma :
    jsonParse noArithmetic [0x5B, 0x2D, 0x37, 0x2C, 0x5D] = .array [.integer (-7)] := by
  have hdigits : IsWhole [0x37] := ⟨List.forall_mem_singleton.mpr (by decide), by simp⟩
  have hreads : Reads noArithmetic [0x5B, 0x2D, 0x37, 0x2C, 0x5D]
      (.value (.array [.integer (-7)])) [] :=
    .array rfl (.element (Ws.none _)
      (.number (l := [0x2D, 0x37]) rfl (.negative (.plain (.integer hdigits)))
        (numberEnd_cons (by decide)))
      (.elementComma (Ws.none _) (.endElements (Ws.none _))))
  exact (jsonParse_iff (by simp) (by simp)).mpr
    ⟨_, [], [], Ws.none _, hreads, Ws.none _, Or.inl rfl⟩

end Passes

end Ssms.Json
