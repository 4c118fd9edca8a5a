import Ssms.Kernel.Error
import Ssms.Lib.OrderedTable
import Ssms.Lib.Wrap

/-!
# Property tables (`SrsUnSortedHashtable`, `SrsJsonObject`)

Both are a `std::vector` of name/value pairs kept in the order of the last `set`. The functions
below are those of `srs_protocol_amf0.cpp` and `srs_protocol_json.cpp` on that vector, generic in
the values; a null value pointer is `none`, and an index outside the vector, on which the source
asserts, is `none` as well.

`SrsUnSortedHashtable` refines `OrdTable` (`entries_apply`): on a vector with distinct names, each
operation is the table operation of its event.

* `hashtable_history`: after any sequence of `set`, `set` to null, `remove` and `clear` on an empty
  hashtable, the names are distinct, `getProperty` is the last live `set`, `count` counts the live
  names, and `keyAt`/`valueAt` enumerate the live names in the order of their last `set`; and
  `SrsJsonObject` keeps the same names in the same order as `SrsUnSortedHashtable`.
-/

namespace Ssms.Protocol

open Ssms.Kernel Ssms.Lib

/-- A vector of properties. -/
abbrev Properties (α : Type) := List (Bytes × α)

variable {α β : Type}

namespace SrsUnSortedHashtable

/-- `count()`, before the cast to an `int`. -/
def count (properties : Properties α) : Nat := properties.length

/-- The cast keeps a count below `2 ^ 31`. -/
theorem int32_count {properties : Properties α} (h : count properties < 2 ^ 31) :
    int32 (count properties) = count properties :=
  wrap_eq_self (by omega) (by omega)

def keyAt (properties : Properties α) (index : Nat) : Option Bytes :=
  properties[index]?.map Prod.fst

def valueAt (properties : Properties α) (index : Nat) : Option α :=
  properties[index]?.map Prod.snd

/-- `set(key, value)`: erase the first entry named `key`, then append unless the value is null. -/
def set (properties : Properties α) (key : Bytes) (value : Option α) : Properties α :=
  let properties := properties.eraseP fun elem => decide (key = elem.1)
  match value with
  | some value => properties ++ [(key, value)]
  | none => properties

def getProperty (properties : Properties α) (name : Bytes) : Option α :=
  (properties.find? fun elem => decide (elem.1 = name)).map Prod.snd

/-- `remove(name)`: erase every entry named `name`. -/
def remove (properties : Properties α) (name : Bytes) : Properties α :=
  properties.filter fun elem => decide (elem.1 ≠ name)

/-- `copy(src)`: set each property of `src`, in order, to a copy of its value. -/
def copy (copyAny : α → α) (properties src : Properties α) : Properties α :=
  src.foldl (fun t elem => set t elem.1 (some (copyAny elem.2))) properties

end SrsUnSortedHashtable

namespace SrsJsonObject

/-- `set(key, value)`: a null value is ignored. -/
def set (properties : Properties α) (key : Bytes) (value : Option α) : Properties α :=
  match value with
  | none => properties
  | some value => properties.eraseP (fun elem => decide (key = elem.1)) ++ [(key, value)]

def getProperty (properties : Properties α) (name : Bytes) : Option α :=
  (properties.find? fun elem => decide (elem.1 = name)).map Prod.snd

end SrsJsonObject

/-- The names of the properties are pairwise distinct. -/
def DistinctNames (properties : Properties α) : Prop := (properties.map Prod.fst).Nodup

instance (properties : Properties α) : Decidable (DistinctNames properties) :=
  inferInstanceAs (Decidable (properties.map Prod.fst).Nodup)

theorem distinctNames_nil : DistinctNames ([] : Properties α) := List.nodup_nil

/-! ## Single operations -/

open SrsUnSortedHashtable in
theorem set_some_eq {t : Properties α} (h : DistinctNames t) (k : Bytes) (v : α) :
    set t k (some v) = others k t ++ [(k, v)] :=
  congrArg (· ++ [(k, v)]) (eraseP_eq_others h)

open SrsUnSortedHashtable in
theorem set_none_eq {t : Properties α} (h : DistinctNames t) (k : Bytes) :
    set t k none = others k t := eraseP_eq_others h

open SrsUnSortedHashtable in
theorem distinctNames_set {t : Properties α} (h : DistinctNames t) (k : Bytes) (v : Option α) :
    DistinctNames (set t k v) := by
  cases v with
  | none =>
    rw [set_none_eq h]
    exact nodup_others h
  | some v =>
    rw [set_some_eq h]
    exact (OrdTable.put ⟨t, h⟩ k v).nodup

/-- With distinct names, a name is new to the properties before it. -/
theorem DistinctNames.not_mem_before {t src : Properties α} {k : Bytes} {v : α}
    (h : DistinctNames (t ++ (k, v) :: src)) : k ∉ t.map Prod.fst := by
  intro hk
  rw [DistinctNames, List.map_append, List.map_cons, List.nodup_middle, List.nodup_cons] at h
  exact h.1 (List.mem_append_left _ hk)

open SrsUnSortedHashtable in
/-- Setting a new name appends. -/
theorem set_new {t : Properties α} {k : Bytes} (hk : k ∉ t.map Prod.fst) (v : α) :
    set t k (some v) = t ++ [(k, v)] := by
  have h : t.eraseP (fun elem => decide (k = elem.1)) = t :=
    List.eraseP_of_forall_not fun e he hd => hk
      (List.mem_map.mpr ⟨e, he, (of_decide_eq_true hd).symm⟩)
  show t.eraseP _ ++ [(k, v)] = _
  rw [h]

open SrsUnSortedHashtable in
theorem mem_of_mem_set {t : Properties α} {k : Bytes} {v : α} {e : Bytes × α}
    (h : e ∈ set t k (some v)) : e = (k, v) ∨ e ∈ t := by
  rcases List.mem_append.mp h with h | h
  · exact Or.inr (List.mem_of_mem_eraseP h)
  · exact Or.inl (List.mem_singleton.mp h)

open SrsUnSortedHashtable in
/-- Copying properties with distinct new names appends them. -/
theorem copy_new (f : α → α) : ∀ (src t : Properties α), DistinctNames (t ++ src) →
    copy f t src = t ++ src.map fun e => (e.1, f e.2)
  | [], t, _ => by rw [List.map_nil, List.append_nil]; rfl
  | (k, v) :: src, t, h => by
    have h' : DistinctNames ((t ++ [(k, f v)]) ++ src) := by
      simpa [DistinctNames, List.map_append] using h
    show copy f (set t k (some (f v))) src = _
    rw [set_new h.not_mem_before, copy_new f src _ h', List.append_assoc]
    rfl

/-- Setting each property of a vector, converted, as long as the conversions succeed. -/
def convertProperties (convert : α → Option β) (t : Properties β) :
    Properties α → Option (Properties β)
  | [] => some t
  | e :: src => (convert e.2).bind fun v =>
    convertProperties convert (SrsUnSortedHashtable.set t e.1 (some v)) src

/-- Converted properties with distinct new names are appended. -/
theorem convertProperties_new {convert : α → Option β} {src : Properties α} {dst : Properties β}
    (h : List.Forall₂ (fun e e' => e.1 = e'.1 ∧ convert e.2 = some e'.2) src dst) :
    ∀ t, DistinctNames (t ++ dst) → convertProperties convert t src = some (t ++ dst) := by
  induction h with
  | nil => exact fun t _ => congrArg some (List.append_nil t).symm
  | @cons e e' src dst he _ ih =>
    obtain ⟨k, v⟩ := e'
    obtain ⟨hk, hv⟩ := he
    intro t hd
    have hnew : k ∉ t.map Prod.fst := hd.not_mem_before
    rw [List.append_cons] at hd ⊢
    rw [convertProperties, hv, Option.bind_some, hk, set_new hnew]
    exact ih _ hd

/-- Vectors with the same names. -/
theorem DistinctNames.of_forall₂ {t : Properties α} {u : Properties β}
    (h : List.Forall₂ (fun e e' => e.1 = e'.1) t u) (hd : DistinctNames t) : DistinctNames u := by
  have hnames : t.map Prod.fst = u.map Prod.fst := by
    clear hd
    induction h with
    | nil => rfl
    | cons he _ ih => rw [List.map_cons, List.map_cons, he, ih]
  unfold DistinctNames at hd ⊢
  rwa [← hnames]

/-- What holds of each entry of a list for some value holds of two lists. -/
theorem exists_forall₂ {R : α → β → Prop} {l : List α} (h : ∀ a ∈ l, ∃ b, R a b) :
    ∃ l', List.Forall₂ R l l' := by
  induction l with
  | nil => exact ⟨[], .nil⟩
  | cons a l ih =>
    obtain ⟨⟨b, hb⟩, hl⟩ := List.forall_mem_cons.mp h
    obtain ⟨l', hl'⟩ := ih hl
    exact ⟨b :: l', .cons hb hl'⟩

/-- Values that convert there and back, as lists. -/
theorem forall₂_back {γ : Type} {there : α → Option β} {back : β → Option γ} {result : α → γ}
    {l : List α} (h : ∀ a ∈ l, ∃ b, there a = some b ∧ back b = some (result a)) :
    ∃ l', List.Forall₂ (fun a b => there a = some b) l l' ∧
      List.Forall₂ (fun b c => back b = some c) l' (l.map result) := by
  obtain ⟨l', hl'⟩ := exists_forall₂ h
  exact ⟨l', hl'.imp fun _ _ hb => hb.1,
    List.forall₂_map_right_iff.mpr (hl'.flip.imp fun _ _ hb => hb.2)⟩

/-- **Converting a vector there and back converts each value there and back.** -/
theorem convertProperties_back {γ : Type} {there : α → Option β} {back : β → Option γ}
    {result : α → γ} {src : Properties α} (hd : DistinctNames src)
    (h : ∀ e ∈ src, ∃ v, there e.2 = some v ∧ back v = some (result e.2)) :
    ∃ dst, convertProperties there [] src = some dst ∧
      convertProperties back [] dst = some (src.map fun e => (e.1, result e.2)) := by
  have hentry : ∀ e ∈ src, ∃ e' : Bytes × β, e.1 = e'.1 ∧
      there e.2 = some e'.2 ∧ back e'.2 = some (result e.2) := by
    intro e he
    obtain ⟨v, hthere, hback⟩ := h e he
    exact ⟨(e.1, v), rfl, hthere, hback⟩
  obtain ⟨dst, hdst⟩ := exists_forall₂ hentry
  have hnames : DistinctNames dst := hd.of_forall₂ (hdst.imp fun _ _ he => he.1)
  have hback : List.Forall₂ (fun e e' => e.1 = e'.1 ∧ back e.2 = some e'.2) dst
      (src.map fun e => (e.1, result e.2)) :=
    List.forall₂_map_right_iff.mpr (hdst.flip.imp fun _ _ he => ⟨he.1.symm, he.2.2⟩)
  exact ⟨dst, convertProperties_new (hdst.imp fun _ _ he => ⟨he.1, he.2.1⟩) [] hnames,
    convertProperties_new hback [] (hnames.of_forall₂ (hback.imp fun _ _ he => he.1))⟩

/-! ## Histories -/

/-- An operation of a history. -/
inductive TableOp (α : Type) where
  | set (key : Bytes) (value : Option α)
  | remove (name : Bytes)
  | clear

namespace TableOp

def apply (properties : Properties α) : TableOp α → Properties α
  | .set key value => SrsUnSortedHashtable.set properties key value
  | .remove name => SrsUnSortedHashtable.remove properties name
  | .clear => []

/-- What the operation does to a table: a `set` to null deletes. -/
def event : TableOp α → Event Bytes α
  | .set key (some value) => .put key value
  | .set key none => .drop key
  | .remove name => .drop name
  | .clear => .clear

end TableOp

/-- The hashtable after a history that starts empty. -/
def hashtableAfter (ops : List (TableOp α)) : Properties α := ops.foldl TableOp.apply []

/-- The object after a sequence of sets of non-null values that starts empty. -/
def jsonObjectAfter (sets : Properties β) : Properties β :=
  sets.foldl (fun t e => SrsJsonObject.set t e.1 (some e.2)) []

/-- **Refinement**: an operation does to the vector what its event does to the table. -/
theorem entries_apply (t : OrdTable Bytes α) (op : TableOp α) :
    op.apply t.entries = (t.apply op.event).entries := by
  cases op with
  | set k v =>
    cases v with
    | none => exact set_none_eq t.nodup k
    | some v => exact set_some_eq t.nodup k v
  | remove k => rfl
  | clear => rfl

theorem hashtableAfter_eq (ops : List (TableOp α)) :
    hashtableAfter ops = (OrdTable.run (ops.map TableOp.event)).entries := by
  induction ops using List.reverseRecOn with
  | nil => rfl
  | append_singleton ops op ih =>
    rw [hashtableAfter, List.foldl_append, List.map_append, List.map_singleton,
      OrdTable.run_concat, ← entries_apply, ← ih]
    rfl

/-- A history of events splits as the history of operations does. -/
theorem map_event_eq_iff {ops : List (TableOp α)} {k : Bytes} {v : α} :
    (∃ pre post, ops.map TableOp.event = pre ++ .put k v :: post ∧
        ∀ e ∈ post, e.spares k = true) ↔
      ∃ pre post, ops = pre ++ .set k (some v) :: post ∧
        ∀ op ∈ post, op.event.spares k = true := by
  have hput : ∀ op : TableOp α, op.event = .put k v → op = .set k (some v) := by
    rintro (⟨k', _ | v'⟩ | _ | _) h <;> cases h
    rfl
  constructor
  · rintro ⟨pre, post, h, hp⟩
    obtain ⟨pre', rest, rfl, rfl, hr⟩ := List.map_eq_append_iff.mp h
    obtain ⟨op, post', rfl, hop, rfl⟩ := List.map_eq_cons_iff.mp hr
    rw [hput op hop]
    exact ⟨pre', post', rfl, fun op hop => hp _ (List.mem_map_of_mem hop)⟩
  · rintro ⟨pre, post, rfl, hp⟩
    refine ⟨pre.map TableOp.event, post.map TableOp.event, by simp [TableOp.event], ?_⟩
    intro e he
    obtain ⟨op, hop, rfl⟩ := List.mem_map.mp he
    exact hp op hop

/-- Erasing one name from two vectors that correspond. -/
theorem forall₂_eraseP {R : α → β → Prop} (k : Bytes) {t : Properties α} {u : Properties β}
    (h : List.Forall₂ (fun a b => a.1 = b.1 ∧ R a.2 b.2) t u) :
    List.Forall₂ (fun a b => a.1 = b.1 ∧ R a.2 b.2)
      (t.eraseP fun elem => decide (k = elem.1)) (u.eraseP fun elem => decide (k = elem.1)) := by
  induction h with
  | nil => exact .nil
  | cons hab h ih =>
    rename_i a b t u
    by_cases hk : k = a.1
    · rw [List.eraseP_cons_of_pos (by simpa using hk),
        List.eraseP_cons_of_pos (by simpa [← hab.1] using hk)]
      exact h
    · rw [List.eraseP_cons_of_neg (by simpa using hk),
        List.eraseP_cons_of_neg (by simpa [← hab.1] using hk)]
      exact .cons hab ih

theorem forall₂_sets {R : α → β → Prop} {sets : Properties α} {sets' : Properties β}
    (h : List.Forall₂ (fun a b => a.1 = b.1 ∧ R a.2 b.2) sets sets') :
    ∀ {t : Properties α} {u : Properties β},
      List.Forall₂ (fun a b => a.1 = b.1 ∧ R a.2 b.2) t u →
      List.Forall₂ (fun a b => a.1 = b.1 ∧ R a.2 b.2)
        ((sets.map fun e => TableOp.set e.1 (some e.2)).foldl TableOp.apply t)
        (sets'.foldl (fun t e => SrsJsonObject.set t e.1 (some e.2)) u) := by
  induction h with
  | nil => exact fun htu => htu
  | cons hab h ih =>
    rename_i a b sets sets'
    refine fun htu => ih (List.rel_append ?_ (.cons ⟨hab.1, hab.2⟩ .nil))
    rw [hab.1]
    exact forall₂_eraseP b.1 htu

/-- **The ordered property table.** After any history on an empty hashtable: names are distinct;
`getProperty` answers with the last `set` of the name not followed by a deletion or a clear, and is
null when there is none; `count` is the number of live names; `keyAt` and `valueAt` enumerate the
live sets in order. And `SrsJsonObject`, given the same names with corresponding non-null values,
ends with the same names and corresponding values in the same order. -/
theorem hashtable_history :
    (∀ ops : List (TableOp α),
      DistinctNames (hashtableAfter ops) ∧
      (∀ k v, SrsUnSortedHashtable.getProperty (hashtableAfter ops) k = some v ↔
        ∃ pre post, ops = pre ++ .set k (some v) :: post ∧
          ∀ op ∈ post, op.event.spares k = true) ∧
      (∀ s : Finset Bytes,
        (∀ k, k ∈ s ↔ ∃ v, SrsUnSortedHashtable.getProperty (hashtableAfter ops) k = some v) →
        SrsUnSortedHashtable.count (hashtableAfter ops) = s.card) ∧
      ∀ i, SrsUnSortedHashtable.keyAt (hashtableAfter ops) i =
          (live (ops.map TableOp.event))[i]?.map Prod.fst ∧
        SrsUnSortedHashtable.valueAt (hashtableAfter ops) i =
          (live (ops.map TableOp.event))[i]?.map Prod.snd) ∧
    ∀ (R : α → β → Prop) (sets : Properties α) (sets' : Properties β),
      List.Forall₂ (fun a b => a.1 = b.1 ∧ R a.2 b.2) sets sets' →
      List.Forall₂ (fun a b => a.1 = b.1 ∧ R a.2 b.2)
        (hashtableAfter (sets.map fun e => .set e.1 (some e.2))) (jsonObjectAfter sets') := by
  refine ⟨fun ops => ?_, fun R sets sets' h => forall₂_sets h .nil⟩
  have hget : ∀ k, SrsUnSortedHashtable.getProperty (hashtableAfter ops) k =
      (OrdTable.run (ops.map TableOp.event)).get? k := fun k => by rw [hashtableAfter_eq]; rfl
  refine ⟨?_, fun k v => ?_, fun s hs => ?_, fun i => ?_⟩
  · rw [hashtableAfter_eq]
    exact OrdTable.nodup _
  · rw [hget, OrdTable.get?_run, map_event_eq_iff]
  · simp only [hget] at hs
    rw [SrsUnSortedHashtable.count, hashtableAfter_eq, OrdTable.length_entries _ hs]
  · rw [SrsUnSortedHashtable.keyAt, SrsUnSortedHashtable.valueAt, hashtableAfter_eq,
      OrdTable.entries_run]
    exact ⟨rfl, rfl⟩

end Ssms.Protocol
