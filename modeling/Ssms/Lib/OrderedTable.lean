import Mathlib.Data.List.Nodup
import Mathlib.Data.Finset.Card

/-!
# Tables ordered by last write

A table keeps at most one value a key, and its entries stand in the order in which the keys were
last written: writing a key again moves it to the end. `OrdTable` carries distinctness of the keys
as a field, so it is proved once for each operation (`put`, `drop`, `clear`).

A history is a list of `Event`s. `live es` are the writes of a history that no later event
touches, in the order they were made.

* `entries_run`: the entries of the table a history builds are its live writes, in order.
* `get?_run`: a key holds `v` iff the history ends in a write of `v` to the key followed by events
  that spare the key.
* `length_entries`: the table has one entry for each key that holds a value.
-/

namespace Ssms.Lib

variable {κ α β : Type} [DecidableEq κ]

/-- A table ordered by last write. -/
structure OrdTable (κ α : Type) where
  entries : List (κ × α)
  nodup : (entries.map Prod.fst).Nodup

/-- One step of a history. -/
inductive Event (κ α : Type) where
  | put (k : κ) (v : α)
  | drop (k : κ)
  | clear

/-- The event leaves the value of `k` alone. -/
def Event.spares (k : κ) : Event κ α → Bool
  | .put k' _ => decide (k ≠ k')
  | .drop k' => decide (k ≠ k')
  | .clear => false

/-- The entries for other keys. -/
def others (k : κ) (l : List (κ × α)) : List (κ × α) := l.filter fun e => decide (e.1 ≠ k)

theorem mem_others {k : κ} {l : List (κ × α)} {e : κ × α} : e ∈ others k l ↔ e ∈ l ∧ e.1 ≠ k := by
  simp [others]

theorem others_eq_self {k : κ} {l : List (κ × α)} (h : k ∉ l.map Prod.fst) : others k l = l := by
  refine List.filter_eq_self.mpr fun e he => decide_eq_true fun hk => h ?_
  exact List.mem_map.mpr ⟨e, he, hk⟩

theorem nodup_others {k : κ} {l : List (κ × α)} (h : (l.map Prod.fst).Nodup) :
    ((others k l).map Prod.fst).Nodup :=
  h.sublist (List.filter_sublist.map _)

theorem not_mem_keys_others (k : κ) (l : List (κ × α)) : k ∉ (others k l).map Prod.fst := by
  rw [List.mem_map]
  rintro ⟨e, he, rfl⟩
  exact (mem_others.mp he).2 rfl

/-- With distinct keys, removing the first entry for `k` removes them all. -/
theorem eraseP_eq_others {k : κ} : ∀ {l : List (κ × α)}, (l.map Prod.fst).Nodup →
    l.eraseP (fun e => decide (k = e.1)) = others k l
  | [], _ => rfl
  | (k', v) :: l, h => by
    rw [List.map_cons, List.nodup_cons] at h
    by_cases hk : k = k'
    · subst hk
      rw [List.eraseP_cons_of_pos (by simp), others, List.filter_cons_of_neg (by simp)]
      exact (others_eq_self h.1).symm
    · rw [List.eraseP_cons_of_neg (by simpa using hk), eraseP_eq_others h.2, others, others,
        List.filter_cons_of_pos (by simpa using Ne.symm hk)]

namespace OrdTable

def empty : OrdTable κ α := ⟨[], List.nodup_nil⟩

/-- Remove `k`. -/
def drop (t : OrdTable κ α) (k : κ) : OrdTable κ α := ⟨others k t.entries, nodup_others t.nodup⟩

/-- Write `v` to `k`, as the last entry. -/
def put (t : OrdTable κ α) (k : κ) (v : α) : OrdTable κ α where
  entries := others k t.entries ++ [(k, v)]
  nodup := by
    rw [List.map_append]
    refine (nodup_others t.nodup).append (List.nodup_singleton k) ?_
    simpa using not_mem_keys_others k t.entries

/-- The value of `k`. -/
def get? (t : OrdTable κ α) (k : κ) : Option α :=
  (t.entries.find? fun e => decide (e.1 = k)).map Prod.snd

def apply (t : OrdTable κ α) : Event κ α → OrdTable κ α
  | .put k v => t.put k v
  | .drop k => t.drop k
  | .clear => empty

/-- The table a history builds. -/
def run (es : List (Event κ α)) : OrdTable κ α := es.foldl apply empty

theorem get?_eq_some_iff (t : OrdTable κ α) (k : κ) (v : α) :
    t.get? k = some v ↔ (k, v) ∈ t.entries := by
  obtain ⟨l, hl⟩ := t
  show (l.find? fun e => decide (e.1 = k)).map Prod.snd = some v ↔ (k, v) ∈ l
  induction l with
  | nil => simp
  | cons e l ih =>
    obtain ⟨k', v'⟩ := e
    rw [List.map_cons, List.nodup_cons] at hl
    by_cases hk : k' = k
    · subst hk
      rw [List.find?_cons_of_pos (by simp), List.mem_cons]
      constructor
      · intro h
        obtain rfl : v' = v := by simpa using h
        exact Or.inl rfl
      · rintro (h | h)
        · cases h; rfl
        · exact absurd (List.mem_map.mpr ⟨_, h, rfl⟩) hl.1
    · rw [List.find?_cons_of_neg (by simpa using hk), ih hl.2, List.mem_cons]
      constructor
      · exact Or.inr
      · rintro (h | h)
        · cases h; exact absurd rfl hk
        · exact h

/-- The table has one entry for each key that holds a value. -/
theorem length_entries (t : OrdTable κ α) {s : Finset κ}
    (hs : ∀ k, k ∈ s ↔ ∃ v, t.get? k = some v) : t.entries.length = s.card := by
  have hkeys : s = (t.entries.map Prod.fst).toFinset := by
    ext k
    rw [hs, List.mem_toFinset, List.mem_map]
    constructor
    · rintro ⟨v, hv⟩
      exact ⟨(k, v), (t.get?_eq_some_iff k v).mp hv, rfl⟩
    · rintro ⟨⟨k', v⟩, hv, rfl⟩
      exact ⟨v, (t.get?_eq_some_iff k' v).mpr hv⟩
  rw [hkeys, List.toFinset_card_of_nodup t.nodup, List.length_map]

end OrdTable

/-! ## Histories -/

/-- The writes that no later event touches, in order. -/
def live : List (Event κ α) → List (κ × α)
  | [] => []
  | .put k v :: es => if es.all (·.spares k) then (k, v) :: live es else live es
  | .drop _ :: es => live es
  | .clear :: es => live es

theorem mem_live {k : κ} {v : α} : ∀ {es : List (Event κ α)}, (k, v) ∈ live es ↔
    ∃ pre post, es = pre ++ .put k v :: post ∧ ∀ e ∈ post, e.spares k = true
  | [] => by simp [live]
  | e :: es => by
    have hstep : (∃ pre post, e :: es = pre ++ .put k v :: post ∧ ∀ x ∈ post, x.spares k = true) ↔
        (e = .put k v ∧ ∀ x ∈ es, x.spares k = true) ∨ (k, v) ∈ live es := by
      rw [@mem_live k v es]
      constructor
      · rintro ⟨pre, post, h, hp⟩
        cases pre with
        | nil => cases h; exact Or.inl ⟨rfl, hp⟩
        | cons x pre => cases h; exact Or.inr ⟨pre, post, rfl, hp⟩
      · rintro (⟨rfl, hp⟩ | ⟨pre, post, rfl, hp⟩)
        · exact ⟨[], es, rfl, hp⟩
        · exact ⟨e :: pre, post, rfl, hp⟩
    rw [hstep]
    cases e with
    | put k' v' =>
      rw [live]
      split
      · rename_i hall
        rw [List.mem_cons]
        refine or_congr ⟨?_, ?_⟩ Iff.rfl
        · intro h; cases h; exact ⟨rfl, List.all_eq_true.mp hall⟩
        · rintro ⟨h, -⟩; cases h; rfl
      · rename_i hall
        constructor
        · exact Or.inr
        · rintro (⟨h, hp⟩ | h)
          · cases h; exact absurd (List.all_eq_true.mpr hp) hall
          · exact h
    | drop k' => simp [live]
    | clear => simp [live]

/-- One more event removes the writes it does not spare and adds its own. -/
theorem live_concat (e : Event κ α) : ∀ es : List (Event κ α),
    live (es ++ [e]) = (live es).filter (fun x => e.spares x.1) ++ live [e]
  | [] => rfl
  | .drop _ :: es => live_concat e es
  | .clear :: es => live_concat e es
  | .put k v :: es => by
    have hall : (es ++ [e]).all (·.spares k) = (es.all (·.spares k) && e.spares k) := by simp
    rw [List.cons_append, live, live, live_concat e es, hall]
    cases es.all (·.spares k) with
    | false => rfl
    | true =>
      rw [Bool.true_and, if_pos rfl]
      by_cases he : e.spares k = true
      · rw [if_pos he, List.filter_cons_of_pos (by exact he), List.cons_append]
      · rw [if_neg he, List.filter_cons_of_neg (by exact he)]

namespace OrdTable

theorem run_concat (es : List (Event κ α)) (e : Event κ α) :
    run (es ++ [e]) = (run es).apply e := by
  simp [run]

/-- **The table holds the live writes of its history, in order.** -/
theorem entries_run (es : List (Event κ α)) : (run es).entries = live es := by
  induction es using List.reverseRecOn with
  | nil => rfl
  | append_singleton es e ih =>
    rw [run_concat, live_concat, ← ih]
    cases e with
    | put k v => rfl
    | drop k => exact (List.append_nil _).symm
    | clear => simp [apply, empty, live, Event.spares]

/-- **A key holds the value of its last write**, unless it was dropped or cleared since. -/
theorem get?_run (es : List (Event κ α)) (k : κ) (v : α) : (run es).get? k = some v ↔
    ∃ pre post, es = pre ++ .put k v :: post ∧ ∀ e ∈ post, e.spares k = true := by
  rw [get?_eq_some_iff, entries_run, mem_live]

end OrdTable

end Ssms.Lib
