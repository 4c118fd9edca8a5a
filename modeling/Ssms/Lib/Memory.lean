/-!
# Stores to memory

A memory gives each address, an integer, its cell. `store m a l` is the memory `m` with the cells of
`l` from address `a` on, and `storeAll` makes a list of such stores in order. Stores within a region
leave the memory outside it as it is (`storeAll_outside`). Texts that are stored in a row, each over
the terminator of the one before, are one text (`storeAll_inRow`).
-/

namespace Ssms.Lib.Memory

variable {β : Type} {m : Int → β} {a i : Int} {l : List β}

/-- The memory with the cells of `l` from `a` on. -/
def store (m : Int → β) (a : Int) (l : List β) : Int → β := fun i =>
  if a ≤ i then l[(i - a).toNat]?.getD (m i) else m i

/-- The memory after stores, the first one first. -/
def storeAll (m : Int → β) (stores : List (Int × List β)) : Int → β :=
  stores.foldl (fun m s => store m s.1 s.2) m

theorem store_outside (h : i < a ∨ a + l.length ≤ i) : store m a l i = m i := by
  unfold store
  by_cases ha : a ≤ i
  · rw [if_pos ha, List.getElem?_eq_none (by omega)]
    rfl
  · rw [if_neg ha]

/-- **Stores within a region leave the memory outside it as it is.** -/
theorem storeAll_outside {low high : Int} {stores : List (Int × List β)}
    (h : ∀ s ∈ stores, low ≤ s.1 ∧ s.1 + s.2.length ≤ high) (hi : i < low ∨ high ≤ i) :
    storeAll m stores i = m i := by
  induction stores generalizing m with
  | nil => rfl
  | cons s stores ih =>
    obtain ⟨hs, hstores⟩ := List.forall_mem_cons.mp h
    calc storeAll m (s :: stores) i = storeAll (store m s.1 s.2) stores i := rfl
      _ = store m s.1 s.2 i := ih hstores
      _ = m i := store_outside (by omega)

/-- A text that begins where another one ends, over its last cell. -/
theorem store_store (l l' : List β) (x : β) (hne : l' ≠ []) :
    store (store m a (l ++ [x])) (a + l.length) l' = store m a (l ++ l') := by
  have hpos := List.length_pos_iff.mpr hne
  funext i
  unfold store
  by_cases hi : a + l.length ≤ i
  · rw [if_pos hi, if_pos (by omega), if_pos (by omega), List.getElem?_append_right (by omega),
      List.getElem?_append_right (by omega)]
    have hsub : (i - a).toNat - l.length = (i - (a + l.length)).toNat := by omega
    rw [hsub]
    cases hget : l'[(i - (a + l.length)).toNat]? with
    | some y => rfl
    | none =>
      have hlen := List.getElem?_eq_none_iff.mp hget
      rw [List.getElem?_eq_none (by rw [List.length_singleton]; omega)]
      rfl
  · rw [if_neg hi]
    by_cases ha : a ≤ i
    · rw [if_pos ha, if_pos ha, List.getElem?_append_left (by omega),
        List.getElem?_append_left (by omega)]
    · rw [if_neg ha, if_neg ha]

/-- Stores of texts one behind the other, each with an `x` at its end. -/
def inRow (x : β) (a : Int) : List (List β) → List (Int × List β)
  | [] => []
  | t :: ts => (a, t ++ [x]) :: inRow x (a + t.length) ts

/-- **Texts in a row are one text.** -/
theorem storeAll_inRow {x : β} {ts : List (List β)} (hts : ts ≠ []) :
    storeAll m (inRow x a ts) = store m a (ts.flatten ++ [x]) := by
  have h : ∀ (ts : List (List β)) (l : List β),
      storeAll (store m a (l ++ [x])) (inRow x (a + l.length) ts) =
        store m a (l ++ ts.flatten ++ [x]) := by
    intro ts
    induction ts with
    | nil =>
      intro l
      rw [List.flatten_nil, List.append_nil]
      rfl
    | cons t ts ih =>
      intro l
      have hstep : storeAll (store m a (l ++ [x])) (inRow x (a + l.length) (t :: ts)) =
          storeAll (store (store m a (l ++ [x])) (a + l.length) (t ++ [x]))
            (inRow x (a + l.length + t.length) ts) := rfl
      have hne : t ++ [x] ≠ [] := List.append_ne_nil_of_right_ne_nil _ (List.cons_ne_nil _ _)
      rw [hstep, store_store l (t ++ [x]) x hne, ← List.append_assoc, Int.add_assoc]
      have hrest := ih (l ++ t)
      rw [List.length_append, Int.natCast_add] at hrest
      rw [hrest, List.flatten_cons, List.append_assoc l]
  obtain ⟨t, ts, rfl⟩ := List.exists_cons_of_ne_nil hts
  exact h ts t

end Ssms.Lib.Memory
