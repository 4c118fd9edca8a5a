import Mathlib.Data.List.Basic

/-!
# The longest run of a property

In a list whose front has a property that the element after it lacks, the front is determined: it is
the longest run of the property (`span_unique`).
-/

namespace Ssms.Lib

variable {α : Type}

/-- `o` does not begin with a `p`. -/
def Stops (p : α → Prop) (o : List α) : Prop := ∀ c, o.head? = some c → ¬ p c

/-- **The longest run of a property is unique.** -/
theorem span_unique {p : α → Prop} : ∀ {l l' o o' : List α}, (∀ c ∈ l, p c) → (∀ c ∈ l', p c) →
    Stops p o → Stops p o' → l ++ o = l' ++ o' → l' = l ∧ o' = o
  | [], [], _, _, _, _, _, _, h => ⟨rfl, h.symm⟩
  | [], c :: l', o, o', _, hl', ho, _, h => by
    have hhead : o.head? = some c := by
      rw [List.nil_append] at h
      rw [h]
      rfl
    exact absurd (hl' c List.mem_cons_self) (ho c hhead)
  | c :: l, [], o, o', hl, _, _, ho', h => by
    have hhead : o'.head? = some c := by
      rw [List.nil_append] at h
      rw [← h]
      rfl
    exact absurd (hl c List.mem_cons_self) (ho' c hhead)
  | c :: l, c' :: l', o, o', hl, hl', ho, ho', h => by
    obtain ⟨rfl, heq⟩ := List.cons_eq_cons.mp h
    obtain ⟨rfl, rfl⟩ := span_unique (fun c hc => hl c (List.mem_cons_of_mem _ hc))
      (fun c hc => hl' c (List.mem_cons_of_mem _ hc)) ho ho' heq
    exact ⟨rfl, rfl⟩

end Ssms.Lib
