import Mathlib.Data.List.Basic

/-!
# A list that is changed in one place

What `List.modify` does to a list that is put together from parts.
-/

namespace Ssms.Lib

variable {α : Type}

theorem modify_append_of_le (l l' : List α) (f : α → α) {i : Nat} (hi : l.length ≤ i) :
    (l ++ l').modify i f = l ++ l'.modify (i - l.length) f := by
  induction l generalizing i with
  | nil => rfl
  | cons x l ih =>
    cases i with
    | zero => simp at hi
    | succ i => simp [ih (Nat.le_of_succ_le_succ hi)]

theorem modify_append_cons (l l' : List α) (x : α) (f : α → α) {i : Nat} (hi : i = l.length) :
    (l ++ x :: l').modify i f = l ++ f x :: l' := by
  rw [modify_append_of_le _ _ _ (Nat.le_of_eq hi.symm), hi, Nat.sub_self]
  rfl

end Ssms.Lib
