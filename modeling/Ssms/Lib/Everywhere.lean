import Mathlib.Data.List.Defs

/-!
# Properties of every node of a tree

A type of trees is given by `children`, which lists the subtrees directly under a tree.
`Everywhere children P v`: `P` holds of `v` and of every tree inside it. An induction over an
`Everywhere` is one over the tree with `P` at hand at each node.
-/

namespace Ssms.Lib

variable {α : Type}

/-- `P` holds of a tree and of every tree inside it. -/
inductive Everywhere (children : α → List α) (P : α → Prop) : α → Prop
  | node {v} (here : P v) (inside : ∀ w ∈ children v, Everywhere children P w) :
      Everywhere children P v

namespace Everywhere

variable {children : α → List α} {P Q : α → Prop} {v : α}

theorem here (h : Everywhere children P v) : P v := by
  cases h with
  | node here _ => exact here

theorem inside (h : Everywhere children P v) : ∀ w ∈ children v, Everywhere children P w := by
  cases h with
  | node _ inside => exact inside

theorem and (hP : Everywhere children P v) (hQ : Everywhere children Q v) :
    Everywhere children (fun w => P w ∧ Q w) v := by
  induction hP with
  | node here _ ih => exact .node ⟨here, hQ.here⟩ fun w hw => ih w hw (hQ.inside w hw)

theorem mono (hPQ : ∀ w, P w → Q w) (h : Everywhere children P v) : Everywhere children Q v := by
  induction h with
  | node here _ ih => exact .node (hPQ _ here) ih

/-- A tree without subtrees. -/
theorem leaf (hv : children v = []) (h : P v) : Everywhere children P v :=
  .node h fun w hw => absurd hw (by rw [hv]; exact List.not_mem_nil)

/-- Fewer subtrees. -/
theorem restrict {children' : α → List α} (hsub : ∀ v, ∀ w ∈ children' v, w ∈ children v)
    (h : Everywhere children P v) : Everywhere children' P v := by
  induction h with
  | node here _ ih => exact .node here fun w hw => ih w (hsub _ w hw)

end Everywhere

end Ssms.Lib
