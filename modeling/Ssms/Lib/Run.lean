/-!
# Runs of a state machine

`Reached Start Step` are the states of the runs that begin in a state of `Start` and make the steps
`Step`. What holds of every start and is kept by every step holds in every state reached
(`Reached.invariant`); a step lemma may use that its first state is reached.

Where a state keeps the history of its run, oldest event first, `Justified Allowed log` is what is
said about the order of the events: each one is allowed by those before it.
-/

namespace Ssms.Lib.Run

/-- The states reached from a start by steps. -/
inductive Reached {σ : Type} (Start : σ → Prop) (Step : σ → σ → Prop) : σ → Prop
  | start {s} (h : Start s) : Reached Start Step s
  | step {s s'} (h : Reached Start Step s) (hstep : Step s s') : Reached Start Step s'

namespace Reached

variable {σ : Type} {Start : σ → Prop} {Step : σ → σ → Prop}

/-- **An invariant of the starts and the steps holds in every state reached.** -/
theorem invariant {Inv : σ → Prop} {s : σ} (h : Reached Start Step s)
    (hstart : ∀ s, Start s → Inv s)
    (hstep : ∀ s s', Reached Start Step s → Inv s → Step s s' → Inv s') : Inv s := by
  induction h with
  | start h => exact hstart _ h
  | step hr hs ih => exact hstep _ _ hr ih hs

end Reached

/-! ## Histories -/

/-- Every event is allowed by the events before it. -/
def Justified {ε : Type} (Allowed : List ε → ε → Prop) (log : List ε) : Prop :=
  ∀ pre e post, log = pre ++ e :: post → Allowed pre e

variable {ε : Type} {Allowed : List ε → ε → Prop} {log : List ε} {e : ε}

theorem justified_nil : Justified Allowed [] := fun pre e post h => by simp at h

/-- **An allowed event keeps a history justified.** -/
theorem Justified.concat (h : Justified Allowed log) (he : Allowed log e) :
    Justified Allowed (log ++ [e]) := by
  intro pre e' post heq
  rcases List.eq_nil_or_concat post with rfl | ⟨post', x, rfl⟩
  · obtain ⟨rfl, hlast⟩ := List.append_inj' heq rfl
    obtain ⟨rfl, -⟩ := List.cons_eq_cons.mp hlast
    exact he
  · rw [List.concat_eq_append, ← List.cons_append, ← List.append_assoc] at heq
    exact h pre e' post' (List.append_inj' heq rfl).1

/-- A history is justified exactly if its last event is, and those before it. -/
theorem justified_concat_iff :
    Justified Allowed (log ++ [e]) ↔ Justified Allowed log ∧ Allowed log e := by
  constructor
  · intro h
    refine ⟨fun pre e' post heq => h pre e' (post ++ [e]) (by simp [heq]), h log e [] rfl⟩
  · rintro ⟨h, he⟩
    exact h.concat he

end Ssms.Lib.Run
