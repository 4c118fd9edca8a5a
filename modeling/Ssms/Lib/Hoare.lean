/-!
# Triples for programs that can fail

`Triple P m Q E`: run from a state with `P`, the program `m` returns with `Q` or fails with `E`. The
rules follow the shape of a program: `ret`, `raise`, `read`, `update`, `bind`, `adapt` for a program
whose failures are renamed, and `loop` for `repeatWhile`, whose invariant is a `P` that each pass
keeps; `count` has one that depends on the number of passes.
-/

namespace Ssms.Lib.Hoare

variable {ε σ α β : Type} {P : σ → Prop} {m : EStateM ε σ α} {Q : α → σ → Prop} {E : ε → σ → Prop}

/-- From a state with `P`, `m` returns with `Q` or fails with `E`. -/
def Triple (P : σ → Prop) (m : EStateM ε σ α) (Q : α → σ → Prop) (E : ε → σ → Prop) : Prop :=
  ∀ s, P s → match m s with
    | .ok a s' => Q a s'
    | .error e s' => E e s'

/-- `body` over and over, with a counter, while it returns true; `stuck` when out of fuel. -/
def repeatWhile (stuck : ε) (body : Nat → EStateM ε σ Bool) : Nat → Nat → EStateM ε σ Unit
  | 0, _ => throw stuck
  | fuel + 1, n => do
    if ← body n then
      repeatWhile stuck body fuel (n + 1)

namespace Triple

theorem ok_inv (h : Triple P m Q E) {s s' : σ} {a : α} (hP : P s) (hm : m s = .ok a s') :
    Q a s' := by
  have := h s hP
  rwa [hm] at this

theorem error_inv (h : Triple P m Q E) {s s' : σ} {e : ε} (hP : P s) (hm : m s = .error e s') :
    E e s' := by
  have := h s hP
  rwa [hm] at this

/-- A weaker promise from a stronger assumption. -/
theorem weaken {P' : σ → Prop} {Q' : α → σ → Prop} {E' : ε → σ → Prop} (h : Triple P m Q E)
    (hP : ∀ s, P' s → P s) (hQ : ∀ a s, Q a s → Q' a s) (hE : ∀ e s, E e s → E' e s) :
    Triple P' m Q' E' := by
  intro s hs
  have := h s (hP s hs)
  cases hm : m s with
  | ok a s' => exact hQ a s' (by rwa [hm] at this)
  | error e s' => exact hE e s' (by rwa [hm] at this)

/-- Failures that are said less of. -/
theorem failing {E' : ε → σ → Prop} (h : Triple P m Q E) (hE : ∀ e s, E e s → E' e s) :
    Triple P m Q E' :=
  h.weaken (fun _ hP => hP) (fun _ _ hQ => hQ) hE

/-- A family of assumptions at once. -/
theorem ex {ι : Type} {P : ι → σ → Prop} (h : ∀ i, Triple (P i) m Q E) :
    Triple (fun s => ∃ i, P i s) m Q E := by
  rintro s ⟨i, hi⟩
  exact h i s hi

theorem ret {a : α} (h : ∀ s, P s → Q a s) : Triple P (pure a : EStateM ε σ α) Q E := h

theorem read : Triple P (get : EStateM ε σ σ) (fun a s => a = s ∧ P s) E := fun _ h => ⟨rfl, h⟩

theorem raise {e : ε} (h : ∀ s, P s → E e s) : Triple P (throw e : EStateM ε σ α) Q E := h

theorem update {f : σ → σ} {Q : Unit → σ → Prop} (h : ∀ s, P s → Q () (f s)) :
    Triple P (modify f : EStateM ε σ Unit) Q E := h

/-- **A sequence**: what the first program returns with is assumed of the second. -/
theorem bind {f : α → EStateM ε σ β} {E' : ε → σ → Prop} {R : β → σ → Prop} (hm : Triple P m Q E)
    (hE : ∀ e s, E e s → E' e s) (hf : ∀ a, Triple (Q a) (f a) R E') :
    Triple P (m >>= f) R E' := by
  intro s hs
  show match EStateM.bind m f s with
    | .ok b s' => R b s'
    | .error e s' => E' e s'
  cases hrun : m s with
  | ok a s' =>
    have := hf a s' (hm.ok_inv hs hrun)
    simpa [EStateM.bind, hrun] using this
  | error e s' =>
    have := hE e s' (hm.error_inv hs hrun)
    simpa [EStateM.bind, hrun] using this

/-- A program whose failures are renamed. -/
theorem adapt {ε' : Type} {rename : ε → ε'} {E' : ε' → σ → Prop} (h : Triple P m Q E)
    (hE : ∀ e s, E e s → E' (rename e) s) : Triple P (m.adaptExcept rename) Q E' := by
  intro s hs
  cases hrun : m s with
  | ok a s' =>
    have := h.ok_inv hs hrun
    simpa [EStateM.adaptExcept, hrun] using this
  | error e s' =>
    have := hE e s' (h.error_inv hs hrun)
    simpa [EStateM.adaptExcept, hrun] using this

/-- **A loop**: each pass keeps the invariant while it asks for another one. -/
theorem loop {I J : σ → Prop} {stuck : ε} {body : Nat → EStateM ε σ Bool}
    (hbody : ∀ n, Triple I (body n) (fun again s => if again = true then I s else J s) E)
    (hstuck : ∀ s, I s → E stuck s) (fuel n : Nat) :
    Triple I (repeatWhile stuck body fuel n) (fun _ => J) E := by
  induction fuel generalizing n with
  | zero => exact raise hstuck
  | succ fuel ih =>
    refine (hbody n).bind (fun _ _ h => h) fun again => ?_
    cases again with
    | true => exact (ih (n + 1)).weaken (by simp) (by simp) (by simp)
    | false => exact ret (by simp)

/-- **A loop with an invariant for each pass.** -/
theorem count {I : Nat → σ → Prop} {J : σ → Prop} {stuck : ε} {body : Nat → EStateM ε σ Bool}
    (hbody : ∀ n,
      Triple (I n) (body n) (fun again s => if again = true then I (n + 1) s else J s) E)
    (fuel n : Nat) (hstuck : ∀ s, I (n + fuel) s → E stuck s) :
    Triple (I n) (repeatWhile stuck body fuel n) (fun _ => J) E := by
  induction fuel generalizing n with
  | zero => exact raise hstuck
  | succ fuel ih =>
    refine (hbody n).bind (fun _ _ h => h) fun again => ?_
    cases again with
    | true =>
      have hrest := ih (n + 1) fun s h => hstuck s (by rwa [Nat.add_right_comm] at h)
      exact hrest.weaken (by simp) (by simp) (by simp)
    | false => exact ret (by simp)

end Triple

end Ssms.Lib.Hoare
