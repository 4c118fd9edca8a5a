import Mathlib.Order.Basic

/-!
# Loops with a potential

`run body fuel s` repeats `body` from `s` until it ends with a result, at most `fuel` times. A
potential pays for the repetitions: `Leads body φ P Q` says that from a state with `P` the loop gets
to one with `Q`, and makes at most as many steps as the potential `φ` falls by. So such runs can be
put together (`Leads.trans`) without counting, and a loop that ends does so within the potential of
its first state (`Stops.run`).
-/

namespace Ssms.Lib.Loop

variable {σ ε : Type} {body : σ → Except ε σ} {φ : σ → Nat}

/-- `body` over and over; none when out of fuel. -/
def run (body : σ → Except ε σ) : Nat → σ → Option ε
  | 0, _ => none
  | fuel + 1, s =>
    match body s with
    | .ok s => run body fuel s
    | .error e => some e

/-- So many repetitions lead from one state to another. -/
inductive Steps (body : σ → Except ε σ) : Nat → σ → σ → Prop
  | refl (s : σ) : Steps body 0 s s
  | step {n s s' s''} (h : body s = .ok s') (hs : Steps body n s' s'') : Steps body (n + 1) s s''

namespace Steps

variable {n n' : Nat} {s s' s'' : σ}

theorem one (h : body s = .ok s') : Steps body 1 s s' := .step h (.refl s')

theorem trans (h : Steps body n s s') (h' : Steps body n' s' s'') : Steps body (n + n') s s'' := by
  induction h with
  | refl => rwa [Nat.zero_add]
  | step hbody _ ih =>
    rw [Nat.add_right_comm]
    exact .step hbody (ih h')

/-- After some repetitions the loop goes on with the fuel that is left. -/
theorem run_eq (h : Steps body n s s') (fuel : Nat) : run body (n + fuel) s = run body fuel s' := by
  induction h with
  | refl => rw [Nat.zero_add]
  | step hbody _ ih =>
    rw [Nat.add_right_comm, run, hbody]
    exact ih

end Steps

/-- From `P` the loop gets to `Q`, in as many steps as the potential falls by. -/
def Leads (body : σ → Except ε σ) (φ : σ → Nat) (P Q : σ → Prop) : Prop :=
  ∀ s, P s → ∃ n s', Steps body n s s' ∧ n + φ s' ≤ φ s ∧ Q s'

/-- From `P` the loop ends with an `R`, after as many steps as the potential at most. -/
def Stops (body : σ → Except ε σ) (φ : σ → Nat) (P : σ → Prop) (R : ε → Prop) : Prop :=
  ∀ s, P s → ∃ n s' e, Steps body n s s' ∧ n ≤ φ s ∧ body s' = .error e ∧ R e

variable {P Q Q' : σ → Prop} {R R' : ε → Prop}

theorem Leads.refl (P : σ → Prop) : Leads body φ P P :=
  fun s hs => ⟨0, s, .refl s, Nat.le_of_eq (Nat.zero_add _), hs⟩

theorem Leads.trans (h : Leads body φ P Q) (h' : Leads body φ Q Q') : Leads body φ P Q' := by
  intro s hs
  obtain ⟨n, s₁, hsteps, hn, hs₁⟩ := h s hs
  obtain ⟨n', s₂, hsteps', hn', hs₂⟩ := h' s₁ hs₁
  exact ⟨n + n', s₂, hsteps.trans hsteps', by omega, hs₂⟩

theorem Leads.mono (h : Leads body φ P Q) (hQ : ∀ s, Q s → Q' s) : Leads body φ P Q' := by
  intro s hs
  obtain ⟨n, s', hsteps, hn, hs'⟩ := h s hs
  exact ⟨n, s', hsteps, hn, hQ s' hs'⟩

/-- A family of assumptions at once. -/
theorem Leads.ex {ι : Type} {P : ι → σ → Prop} (h : ∀ x, Leads body φ (P x) Q) :
    Leads body φ (fun s => ∃ x, P x s) Q := by
  rintro s ⟨x, hx⟩
  exact h x s hx

theorem Leads.stops (h : Leads body φ P Q) (h' : Stops body φ Q R) : Stops body φ P R := by
  intro s hs
  obtain ⟨n, s₁, hsteps, hn, hs₁⟩ := h s hs
  obtain ⟨n', s₂, e, hsteps', hn', hbody, he⟩ := h' s₁ hs₁
  exact ⟨n + n', s₂, e, hsteps.trans hsteps', by omega, hbody, he⟩

theorem Stops.ex {ι : Type} {P : ι → σ → Prop} (h : ∀ x, Stops body φ (P x) R) :
    Stops body φ (fun s => ∃ x, P x s) R := by
  rintro s ⟨x, hx⟩
  exact h x s hx

theorem Stops.mono (h : Stops body φ P R) (hR : ∀ e, R e → R' e) : Stops body φ P R' := by
  intro s hs
  obtain ⟨n, s', e, hsteps, hn, hbody, he⟩ := h s hs
  exact ⟨n, s', e, hsteps, hn, hbody, hR e he⟩

/-- One step. -/
theorem Leads.step (h : ∀ s, P s → ∃ s', body s = .ok s' ∧ φ s' < φ s ∧ Q s') :
    Leads body φ P Q := by
  intro s hs
  obtain ⟨s', hbody, hlt, hs'⟩ := h s hs
  exact ⟨1, s', .one hbody, by omega, hs'⟩

/-- The end. -/
theorem Stops.now (h : ∀ s, P s → ∃ e, body s = .error e ∧ R e) : Stops body φ P R := by
  intro s hs
  obtain ⟨e, hbody, he⟩ := h s hs
  exact ⟨0, s, e, .refl s, Nat.zero_le _, hbody, he⟩

/-- **A loop that ends does so with one more repetition than the potential it begins with.** -/
theorem Stops.run (h : Stops body φ P R) {s : σ} (hs : P s) {fuel : Nat} (hfuel : φ s < fuel) :
    ∃ e, run body fuel s = some e ∧ R e := by
  obtain ⟨n, s', e, hsteps, hn, hbody, he⟩ := h s hs
  obtain ⟨k, rfl⟩ := Nat.exists_eq_add_of_lt (Nat.lt_of_le_of_lt hn hfuel)
  refine ⟨e, ?_, he⟩
  rw [Nat.add_assoc, hsteps.run_eq, Loop.run, hbody]

end Ssms.Lib.Loop
