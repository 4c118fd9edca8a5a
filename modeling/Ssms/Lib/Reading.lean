import Mathlib.Logic.Basic

/-!
# Readers and the relations they implement

A reader is a stateful computation `EStateM ε σ α` that consumes input held in its state. Its
specification is a relation `R i a o`: on unread input `i` it may return `a` and leave `o` unread.
`Implements S m R s` says that, run from state `s`, the reader `m` decides `R`:
* when it returns `a`, then `a` and the input it leaves are the one answer of `R`;
* when it fails, `R` has no answer, and the failure is one `S.Ok` allows;
* in both cases the state moved along the preorder `S.Adv`.

The rules follow the shape of a reader: `pure`, `bind`, `throw`, and `congr`, which replaces the
relation by an equivalent one on the input at hand. All of them are pointwise in the state, so a
recursion whose specification holds only on small enough inputs goes through `bind` unchanged.

`Agree m m' s` compares two readers run from one state. Where both implement a relation, they agree
exactly if the relations do (`Implements.agree_iff`).
-/

namespace Ssms.Lib.Reading

/-- What a reader is specified by: input, value, unread rest. -/
abbrev ReadRel (ι α : Type) := ι → α → ι → Prop

/-- The vocabulary of a family of readers over states `σ`. -/
structure Setting (ε σ ι : Type) where
  /-- The unread input of a state. -/
  view : σ → ι
  /-- How a reader may move the state. -/
  Adv : σ → σ → Prop
  /-- The failures a reader may report. -/
  Ok : ε → Prop
  refl : ∀ s, Adv s s
  trans : ∀ {s t u}, Adv s t → Adv t u → Adv s u

variable {ε σ ι α β : Type} {S : Setting ε σ ι}

/-- Run from `s`, the reader `m` decides `R`. -/
def Implements (S : Setting ε σ ι) (m : EStateM ε σ α) (R : ReadRel ι α) (s : σ) : Prop :=
  match m s with
  | .ok a s' => S.Adv s s' ∧ ∀ a' o, R (S.view s) a' o ↔ a' = a ∧ o = S.view s'
  | .error e s' => S.Ok e ∧ S.Adv s s' ∧ ∀ a o, ¬ R (S.view s) a o

theorem bind_apply (m : EStateM ε σ α) (f : α → EStateM ε σ β) (s : σ) :
    (m >>= f) s = match m s with
      | .ok a s' => f a s'
      | .error e s' => .error e s' := rfl

/-- A sequence whose first part succeeds. -/
theorem bind_ok {m : EStateM ε σ α} {f : α → EStateM ε σ β} {s s' : σ} {a : α}
    (h : m s = .ok a s') : (m >>= f) s = f a s' := by
  rw [bind_apply, h]

/-- A sequence whose first part fails. -/
theorem bind_error {m : EStateM ε σ α} {f : α → EStateM ε σ β} {s s' : σ} {e : ε}
    (h : m s = .error e s') : (m >>= f) s = .error e s' := by
  rw [bind_apply, h]

theorem map_ok {m : EStateM ε σ α} {f : α → β} {s s' : σ} {a : α} {b : β} (h : m s = .ok a s')
    (hb : f a = b) : (f <$> m) s = .ok b s' := by
  have hrun : (f <$> m) s = (m >>= fun a => pure (f a)) s := rfl
  rw [hrun, bind_ok h, hb]
  rfl

/-- A sequence depends on its second part only where the first one succeeds. -/
theorem bind_congr_apply {m m' : EStateM ε σ α} {f f' : α → EStateM ε σ β} {s : σ} (hm : m s = m' s)
    (hf : ∀ a s', m s = .ok a s' → f a s' = f' a s') : (m >>= f) s = (m' >>= f') s := by
  rw [bind_apply, bind_apply, ← hm]
  cases hrun : m s with
  | ok a s' => exact hf a s' hrun
  | error e s' => rfl

namespace Implements

theorem of_ok {m : EStateM ε σ α} {R : ReadRel ι α} {s s' : σ} {a : α} (hm : m s = .ok a s')
    (hadv : S.Adv s s') (hR : ∀ a' o, R (S.view s) a' o ↔ a' = a ∧ o = S.view s') :
    Implements S m R s := by
  unfold Implements
  rw [hm]
  exact ⟨hadv, hR⟩

theorem of_error {m : EStateM ε σ α} {R : ReadRel ι α} {s s' : σ} {e : ε} (hm : m s = .error e s')
    (he : S.Ok e) (hadv : S.Adv s s') (hR : ∀ a o, ¬ R (S.view s) a o) : Implements S m R s := by
  unfold Implements
  rw [hm]
  exact ⟨he, hadv, hR⟩

theorem ok_inv {m : EStateM ε σ α} {R : ReadRel ι α} {s s' : σ} {a : α} (h : Implements S m R s)
    (hm : m s = .ok a s') :
    S.Adv s s' ∧ ∀ a' o, R (S.view s) a' o ↔ a' = a ∧ o = S.view s' := by
  unfold Implements at h
  rwa [hm] at h

theorem error_inv {m : EStateM ε σ α} {R : ReadRel ι α} {s s' : σ} {e : ε} (h : Implements S m R s)
    (hm : m s = .error e s') : S.Ok e ∧ S.Adv s s' ∧ ∀ a o, ¬ R (S.view s) a o := by
  unfold Implements at h
  rwa [hm] at h

/-- **Soundness**: what the reader returns is an answer of the relation. -/
theorem sound {m : EStateM ε σ α} {R : ReadRel ι α} {s s' : σ} {a : α} (h : Implements S m R s)
    (hm : m s = .ok a s') : R (S.view s) a (S.view s') :=
  ((h.ok_inv hm).2 a _).mpr ⟨rfl, rfl⟩

/-- **Completeness**: an answer of the relation is what the reader returns. -/
theorem complete {m : EStateM ε σ α} {R : ReadRel ι α} {s : σ} {a : α} {o : ι}
    (h : Implements S m R s) (hR : R (S.view s) a o) :
    ∃ s', m s = .ok a s' ∧ S.Adv s s' ∧ S.view s' = o := by
  cases hm : m s with
  | ok a' s' =>
    obtain ⟨hadv, huniq⟩ := h.ok_inv hm
    obtain ⟨rfl, rfl⟩ := (huniq a o).mp hR
    exact ⟨s', rfl, hadv, rfl⟩
  | error e s' => exact absurd hR ((h.error_inv hm).2.2 a o)

theorem pure (a : α) (s : σ) :
    Implements S (pure a : EStateM ε σ α) (fun i a' o => a' = a ∧ o = i) s :=
  of_ok rfl (S.refl s) fun _ _ => Iff.rfl

theorem throw {e : ε} (he : S.Ok e) (s : σ) :
    Implements S (throw e : EStateM ε σ α) (fun _ _ _ => False) s :=
  of_error rfl he (S.refl s) fun _ _ h => h

/-- Two readers in sequence implement the composition of their relations. -/
theorem bind {m : EStateM ε σ α} {f : α → EStateM ε σ β} {R : ReadRel ι α}
    {Q : α → ReadRel ι β} {s : σ}
    (hm : Implements S m R s)
    (hf : ∀ a s', m s = .ok a s' → S.Adv s s' → Implements S (f a) (Q a) s') :
    Implements S (m >>= f) (fun i b o => ∃ a i', R i a i' ∧ Q a i' b o) s := by
  cases hrun : m s with
  | error e s' =>
    obtain ⟨he, hadv, hR⟩ := hm.error_inv hrun
    refine of_error (bind_error hrun) he hadv ?_
    rintro b o ⟨a, i', h, -⟩
    exact hR a i' h
  | ok a s' =>
    obtain ⟨hadv, hR⟩ := hm.ok_inv hrun
    have hcomp : ∀ b o, (∃ a' i', R (S.view s) a' i' ∧ Q a' i' b o) ↔ Q a (S.view s') b o := by
      refine fun b o => ⟨?_, fun h => ⟨a, _, (hR a _).mpr ⟨rfl, rfl⟩, h⟩⟩
      rintro ⟨a', i', h, hQ⟩
      obtain ⟨rfl, rfl⟩ := (hR a' i').mp h
      exact hQ
    have h := hf a s' hrun hadv
    cases hrun' : f a s' with
    | ok b s'' =>
      obtain ⟨hadv', hQ⟩ := h.ok_inv hrun'
      exact of_ok (by rw [bind_ok hrun, hrun']) (S.trans hadv hadv')
        fun b o => (hcomp b o).trans (hQ b o)
    | error e s'' =>
      obtain ⟨he, hadv', hQ⟩ := h.error_inv hrun'
      exact of_error (by rw [bind_ok hrun, hrun']) he (S.trans hadv hadv')
        fun b o hc => hQ b o ((hcomp b o).mp hc)

/-- Only what the relation says of the input at hand matters. -/
theorem congr {m : EStateM ε σ α} {R R' : ReadRel ι α} {s : σ} (h : Implements S m R s)
    (hR : ∀ a o, R (S.view s) a o ↔ R' (S.view s) a o) : Implements S m R' s := by
  cases hm : m s with
  | ok a s' =>
    obtain ⟨hadv, hu⟩ := h.ok_inv hm
    exact of_ok hm hadv fun a' o => (hR a' o).symm.trans (hu a' o)
  | error e s' =>
    obtain ⟨he, hadv, hn⟩ := h.error_inv hm
    exact of_error hm he hadv fun a o hc => hn a o ((hR a o).mpr hc)

/-- Applying a function to the value read. -/
theorem map {m : EStateM ε σ α} {R : ReadRel ι α} {s : σ} (f : α → β) (h : Implements S m R s) :
    Implements S (f <$> m) (fun i b o => ∃ a, R i a o ∧ b = f a) s :=
  (h.bind fun a s' _ _ => pure (f a) s').congr fun b o => by
    constructor
    · rintro ⟨a, i', h, rfl, rfl⟩
      exact ⟨a, h, rfl⟩
    · rintro ⟨a, h, rfl⟩
      exact ⟨a, o, h, rfl, rfl⟩

/-- Readers that agree on a state implement the same relation there. -/
theorem of_eq {m m' : EStateM ε σ α} {R : ReadRel ι α} {s : σ} (h : Implements S m R s)
    (hmm : m' s = m s) : Implements S m' R s := by
  unfold Implements at h ⊢
  rwa [hmm]

end Implements

/-! ## Two runs -/

/-- Run from `s`, the readers both fail, or they return the same and stop in the same state. -/
def Agree (m m' : EStateM ε σ α) (s : σ) : Prop :=
  match m s, m' s with
  | .ok a t, .ok a' t' => a = a' ∧ t = t'
  | .error _ _, .error _ _ => True
  | _, _ => False

/-- **Readers agree exactly where their relations do**, if the view tells the states apart that a
reader moves to. -/
theorem Implements.agree_iff {m m' : EStateM ε σ α} {R R' : ReadRel ι α} {s : σ}
    (hview : ∀ t t', S.Adv s t → S.Adv s t' → S.view t = S.view t' → t = t')
    (h : Implements S m R s) (h' : Implements S m' R' s) :
    Agree m m' s ↔ ∀ a o, R (S.view s) a o ↔ R' (S.view s) a o := by
  unfold Agree
  cases hm : m s with
  | ok a t =>
    obtain ⟨hadv, hR⟩ := h.ok_inv hm
    cases hm' : m' s with
    | ok a' t' =>
      obtain ⟨hadv', hR'⟩ := h'.ok_inv hm'
      constructor
      · rintro ⟨rfl, rfl⟩ a' o
        rw [hR, hR']
      · intro hsame
        obtain ⟨rfl, hv⟩ := (hR' a _).mp ((hsame a _).mp ((hR a _).mpr ⟨rfl, rfl⟩))
        exact ⟨rfl, hview t t' hadv hadv' hv⟩
    | error e' t' =>
      refine iff_of_false id fun hsame => ?_
      exact (h'.error_inv hm').2.2 a _ ((hsame a _).mp ((hR a _).mpr ⟨rfl, rfl⟩))
  | error e t =>
    have hR := (h.error_inv hm).2.2
    cases hm' : m' s with
    | ok a' t' =>
      refine iff_of_false id fun hsame => ?_
      exact hR a' _ ((hsame a' _).mpr (((h'.ok_inv hm').2 a' _).mpr ⟨rfl, rfl⟩))
    | error e' t' =>
      have hR' := (h'.error_inv hm').2.2
      exact iff_of_true trivial fun a o => iff_of_false (hR a o) (hR' a o)

theorem agree_map_iff {m m' : EStateM ε σ α} {s : σ} {f : α → β}
    (hf : ∀ a a', f a = f a' → a = a') :
    Agree (f <$> m) (f <$> m') s ↔ Agree m m' s := by
  have hrun : ∀ n : EStateM ε σ α, (f <$> n) s = match n s with
      | .ok a t => .ok (f a) t
      | .error e t => .error e t := fun n => rfl
  unfold Agree
  rw [hrun m, hrun m']
  cases m s with
  | ok a t =>
    cases m' s with
    | ok a' t' => exact and_congr_left' ⟨hf a a', congrArg f⟩
    | error e' t' => exact Iff.rfl
  | error e t => cases m' s <;> exact Iff.rfl

end Ssms.Lib.Reading
