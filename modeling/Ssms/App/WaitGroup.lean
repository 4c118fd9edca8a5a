import Ssms.App.Coroutine
import Mathlib.Algebra.Order.Ring.Int
import Mathlib.Logic.Function.Basic

/-!
# The wait group (`SrsWaitGroup`, `srs_app_st.cpp`)

One group and coroutines of any number, `ι`. A coroutine is outside `wait()`, blocked in
`srs_cond_wait`, or woken and not yet run again. Of the ST library: `st_cond_signal` wakes one
blocked waiter, any one, and none if there is none; `st_thread_interrupt` sets a flag and wakes a
waiter that is blocked; `st_cond_wait` takes the flag where it finds it set, before it blocks or
after it was woken, and so does every other call of the library that blocks. The coroutine of each
waiter has a handle, `SrsFastCoroutine`, through which it is interrupted. The destructor calls
`wait()` too, so it is one more waiter. `zeroed` and `returned` are the history of the run: the
count has come down to zero, and the count at each return of `wait()`.

* `no_lost_wakeup`: no waiter is left behind at zero, in runs where at most one is there when the
  count comes down to zero; `done_leaves_waiter` is a run with two.
* `wait_returns_at_zero`: `wait()` returns at zero, in runs where no interrupt meets it before,
  neither one that comes while the waiter is blocked nor one that is pending when it would block;
  `returned_of_disturbed` is what such an interrupt does, and `wait_returns_early` a run with one.
-/

namespace Ssms.App

open Ssms.Lib.Run

/-- Where a coroutine is. -/
inductive Place where
  | outside
  | blocked
  | woken
  deriving DecidableEq

/-- A group, its coroutines with their flags `_ST_FL_INTERRUPT`, and the history. -/
structure WaitGroup (ι : Type) where
  nn : Int
  place : ι → Place
  pending : ι → Bool
  handle : ι → Coroutine
  zeroed : Bool
  returned : List (ι × Int)

namespace WaitGroup

variable {ι : Type} [DecidableEq ι]

/-- The constructor, among coroutines with these handles. -/
def new (handle : ι → Coroutine) : WaitGroup ι :=
  ⟨0, fun _ => .outside, fun _ => false, handle, false, []⟩

def move (s : WaitGroup ι) (i : ι) (p : Place) : WaitGroup ι :=
  { s with place := Function.update s.place i p }

/-- The count becomes `nn`. -/
def count (s : WaitGroup ι) (nn : Int) : WaitGroup ι :=
  { s with nn := nn, zeroed := s.zeroed || decide (0 < s.nn ∧ nn ≤ 0) }

/-- `wait()` returns to `i`. -/
def leave (s : WaitGroup ι) (i : ι) : WaitGroup ι :=
  { s.move i .outside with returned := s.returned ++ [(i, s.nn)] }

/-- `srs_cond_signal(done_)`, which wakes `waiter`. -/
def srsCondSignal (s : WaitGroup ι) (waiter : Option ι) : WaitGroup ι :=
  match waiter with
  | some i => s.move i .woken
  | none => s

/-- `add(n)`. -/
def add (s : WaitGroup ι) (n : Int) : WaitGroup ι := s.count (s.nn + n)

/-- `done()`, where a signal wakes `waiter`. -/
def done (s : WaitGroup ι) (waiter : Option ι) : WaitGroup ι :=
  let s := s.count (s.nn - 1)
  if s.nn ≤ 0 then s.srsCondSignal waiter else s

/-- The flag of `i` is set or cleared. -/
def flag (s : WaitGroup ι) (i : ι) (value : Bool) : WaitGroup ι :=
  { s with pending := Function.update s.pending i value }

/-- `srs_cond_wait(done_)`, up to the block; `EINTR` is a result that `wait()` does not look at. -/
def srsCondWait (s : WaitGroup ι) (i : ι) : WaitGroup ι :=
  if s.pending i then (s.flag i false).leave i else s.move i .blocked

/-- `wait()`, up to the block. -/
def wait (s : WaitGroup ι) (i : ι) : WaitGroup ι :=
  if s.nn > 0 then s.srsCondWait i else s.leave i

/-- `wait()` of a woken `i` goes on: the result of `srs_cond_wait` is not looked at. -/
def resume (s : WaitGroup ι) (i : ι) : WaitGroup ι := (s.flag i false).leave i

/-- Another call of `i` that blocks takes the interrupt. -/
def takeInterrupt (s : WaitGroup ι) (i : ι) : WaitGroup ι := s.flag i false

/-- `st_thread_interrupt` on the thread of `i`. -/
def stThreadInterrupt (s : WaitGroup ι) (i : ι) : WaitGroup ι :=
  let s := s.flag i true
  if s.place i = .blocked then s.move i .woken else s

/-- `interrupt()` on the handle of `i`. -/
def interrupt (s : WaitGroup ι) (i : ι) : WaitGroup ι :=
  let issued := decide (¬ Coroutine.Settled (s.handle i).co)
  let s := { s with handle := Function.update s.handle i (s.handle i).interrupt }
  if issued then s.stThreadInterrupt i else s

end WaitGroup

/-- A step of one of the coroutines. -/
inductive WaitGroup.Action (ι : Type) where
  | add (n : Int)
  | done (waiter : Option ι)
  | wait (i : ι)
  | resume (i : ι)
  | takeInterrupt (i : ι)
  | interrupt (i : ι)

namespace WaitGroup

variable {ι : Type} [DecidableEq ι]

/-- When a step can be made: `nn_` stays an `int`, there are no more calls of `done` than were
added, and a signal wakes a blocked waiter if there is one. -/
def Action.Enabled (s : WaitGroup ι) : Action ι → Prop
  | .add n => -2 ^ 31 ≤ s.nn + n ∧ s.nn + n < 2 ^ 31
  | .interrupt _ => True
  | .done waiter => 0 < s.nn ∧ (∀ i, waiter = some i → s.place i = .blocked) ∧
    (waiter = none → ∀ i, s.place i ≠ .blocked)
  | .wait i | .takeInterrupt i => s.place i = .outside
  | .resume i => s.place i = .woken

def Action.apply (s : WaitGroup ι) : Action ι → WaitGroup ι
  | .add n => s.add n
  | .done waiter => s.done waiter
  | .wait i => s.wait i
  | .resume i => s.resume i
  | .takeInterrupt i => s.takeInterrupt i
  | .interrupt i => s.interrupt i

/-- A step of a run whose steps are all allowed. -/
def Step (Allowed : WaitGroup ι → Action ι → Prop) (s s' : WaitGroup ι) : Prop :=
  ∃ a : Action ι, a.Enabled s ∧ Allowed s a ∧ a.apply s = s'

/-- The states of these runs. -/
abbrev Reachable (Allowed : WaitGroup ι → Action ι → Prop) : WaitGroup ι → Prop :=
  Reached (fun s => ∃ handle, s = new handle) (Step Allowed)

theorem place_move (s : WaitGroup ι) (i j : ι) (p : Place) :
    (s.move i p).place j = if j = i then p else s.place j := by
  simp [move, Function.update_apply]

/-! ## No waiter is left behind -/

/-- At zero, no waiter is blocked without a wake-up. -/
def Released (s : WaitGroup ι) : Prop := s.nn ≤ 0 → ∀ i, s.place i ≠ .blocked

/-- When the count comes down to zero, at most the waiter that the signal wakes is blocked. -/
def OneWaiter (s : WaitGroup ι) : Action ι → Prop
  | .done _ => s.nn - 1 ≤ 0 → ∀ i j, s.place i = .blocked → s.place j = .blocked → i = j
  | .add n => s.nn + n ≤ 0 → ∀ i, s.place i ≠ .blocked
  | _ => True

/-- A signal wakes the only blocked waiter, or one of several. -/
theorem blocked_signal {s : WaitGroup ι} {waiter : Option ι}
    (hsome : ∀ i, waiter = some i → s.place i = .blocked)
    (hnone : waiter = none → ∀ i, s.place i ≠ .blocked) :
    (∀ i, (s.srsCondSignal waiter).place i ≠ .blocked) ↔
      ∀ i j, s.place i = .blocked → s.place j = .blocked → i = j := by
  cases waiter with
  | none => exact ⟨fun _ i _ hi => absurd hi (hnone rfl i), fun _ => hnone rfl⟩
  | some w =>
    have hw := hsome w rfl
    simp only [srsCondSignal, place_move]
    constructor
    · intro h i j hi hj
      have heq : ∀ k, s.place k = .blocked → k = w := fun k hk => by
        by_contra hne
        exact h k (by rw [if_neg hne, hk])
      rw [heq i hi, heq j hj]
    · intro h i
      by_cases hi : i = w
      · simp [hi]
      · rw [if_neg hi]
        exact fun hblocked => hi (h i w hblocked hw)

/-- A coroutine that is not blocked is not left behind. -/
theorem Released.move {s : WaitGroup ι} (h : Released s) {i : ι} {p : Place} (hp : p ≠ .blocked) :
    Released (s.move i p) := by
  intro hzero j
  rw [place_move]
  by_cases hj : j = i
  · rw [if_pos hj]
    exact hp
  · rw [if_neg hj]
    exact h hzero j

theorem Released.flag {s : WaitGroup ι} (h : Released s) (i : ι) (value : Bool) :
    Released (s.flag i value) := h

theorem released_done_iff {s : WaitGroup ι} {waiter : Option ι}
    (ha : (Action.done waiter).Enabled s) :
    Released (s.done waiter) ↔ OneWaiter s (.done waiter) := by
  obtain ⟨-, hsome, hnone⟩ := ha
  by_cases hzero : s.nn - 1 ≤ 0
  · have hdone : s.done waiter = (s.count (s.nn - 1)).srsCondSignal waiter := if_pos hzero
    have hnn : (s.done waiter).nn = s.nn - 1 := by
      rw [hdone]
      cases waiter <;> rfl
    have hiff := blocked_signal (s := s.count (s.nn - 1)) hsome hnone
    rw [← hdone] at hiff
    show ((s.done waiter).nn ≤ 0 → _) ↔ (s.nn - 1 ≤ 0 → _)
    rw [hnn]
    exact ⟨fun hr _ => hiff.mp (hr hzero), fun ho _ => hiff.mpr (ho hzero)⟩
  · have hdone : s.done waiter = s.count (s.nn - 1) := if_neg hzero
    show ((s.done waiter).nn ≤ 0 → _) ↔ (s.nn - 1 ≤ 0 → _)
    rw [hdone]
    exact ⟨fun _ h0 => absurd h0 hzero, fun _ h0 => absurd h0 hzero⟩

/-- **A step leaves no waiter behind exactly when it is allowed.** -/
theorem released_apply_iff {s : WaitGroup ι} (h : Released s) {a : Action ι} (ha : a.Enabled s) :
    Released (a.apply s) ↔ OneWaiter s a := by
  cases a with
  | add n => exact Iff.rfl
  | done waiter => exact released_done_iff ha
  | wait i =>
    refine iff_of_true ?_ trivial
    show Released (s.wait i)
    unfold WaitGroup.wait srsCondWait
    split_ifs with hpos hpending
    · exact (h.flag i false).move (by simp)
    · intro hzero
      have : s.nn ≤ 0 := hzero
      omega
    · exact h.move (by simp)
  | resume i => exact iff_of_true ((h.flag i false).move (by simp)) trivial
  | takeInterrupt i => exact iff_of_true (h.flag i false) trivial
  | interrupt i =>
    refine iff_of_true ?_ trivial
    have hflag := Released.flag
      (s := { s with handle := Function.update s.handle i (s.handle i).interrupt }) h i true
    show Released (s.interrupt i)
    unfold WaitGroup.interrupt stThreadInterrupt
    dsimp only
    split_ifs
    · exact hflag.move (by simp)
    · exact hflag
    · exact h

/-- **No lost wake-up**, in runs where the count comes down to zero with one waiter at most. -/
theorem no_lost_wakeup {s : WaitGroup ι} (h : Reachable OneWaiter s) :
    ¬ (s.nn ≤ 0 ∧ ∃ i, s.place i = .blocked) := by
  have hreleased : Released s := by
    refine h.invariant ?_ ?_
    · rintro s ⟨handle, rfl⟩ _ i
      simp [new]
    · rintro s _ - hs ⟨a, ha, hone, rfl⟩
      exact (released_apply_iff hs ha).mpr hone
  rintro ⟨hzero, i, hi⟩
  exact hreleased hzero i hi

/-- One waiter, and the `done` that wakes it. -/
theorem no_lost_wakeup_one : ∃ s : WaitGroup Unit,
    Reachable OneWaiter s ∧ s.place () = .woken ∧ ¬ (s.nn ≤ 0 ∧ ∃ i, s.place i = .blocked) := by
  have h : Reachable (ι := Unit) OneWaiter _ := .step (.step (.step (.start ⟨fun _ => .new, rfl⟩)
    ⟨.add 1, by simp [Action.Enabled, new], fun _ i => by simp [new], rfl⟩)
    ⟨.wait (), rfl, trivial, rfl⟩)
    ⟨.done (some ()), ⟨by decide, fun _ _ => rfl, by simp⟩, fun _ _ _ _ _ => rfl, rfl⟩
  exact ⟨_, h, rfl, no_lost_wakeup h⟩

/-- Two waiters, and the `done` that wakes one of them. -/
theorem done_leaves_waiter : ∃ s : WaitGroup Bool,
    Reachable (fun _ _ => True) s ∧ s.nn ≤ 0 ∧ s.place true = .blocked := by
  have h : Reachable (ι := Bool) (fun _ _ => True) _ :=
    .step (.step (.step (.step (.start ⟨fun _ => .new, rfl⟩)
      ⟨.add 1, by simp [Action.Enabled, new], trivial, rfl⟩) ⟨.wait false, rfl, trivial, rfl⟩)
      ⟨.wait true, rfl, trivial, rfl⟩)
      ⟨.done (some false), ⟨by decide, fun i hi => by cases hi; rfl, by simp⟩, trivial, rfl⟩
  exact ⟨_, h, by decide, rfl⟩

/-! ## `wait()` returns at zero -/

/-- No `add` once the count has come down to zero. -/
def NoLateAdd (s : WaitGroup ι) : Action ι → Prop
  | .add _ => s.zeroed = false
  | _ => True

/-- While the count is above zero, no interrupt takes effect on a coroutine that is blocked in
`wait()`, and none is pending for one that calls it. -/
def Undisturbed (s : WaitGroup ι) : Action ι → Prop
  | .interrupt i => 0 < s.nn → s.place i = .blocked → Coroutine.Settled (s.handle i).co
  | .wait i => 0 < s.nn → s.pending i = false
  | _ => True

/-- **A step that disturbs a wait lets it return early**, at once or when the waiter runs again. -/
theorem returned_of_disturbed {s : WaitGroup ι} {a : Action ι} (h : ¬ Undisturbed s a) :
    0 < s.nn ∧ ∃ i, (i, s.nn) ∈ (a.apply s).returned ∨
      (Action.resume i).Enabled (a.apply s) ∧ (i, s.nn) ∈ ((a.apply s).resume i).returned := by
  cases a with
  | wait i =>
    simp only [Undisturbed, Classical.not_imp, Bool.not_eq_false] at h
    obtain ⟨hpos, hpending⟩ := h
    have hwait : s.wait i = (s.flag i false).leave i := by
      rw [WaitGroup.wait, if_pos hpos, srsCondWait, if_pos hpending]
    refine ⟨hpos, i, Or.inl ?_⟩
    show (i, s.nn) ∈ (s.wait i).returned
    rw [hwait]
    exact List.mem_append_right _ (List.mem_singleton.mpr rfl)
  | interrupt i =>
    simp only [Undisturbed, Classical.not_imp] at h
    obtain ⟨hpos, hblocked, hsettled⟩ := h
    let s' : WaitGroup ι := { s with handle := Function.update s.handle i (s.handle i).interrupt }
    have hinterrupt : s.interrupt i = (s'.flag i true).move i .woken := by
      rw [WaitGroup.interrupt, if_pos (decide_eq_true hsettled), stThreadInterrupt]
      exact if_pos hblocked
    refine ⟨hpos, i, Or.inr ⟨?_, List.mem_append_right _ (List.mem_singleton.mpr ?_)⟩⟩
    · show (s.interrupt i).place i = .woken
      rw [hinterrupt, place_move, if_pos rfl]
    · show (i, s.nn) = (i, (s.interrupt i).nn)
      rw [hinterrupt]
      rfl
  | _ => exact absurd trivial h

/-- Once the count has come down to zero it stays there; a waiter is woken only then, and blocked
only before. -/
structure AtZero (s : WaitGroup ι) : Prop where
  zeroed : s.zeroed = true → s.nn ≤ 0
  woken : ∀ i, s.place i = .woken → s.zeroed = true
  blocked : ∀ i, s.place i = .blocked → 0 < s.nn ∨ s.zeroed = true
  returned : ∀ e ∈ s.returned, e.2 ≤ 0

omit [DecidableEq ι] in
theorem AtZero.count {s : WaitGroup ι} (h : AtZero s) (hzeroed : s.zeroed = false) (nn : Int) :
    AtZero (s.count nn) where
  zeroed hz := by
    have : 0 < s.nn ∧ nn ≤ 0 := by simpa [WaitGroup.count, hzeroed] using hz
    exact this.2
  woken i hi := by simp [h.woken i hi] at hzeroed
  blocked i hi := by
    have hpos : 0 < s.nn := by simpa [hzeroed] using h.blocked i hi
    by_cases hnn : 0 < nn
    · exact Or.inl hnn
    · exact Or.inr (by simp [WaitGroup.count, hpos, Int.not_lt.mp hnn])
  returned := h.returned

theorem AtZero.move {s : WaitGroup ι} (h : AtZero s) {i : ι} {p : Place}
    (hp : p = .woken → s.zeroed = true) (hpos : p = .blocked → 0 < s.nn) :
    AtZero (s.move i p) where
  zeroed := h.zeroed
  woken j hj := by
    rw [place_move] at hj
    by_cases hji : j = i
    · rw [if_pos hji] at hj
      exact hp hj
    · rw [if_neg hji] at hj
      exact h.woken j hj
  blocked j hj := by
    rw [place_move] at hj
    by_cases hji : j = i
    · rw [if_pos hji] at hj
      exact Or.inl (hpos hj)
    · rw [if_neg hji] at hj
      exact h.blocked j hj
  returned := h.returned

theorem AtZero.leave {s : WaitGroup ι} (h : AtZero s) (hzero : s.nn ≤ 0) (i : ι) :
    AtZero (s.leave i) := by
  have hmove : AtZero (s.move i .outside) := h.move (by simp) (by simp)
  refine ⟨hmove.zeroed, hmove.woken, hmove.blocked, fun e he => ?_⟩
  rcases List.mem_append.mp he with he | he
  · exact h.returned e he
  · rw [List.mem_singleton.mp he]
    exact hzero

theorem AtZero.flag {s : WaitGroup ι} (h : AtZero s) (i : ι) (value : Bool) :
    AtZero (s.flag i value) := { h with }

/-- The count has not come down to zero before a `done`. -/
theorem AtZero.done {s : WaitGroup ι} (h : AtZero s) {waiter : Option ι}
    (ha : (Action.done waiter).Enabled s) : AtZero (s.done waiter) := by
  have hzeroed : s.zeroed = false := by
    by_contra hz
    have := h.zeroed (by simpa using hz)
    have := ha.1
    omega
  have hcount := h.count hzeroed (s.nn - 1)
  unfold WaitGroup.done
  dsimp only
  split_ifs with hzero
  · have hz : (s.count (s.nn - 1)).zeroed = true := by
      have : 0 < s.nn ∧ s.nn - 1 ≤ 0 := ⟨ha.1, hzero⟩
      simp [WaitGroup.count, this]
    cases waiter with
    | none => exact hcount
    | some i => exact hcount.move (fun _ => hz) (by simp)
  · exact hcount

theorem AtZero.apply {s : WaitGroup ι} (h : AtZero s) {a : Action ι} (ha : a.Enabled s)
    (hadd : NoLateAdd s a) (hquiet : Undisturbed s a) : AtZero (a.apply s) := by
  cases a with
  | add n => exact h.count hadd _
  | done waiter => exact h.done ha
  | wait i =>
    show AtZero (s.wait i)
    unfold WaitGroup.wait srsCondWait
    split_ifs with hpos hpending
    · have hnone : s.pending i = false := hquiet hpos
      simp [hnone] at hpending
    · exact h.move (by simp) fun _ => hpos
    · exact h.leave (by omega) i
  | resume i => exact (h.flag i false).leave (h.zeroed (h.woken i ha)) i
  | takeInterrupt i => exact h.flag i false
  | interrupt i =>
    have hhandle : AtZero { s with handle := Function.update s.handle i (s.handle i).interrupt } :=
      { h with }
    show AtZero (s.interrupt i)
    unfold WaitGroup.interrupt stThreadInterrupt
    dsimp only
    split_ifs with hissued hblocked
    · have hzero : ¬ 0 < s.nn := fun hpos => of_decide_eq_true hissued (hquiet hpos hblocked)
      have hzeroed := (h.blocked i hblocked).resolve_left hzero
      exact (hhandle.flag i true).move (fun _ => hzeroed) (by simp)
    · exact hhandle.flag i true
    · exact hhandle

/-- **`wait()` returns only at zero**, in runs where no interrupt meets it. -/
theorem wait_returns_at_zero {s : WaitGroup ι}
    (h : Reachable (fun s a => NoLateAdd s a ∧ Undisturbed s a) s) : ∀ e ∈ s.returned, e.2 ≤ 0 := by
  have hzero : AtZero s := by
    refine h.invariant ?_ ?_
    · rintro s ⟨handle, rfl⟩
      constructor <;> simp [new]
    · rintro s _ - hs ⟨a, ha, ⟨hadd, hquiet⟩, rfl⟩
      exact hs.apply ha hadd hquiet
  exact hzero.returned

/-- One waiter, and the `done` that ends its wait. -/
theorem wait_returns_at_zero_one : ∃ s : WaitGroup Unit,
    Reachable (fun s a => NoLateAdd s a ∧ Undisturbed s a) s ∧ s.returned = [((), 0)] ∧
      ∀ e ∈ s.returned, e.2 ≤ 0 := by
  have h : Reachable (ι := Unit) (fun s a => NoLateAdd s a ∧ Undisturbed s a) _ :=
    .step (.step (.step (.step (.start ⟨fun _ => .new, rfl⟩)
      ⟨.add 1, by simp [Action.Enabled, new], ⟨rfl, trivial⟩, rfl⟩)
      ⟨.wait (), rfl, ⟨trivial, fun _ => rfl⟩, rfl⟩)
      ⟨.done (some ()), ⟨by decide, fun _ _ => rfl, by simp⟩, ⟨trivial, trivial⟩, rfl⟩)
      ⟨.resume (), rfl, ⟨trivial, trivial⟩, rfl⟩
  exact ⟨_, h, rfl, wait_returns_at_zero h⟩

/-- A started coroutine waits, with one more to be done, and is interrupted: `wait()` returns. -/
theorem wait_returns_early : ∃ s : WaitGroup Unit,
    Reachable NoLateAdd s ∧ s.returned = [((), 1)] := by
  have h : Reachable (ι := Unit) NoLateAdd _ :=
    .step (.step (.step (.step (.start ⟨fun _ => (Coroutine.new.start true).2, rfl⟩)
      ⟨.add 1, by simp [Action.Enabled, new], rfl, rfl⟩) ⟨.wait (), rfl, trivial, rfl⟩)
      ⟨.interrupt (), trivial, trivial, rfl⟩) ⟨.resume (), rfl, trivial, rfl⟩
  exact ⟨_, h, rfl⟩

/-- It is interrupted before it waits. -/
example : ∃ s : WaitGroup Unit, Reachable NoLateAdd s ∧ s.returned = [((), 1)] := by
  have h : Reachable (ι := Unit) NoLateAdd _ :=
    .step (.step (.step (.start ⟨fun _ => (Coroutine.new.start true).2, rfl⟩)
      ⟨.add 1, by simp [Action.Enabled, new], rfl, rfl⟩) ⟨.interrupt (), trivial, trivial, rfl⟩)
      ⟨.wait (), rfl, trivial, rfl⟩
  exact ⟨_, h, rfl⟩

end WaitGroup

end Ssms.App
