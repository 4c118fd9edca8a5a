import Ssms.Lib.Run
import Mathlib.Data.List.Basic
import Mathlib.Logic.Function.Basic
import Mathlib.Tactic.SplitIfs

/-!
# The id of a coroutine (`SrsThreadContext`, `srs_service_log.cpp`)

`SrsThreadContext` keeps one id for each thread handle, in a map that is never cleaned.
`SrsFastCoroutine::cycle` writes the entry of its thread before it calls the handler. What runs
between two yields is one step, and neither `cycle` up to that call nor `get_id` and `set_id` yield.
`_srs_context` is the `SrsThreadContext`, which is there before the first coroutine.

The threads that are not a coroutine's (the one of `main`, those of the libraries) may call `get_id`
and `set_id` at any time. What is assumed of the handles is in `Action.Enabled`: a new one is not
that of a coroutine that is still live. That of a finished coroutine may come back. The counters of
the calls (`_srs_pps_cids_get`, `_srs_pps_cids_set`) are left out, and the `log` is the history of
the run and no part of the program.

* `getId_of_cycling`: in every run, what `get_id` returns inside of a handler is the argument of the
  last `set_id` of that coroutine, or else its `cid_`, and was written by that coroutine.
-/

namespace Ssms.App

open Ssms.Lib.Run

/-- `_SrsContextId`. -/
structure SrsContextId where
  v : String
deriving DecidableEq

namespace SrsContextId

/-- The constructor. -/
def new : SrsContextId := ⟨""⟩

/-- `empty()`. -/
def empty (id : SrsContextId) : Bool := id.v.isEmpty

end SrsContextId

/-! ## `SrsThreadContext` -/

/-- The ids, by thread. -/
structure SrsThreadContext (θ : Type) where
  cache : θ → Option SrsContextId

namespace SrsThreadContext

variable {θ : Type} [DecidableEq θ]

/-- The constructor. -/
def new : SrsThreadContext θ := ⟨fun _ => none⟩

/-- `generate_id()`. -/
def generateId (_ : SrsThreadContext θ) : SrsContextId := .new

/-- `get_id()` of the thread `self`. The `[]` of a map makes an entry where there is none. -/
def getId (self : θ) (context : SrsThreadContext θ) : SrsContextId × SrsThreadContext θ :=
  match context.cache self with
  | some v => (v, context)
  | none => (.new, ⟨Function.update context.cache self (some .new)⟩)

/-- `set_id(v)` of the thread `self`. It returns a reference to the entry, which is `v` by then. -/
def setId (self : θ) (v : SrsContextId) (context : SrsThreadContext θ) :
    SrsContextId × SrsThreadContext θ :=
  if (context.cache self).isNone then (v, ⟨Function.update context.cache self (some v)⟩)
  else
    let cache := Function.update context.cache self (some v)
    ((cache self).getD .new, ⟨cache⟩)

/-- `SrsFastCoroutine::cycle()` of the thread `self`, up to the call of the handler: its `cid_` and
the ids after it. -/
def cycle (self : θ) (cid : SrsContextId) (context : SrsThreadContext θ) :
    SrsContextId × SrsThreadContext θ :=
  let cid := if cid.empty then context.generateId else cid
  (cid, (context.setId self cid).2)

theorem getId_fst (self : θ) (context : SrsThreadContext θ) :
    (context.getId self).1 = (context.cache self).getD .new := by
  unfold getId
  cases context.cache self <;> rfl

theorem setId_snd (self : θ) (v : SrsContextId) (context : SrsThreadContext θ) :
    (context.setId self v).2 = ⟨Function.update context.cache self (some v)⟩ := by
  unfold setId
  split_ifs <;> rfl

/-- What is set is what is got, by that thread alone. -/
theorem getId_setId (self self' : θ) (v : SrsContextId) (context : SrsThreadContext θ) :
    ((context.setId self v).2.getId self').1 =
      if self' = self then v else (context.getId self').1 := by
  rw [setId_snd, getId_fst, getId_fst]
  by_cases h : self' = self
  · subst h
    simp
  · simp [h]

/-- A `get_id` changes no id. -/
theorem getId_getId (self self' : θ) (context : SrsThreadContext θ) :
    ((context.getId self).2.getId self').1 = (context.getId self').1 := by
  rw [getId_fst, getId_fst]
  unfold getId
  cases hself : context.cache self with
  | some v => rfl
  | none =>
    by_cases h : self' = self
    · subst h
      simp [hself]
    · simp [h]

end SrsThreadContext

/-! ## Runs -/

/-- Where a coroutine is. Its thread is live when it has one. -/
inductive Worker (θ : Type) where
  | idle
  | created (self : θ)
  | cycling (self : θ)
  | finished

namespace Worker

/-- `srs_thread_self()`. -/
def self? {θ : Type} : Worker θ → Option θ
  | created self | cycling self => some self
  | idle | finished => none

/-- `cycle()` has been called. -/
def entered {θ : Type} : Worker θ → Bool
  | cycling _ | finished => true
  | idle | created _ => false

end Worker

/-- A write of the entry of a thread: by `cycle` before the handler, by the handler, and by a thread
that is not a coroutine's. -/
inductive Write (ι θ : Type) where
  | cycle (i : ι) (self : θ) (cid : SrsContextId)
  | setId (i : ι) (self : θ) (v : SrsContextId)
  | foreign (self : θ) (v : SrsContextId)

namespace Write

variable {ι θ : Type}

/-- The entry. -/
def self : Write ι θ → θ
  | cycle _ self _ | setId _ self _ | foreign self _ => self

/-- What is written. -/
def id : Write ι θ → SrsContextId
  | cycle _ _ id | setId _ _ id | foreign _ id => id

/-- The coroutine that writes. -/
def coroutine : Write ι θ → Option ι
  | cycle i _ _ | setId i _ _ => some i
  | foreign _ _ => none

/-- The argument of a `set_id` that the handler of `i` calls. -/
def setIdOf [DecidableEq ι] (i : ι) : Write ι θ → Option SrsContextId
  | setId j _ v => if j = i then some v else none
  | cycle _ _ _ | foreign _ _ => none

end Write

/-- The ids, the `cid_` and the place of each coroutine, and what was written. -/
structure Threads (ι θ : Type) where
  context : SrsThreadContext θ
  cid : ι → SrsContextId
  worker : ι → Worker θ
  log : List (Write ι θ)

namespace Threads

variable {ι θ : Type}

/-- The coroutines, each constructed with a `cid_`. -/
def new [DecidableEq θ] (cid : ι → SrsContextId) : Threads ι θ := ⟨.new, cid, fun _ => .idle, []⟩

/-- No live coroutine has the handle. -/
def Free (s : Threads ι θ) (self : θ) : Prop := ∀ i, (s.worker i).self? ≠ some self

/-- The last write of an entry. -/
def lastOn [DecidableEq θ] (self : θ) (log : List (Write ι θ)) : Option (Write ι θ) :=
  (log.filter fun w => w.self = self).getLast?

/-- The arguments of the `set_id` that the handler of `i` has called, in order. -/
def setIds [DecidableEq ι] (i : ι) (log : List (Write ι θ)) : List SrsContextId :=
  log.filterMap (Write.setIdOf i)

end Threads

/-- A step: a thread is created, `cycle()` calls the handler, the handler makes a call, the thread
ends, and a thread that is not a coroutine's makes a call. -/
inductive Turn (ι θ : Type) where
  | create (i : ι) (self : θ)
  | cycle (i : ι) (self : θ)
  | getId (i : ι) (self : θ)
  | setId (i : ι) (self : θ) (v : SrsContextId)
  | finish (i : ι)
  | foreignGetId (self : θ)
  | foreignSetId (self : θ) (v : SrsContextId)

namespace Turn

variable {ι θ : Type}

/-- When a step can be made: every live coroutine has a handle of its own. -/
def Enabled (s : Threads ι θ) : Turn ι θ → Prop
  | create i self => s.worker i = .idle ∧ s.Free self
  | cycle i self => s.worker i = .created self
  | getId i self | setId i self _ => s.worker i = .cycling self
  | finish i => (s.worker i).self?.isSome = true
  | foreignGetId self | foreignSetId self _ => s.Free self

variable [DecidableEq ι] [DecidableEq θ]

def apply (s : Threads ι θ) : Turn ι θ → Threads ι θ
  | create i self => { s with worker := Function.update s.worker i (.created self) }
  | cycle i self =>
    let (cid, context) := s.context.cycle self (s.cid i)
    { context := context
      cid := Function.update s.cid i cid
      worker := Function.update s.worker i (.cycling self)
      log := s.log ++ [.cycle i self cid] }
  | getId _ self | foreignGetId self => { s with context := (s.context.getId self).2 }
  | setId i self v =>
    { s with context := (s.context.setId self v).2, log := s.log ++ [.setId i self v] }
  | finish i => { s with worker := Function.update s.worker i .finished }
  | foreignSetId self v =>
    { s with context := (s.context.setId self v).2, log := s.log ++ [.foreign self v] }

end Turn

namespace Threads

variable {ι θ : Type}

/-! ## The history -/

theorem lastOn_concat [DecidableEq θ] (self : θ) (log : List (Write ι θ)) (w : Write ι θ) :
    lastOn self (log ++ [w]) = if w.self = self then some w else lastOn self log := by
  unfold lastOn
  by_cases h : w.self = self <;> simp [List.filter_append, h]

theorem setIds_concat [DecidableEq ι] (i : ι) (log : List (Write ι θ)) (w : Write ι θ) :
    setIds i (log ++ [w]) = setIds i log ++ (w.setIdOf i).toList := by
  unfold setIds
  cases h : w.setIdOf i <;> simp [h]

/-- A write of another coroutine is no `set_id` of this one. -/
theorem setIds_concat_other [DecidableEq ι] {i : ι} {w : Write ι θ} (log : List (Write ι θ))
    (h : w.coroutine ≠ some i) : setIds i (log ++ [w]) = setIds i log := by
  rw [setIds_concat]
  cases w with
  | setId j self v =>
    have hne : j ≠ i := fun heq => h (congrArg some heq)
    simp [Write.setIdOf, hne]
  | cycle j self cid => simp [Write.setIdOf]
  | foreign self v => simp [Write.setIdOf]

/-- The last write of the entry `self` is `i`'s, of the id `id`. -/
def Wrote [DecidableEq θ] (log : List (Write ι θ)) (i : ι) (self : θ) (id : SrsContextId) : Prop :=
  ∃ w, lastOn self log = some w ∧ w.coroutine = some i ∧ w.id = id

/-- The entries after one more write. -/
theorem entry_concat [DecidableEq θ] {context : SrsThreadContext θ} {log : List (Write ι θ)}
    (h : ∀ self, (context.getId self).1 = (lastOn self log).elim .new Write.id) (w : Write ι θ)
    (self : θ) :
    ((context.setId w.self w.id).2.getId self).1 =
      (lastOn self (log ++ [w])).elim .new Write.id := by
  rw [SrsThreadContext.getId_setId, lastOn_concat, h]
  by_cases hself : self = w.self
  · rw [if_pos hself, if_pos hself.symm]
    rfl
  · rw [if_neg hself, if_neg (Ne.symm hself)]

/-- A write of another entry is not the last one of this entry. -/
theorem Wrote.concat [DecidableEq θ] {log : List (Write ι θ)} {i : ι} {self : θ} {id : SrsContextId}
    (h : Wrote log i self id) {w : Write ι θ} (hne : w.self ≠ self) :
    Wrote (log ++ [w]) i self id := by
  obtain ⟨last, hlast, hi, hid⟩ := h
  exact ⟨last, by rw [lastOn_concat, if_neg hne, hlast], hi, hid⟩

/-- A coroutine that has just written its entry. -/
theorem Wrote.last [DecidableEq θ] (log : List (Write ι θ)) {i : ι} {w : Write ι θ}
    (hi : w.coroutine = some i) : Wrote (log ++ [w]) i w.self w.id :=
  ⟨w, by rw [lastOn_concat, if_pos rfl], hi, rfl⟩

/-! ## The invariant -/

variable [DecidableEq ι] [DecidableEq θ]

/-- A step of a run. -/
def Step (s s' : Threads ι θ) : Prop := ∃ t : Turn ι θ, t.Enabled s ∧ t.apply s = s'

/-- The states of all runs. -/
abbrev Reachable : Threads ι θ → Prop := Reached (∃ cid, · = .new cid) Step

/-- The id that a coroutine has given itself. -/
def ownId (s : Threads ι θ) (i : ι) : SrsContextId := (setIds i s.log).getLast?.getD (s.cid i)

structure Inv (s : Threads ι θ) : Prop where
  distinct : ∀ i j self, (s.worker i).self? = some self → (s.worker j).self? = some self → i = j
  /-- An entry is what was written there last. -/
  entry : ∀ self, (s.context.getId self).1 = (lastOn self s.log).elim .new Write.id
  unset : ∀ i, (s.worker i).entered = false → setIds i s.log = []
  own : ∀ i self, s.worker i = .cycling self → Wrote s.log i self (s.ownId i)

theorem inv_new (cid : ι → SrsContextId) : Inv (new cid : Threads ι θ) where
  distinct i j self h := by simp [new, Worker.self?] at h
  entry self := rfl
  unset i h := rfl
  own i self h := by simp [new] at h

/-- A write that neither the coroutine nor a thread with its handle makes leaves its id alone. -/
theorem Inv.own_concat {s : Threads ι θ} (h : Inv s) {j : ι} {self : θ}
    (hj : s.worker j = .cycling self) {w : Write ι θ} (hne : w.self ≠ self)
    (hw : w.coroutine ≠ some j) :
    Wrote (s.log ++ [w]) j self ((setIds j (s.log ++ [w])).getLast?.getD (s.cid j)) := by
  rw [setIds_concat_other _ hw]
  exact (h.own j self hj).concat hne

/-- Two live coroutines do not share a handle. -/
theorem Inv.self_ne {s : Threads ι θ} (h : Inv s) {i j : ι} {self self' : θ}
    (hi : (s.worker i).self? = some self) (hj : (s.worker j).self? = some self') (hne : j ≠ i) :
    self ≠ self' := by
  rintro rfl
  exact hne (h.distinct j i self hj hi)

/-! ## The steps -/

/-- A step that only gets an id. -/
theorem Inv.getId {s : Threads ι θ} (h : Inv s) (self : θ) :
    Inv { s with context := (s.context.getId self).2 } where
  distinct := h.distinct
  entry self' := by
    rw [SrsThreadContext.getId_getId]
    exact h.entry self'
  unset := h.unset
  own := h.own

/-- A coroutine whose handle no other one has goes to a place where it does not run its handler. -/
theorem Inv.move {s : Threads ι θ} (h : Inv s) {i : ι} {w : Worker θ}
    (hself : ∀ self, w.self? = some self → ∀ j, j ≠ i → (s.worker j).self? ≠ some self)
    (hentered : w.entered = false → (s.worker i).entered = false)
    (hcycling : ∀ self, w ≠ .cycling self) :
    Inv { s with worker := Function.update s.worker i w } where
  distinct j k self hj hk := by
    by_cases hji : j = i <;> by_cases hki : k = i
    · rw [hji, hki]
    · subst hji
      simp only [Function.update_self, Function.update_of_ne hki] at hj hk
      exact absurd hk (hself self hj k hki)
    · subst hki
      simp only [Function.update_self, Function.update_of_ne hji] at hj hk
      exact absurd hj (hself self hk j hji)
    · simp only [Function.update_of_ne hji, Function.update_of_ne hki] at hj hk
      exact h.distinct j k self hj hk
  entry := h.entry
  unset j hj := by
    by_cases hji : j = i
    · subst hji
      simp only [Function.update_self] at hj
      exact h.unset j (hentered hj)
    · simp only [Function.update_of_ne hji] at hj
      exact h.unset j hj
  own j self hj := by
    by_cases hji : j = i
    · subst hji
      simp only [Function.update_self] at hj
      exact absurd hj (hcycling self)
    · simp only [Function.update_of_ne hji] at hj
      exact h.own j self hj

theorem Inv.create {s : Threads ι θ} (h : Inv s) {i : ι} {self : θ} (hi : s.worker i = .idle)
    (hfree : s.Free self) :
    Inv { s with worker := Function.update s.worker i (.created self) } := by
  refine h.move ?_ (fun _ => by rw [hi]; rfl) (by simp)
  intro self' hself j _
  obtain rfl := Option.some.inj hself
  exact hfree j

theorem Inv.finish {s : Threads ι θ} (h : Inv s) (i : ι) :
    Inv { s with worker := Function.update s.worker i .finished } :=
  h.move (by simp [Worker.self?]) (by simp [Worker.entered]) (by simp)

/-- The entry is written before the handler can read it, and whatever was there before. -/
theorem Inv.cycle {s : Threads ι θ} (h : Inv s) {i : ι} {self : θ}
    (hi : s.worker i = .created self) (cid : SrsContextId) :
    Inv { context := (s.context.setId self cid).2
          cid := Function.update s.cid i cid
          worker := Function.update s.worker i (.cycling self)
          log := s.log ++ [.cycle i self cid] } where
  distinct j k self' hj hk := by
    have hself : ∀ j, (Function.update s.worker i (.cycling self) j).self? =
        (s.worker j).self? := by
      intro j
      by_cases hji : j = i
      · subst hji
        simp [hi, Worker.self?]
      · simp [Function.update_of_ne hji]
    rw [hself] at hj hk
    exact h.distinct j k self' hj hk
  entry self' := entry_concat h.entry (.cycle i self cid) self'
  unset j hj := by
    rw [setIds_concat]
    by_cases hji : j = i
    · subst hji
      simp [Worker.entered] at hj
    · simp only [Function.update_of_ne hji] at hj
      simp [h.unset j hj, Write.setIdOf]
  own j self' hj := by
    by_cases hji : j = i
    · subst hji
      simp only [Function.update_self] at hj
      obtain rfl := Worker.cycling.inj hj
      have hunset := h.unset j (by rw [hi]; rfl)
      have hown : Wrote (s.log ++ [.cycle j self cid]) j self cid :=
        Wrote.last (w := .cycle j self cid) s.log rfl
      simpa [ownId, setIds_concat, hunset, Write.setIdOf] using hown
    · simp only [Function.update_of_ne hji] at hj
      have hne := h.self_ne (by rw [hi]; rfl) (by rw [hj]; rfl) hji
      have hown := h.own_concat (w := .cycle i self cid) hj hne
        (fun heq => hji (Option.some.inj heq).symm)
      simpa only [ownId, Function.update_of_ne hji] using hown

theorem Inv.setId {s : Threads ι θ} (h : Inv s) {i : ι} {self : θ}
    (hi : s.worker i = .cycling self) (v : SrsContextId) :
    Inv { s with context := (s.context.setId self v).2, log := s.log ++ [.setId i self v] } where
  distinct := h.distinct
  entry self' := entry_concat h.entry (.setId i self v) self'
  unset j hj := by
    have hne : i ≠ j := by
      rintro rfl
      simp [hi, Worker.entered] at hj
    rw [setIds_concat]
    simp [h.unset j hj, Write.setIdOf, hne]
  own j self' hj := by
    by_cases hji : j = i
    · subst hji
      obtain rfl := Worker.cycling.inj (hi.symm.trans hj)
      have hown : Wrote (s.log ++ [.setId j self v]) j self v :=
        Wrote.last (w := .setId j self v) s.log rfl
      simpa [ownId, setIds_concat, Write.setIdOf] using hown
    · have hne := h.self_ne (by rw [hi]; rfl) (by rw [hj]; rfl) hji
      exact h.own_concat (w := .setId i self v) hj hne
        (fun heq => hji (Option.some.inj heq).symm)

theorem Inv.foreignSetId {s : Threads ι θ} (h : Inv s) {self : θ} (hfree : s.Free self)
    (v : SrsContextId) :
    Inv { s with context := (s.context.setId self v).2, log := s.log ++ [.foreign self v] } where
  distinct := h.distinct
  entry self' := entry_concat h.entry (.foreign self v) self'
  unset j hj := by
    rw [setIds_concat]
    simp [h.unset j hj, Write.setIdOf]
  own j self' hj := by
    refine h.own_concat (w := .foreign self v) hj ?_ (by simp [Write.coroutine])
    rintro rfl
    exact hfree j (by rw [hj]; rfl)

theorem Inv.step {s s' : Threads ι θ} (h : Inv s) (hstep : Step s s') : Inv s' := by
  obtain ⟨t, hen, rfl⟩ := hstep
  cases t with
  | create i self => exact h.create hen.1 hen.2
  | cycle i self => exact h.cycle hen _
  | getId i self => exact h.getId self
  | setId i self v => exact h.setId hen v
  | finish i => exact h.finish i
  | foreignGetId self => exact h.getId self
  | foreignSetId self v => exact h.foreignSetId hen v

theorem Reachable.inv {s : Threads ι θ} (h : Reachable s) : Inv s := by
  refine h.invariant ?_ fun _ _ _ hinv hstep => hinv.step hstep
  rintro _ ⟨cid, rfl⟩
  exact inv_new cid

/-- **Inside of its handler a coroutine gets its own id**: the last one that it has set, or else its
`cid_`. The write of it was made by this coroutine, and by no other one and no other thread. -/
theorem getId_of_cycling {s : Threads ι θ} (h : Reachable s) {i : ι} {self : θ}
    (hi : s.worker i = .cycling self) :
    (s.context.getId self).1 = (setIds i s.log).getLast?.getD (s.cid i) ∧
      ∃ w, lastOn self s.log = some w ∧ w.coroutine = some i ∧
        (s.context.getId self).1 = w.id := by
  obtain ⟨w, hlast, hw, hid⟩ := h.inv.own i self hi
  have hget : (s.context.getId self).1 = w.id := by
    rw [h.inv.entry, hlast]
    rfl
  exact ⟨hget.trans hid, w, hlast, hw, hget⟩

/-- A coroutine finishes, and its handle comes back as that of the next one. -/
def reused : Threads Nat Nat :=
  [Turn.create 0 7, .cycle 0 7, .setId 0 7 ⟨"a"⟩, .finish 0, .create 1 7, .cycle 1 7].foldl
    Turn.apply (.new fun i => if i = 1 then ⟨"b"⟩ else .new)

theorem reachable_reused : Reachable reused := by
  have h0 : Reachable (new fun i => if i = 1 then ⟨"b"⟩ else .new : Threads Nat Nat) :=
    .start ⟨_, rfl⟩
  have h1 := h0.step ⟨.create 0 7, ⟨rfl, by intro i; simp [new, Worker.self?]⟩, rfl⟩
  have h2 := h1.step ⟨.cycle 0 7, rfl, rfl⟩
  have h3 := h2.step ⟨.setId 0 7 ⟨"a"⟩, rfl, rfl⟩
  have h4 := h3.step ⟨.finish 0, rfl, rfl⟩
  refine (h4.step ⟨.create 1 7, ⟨rfl, fun i => ?_⟩, rfl⟩).step ⟨.cycle 1 7, rfl, rfl⟩
  by_cases hi : i = 0
  · subst hi
    simp [Turn.apply, Worker.self?]
  · simp [Turn.apply, new, Function.update_of_ne hi, Worker.self?]

theorem getId_of_reused :
    (reused.context.getId 7).1 = ⟨"b"⟩ ∧
      ∃ w, lastOn 7 reused.log = some w ∧ w.coroutine = some 1 ∧
        (reused.context.getId 7).1 = w.id :=
  getId_of_cycling (i := 1) reachable_reused rfl

end Threads

end Ssms.App
