import Ssms.Kernel.Error
import Ssms.Lib.Run
import Mathlib.Data.List.Basic
import Mathlib.Tactic.SplitIfs

/-!
# The handle of a coroutine (`SrsFastCoroutine`, `srs_app_st.cpp`)

Scheduling is cooperative: what runs between two yields is one step. `start`, `interrupt` and `pull`
do not yield. `stop` yields in `st_thread_join`, so it is two steps, `stop` up to the join and
`stopJoined` after it. `workerReturn` is the end of a worker: `handler->cycle()` returns, and the
rest of `cycle` and of `pfn` runs; what the handler does before that does not touch the handle. The
body of `pfn` is not in the repository: it is a parameter, and `RunsCycle` is what is assumed of it.

An error is a pointer, so it has an address; `srs_error_copy` makes a new object. The `log` is the
history of the run and no part of the program.

* `lawful_of_reachable`: in every run, one thread at most is created, interrupted and joined, in
  that order, no assertion fails, and `pull` does not return success after an error.
* `tells_of_orderly`: `pull` tells how the coroutine ended, in runs where a worker that returns
  normally was interrupted before; `pull_of_ended` is the shortest run where it was not.
-/

namespace Ssms.App

open Ssms.Kernel Ssms.Lib.Run

/-- `ERROR_ST_CREATE_CYCLE_THREAD`, `ERROR_THREAD_DISPOSED`, `ERROR_THREAD_INTERRUPED`,
`ERROR_THREAD_TERMINATED`, `ERROR_THREAD_STARTED`. -/
def errorStCreateCycleThread : Int := 1017
def errorThreadDisposed : Int := 1069
def errorThreadInterruped : Int := 1070
def errorThreadTerminated : Int := 1071
def errorThreadStarted : Int := 1078

/-- A pointer to an error object. -/
structure ErrorPtr where
  address : Nat
  error : SrsCplxError

/-- The fields of a handle; `trd` is a thread or null. -/
structure SrsFastCoroutine where
  trd : Option Nat
  trdErr : Option ErrorPtr
  started : Bool
  interrupted : Bool
  disposed : Bool
  cycleDone : Bool
  stopping : Bool

/-- The constructor. -/
def SrsFastCoroutine.new : SrsFastCoroutine := ⟨none, none, false, false, false, false, false⟩

/-- A thread of the ST library. -/
inductive Thread where
  | running
  | exited (res : Option ErrorPtr)

/-- What happens in a run. -/
inductive Event where
  | create (trd : Nat)
  | stop
  | interrupt (trd : Option Nat)
  | join (trd : Nat)
  | joined (trd : Nat)
  | pull (err : Option SrsCplxError)
  | assertFailed

/-- A handle, the threads, and the thread that `stop` waits for. -/
structure Coroutine where
  co : SrsFastCoroutine
  threads : List Thread
  nextAddress : Nat
  joining : Option Nat
  log : List Event

namespace Coroutine

def new : Coroutine := ⟨.new, [], 0, none, []⟩

def emit (s : Coroutine) (e : Event) : Coroutine := { s with log := s.log ++ [e] }

@[simp] theorem emit_co (s : Coroutine) (e : Event) : (s.emit e).co = s.co := rfl

@[simp] theorem emit_log (s : Coroutine) (e : Event) : (s.emit e).log = s.log ++ [e] := rfl

/-- `trd_err` becomes a new error object. -/
def store (s : Coroutine) (err : SrsCplxError) : Coroutine :=
  { s with
    co := { s.co with trdErr := some ⟨s.nextAddress, err⟩ }
    nextAddress := s.nextAddress + 1 }

/-- `trd_err` becomes a new error object if it is null. -/
def storeFirst (s : Coroutine) (err : SrsCplxError) : Coroutine :=
  if s.co.trdErr.isNone then s.store err else s

/-- `start()`, where `st_thread_create` returns a thread or null. -/
def start (created : Bool) (s : Coroutine) : Option SrsCplxError × Coroutine :=
  if s.co.started || s.co.disposed then
    let err := if s.co.disposed then SrsCplxError.new errorThreadDisposed "disposed" []
      else SrsCplxError.new errorThreadStarted "started" []
    (some err, s.storeFirst err)
  else if created then
    let trd := s.threads.length
    let s := s.emit (.create trd)
    (none, { s with
      co := { s.co with trd := some trd, started := true }
      threads := s.threads ++ [.running] })
  else
    let err := SrsCplxError.new errorStCreateCycleThread "create failed" []
    let s := { s with co := { s.co with trd := none } }
    (some err, s.store err)

/-- `interrupt()`. -/
def interrupt (s : Coroutine) : Coroutine :=
  if !s.co.started || s.co.interrupted || s.co.cycleDone then s
  else
    let s := { s with co := { s.co with interrupted := true } }
    (s.storeFirst (.new errorThreadInterruped "interrupted" [])).emit (.interrupt s.co.trd)

/-- The end of `stop()`. -/
def stopDone (s : Coroutine) : Coroutine :=
  let s := if s.co.trdErr.isNone && !s.co.cycleDone then
    s.store (.new errorThreadTerminated "terminated" []) else s
  { s with co := { s.co with stopping := false } }

/-- The first lines of `stop()`. -/
def stopBegin (s : Coroutine) : Coroutine :=
  { s with co := { s.co with disposed := true, stopping := true } }.emit .stop

/-- `stop()`, up to the join. -/
def stop (s : Coroutine) : Coroutine :=
  if s.co.disposed then
    if s.co.stopping then s.emit .assertFailed else s
  else
    let s := s.stopBegin.interrupt
    match s.co.trd with
    | some trd =>
      let s := s.emit (.join trd)
      { s with joining := some trd }
    | none => s.stopDone

/-- `stop()`, from the return of the join on. -/
def stopJoined (trd : Nat) (res : Option ErrorPtr) (s : Coroutine) : Coroutine :=
  let s := { s.emit (.joined trd) with joining := none }
  let s := match res with
    | some err => if s.co.trdErr.map ErrorPtr.address = some err.address then s
      else s.emit .assertFailed
    | none => s
  s.stopDone

/-- `pull()`. -/
def pull (s : Coroutine) : Option SrsCplxError := s.co.trdErr.map ErrorPtr.error

/-- `cycle()`, from the return of `handler->cycle()` on. -/
def cycle (err : Option SrsCplxError) (s : Coroutine) : Option ErrorPtr × Coroutine :=
  match err with
  | some err => (some ⟨s.nextAddress, .wrap err "coroutine cycle" []⟩,
      { s with nextAddress := s.nextAddress + 1 })
  | none => (none, { s with co := { s.co with cycleDone := true } })

end Coroutine

/-- What `pfn` does to the handle after `cycle()` returned, and what it returns. -/
abbrev Pfn := Option ErrorPtr → SrsFastCoroutine → SrsFastCoroutine × Option ErrorPtr

/-- What is assumed of `pfn`: it stores an error of `cycle()`, and it returns what `cycle()`
returned. -/
structure RunsCycle (pfn : Pfn) : Prop where
  error : ∀ err co, pfn (some err) co = ({ co with trdErr := some err }, some err)
  success : ∀ co, pfn none co = (co, none)

/-- The end of a worker. -/
def Coroutine.workerReturn (pfn : Pfn) (trd : Nat) (err : Option SrsCplxError) (s : Coroutine) :
    Coroutine :=
  let (err, s) := s.cycle err
  let (co, res) := pfn err s.co
  { s with co := co, threads := s.threads.set trd (.exited res) }

/-- A step of the owner or of a worker. -/
inductive Action where
  | start (created : Bool)
  | interrupt
  | pull
  | stop
  | stopJoined (trd : Nat) (res : Option ErrorPtr)
  | workerReturn (trd : Nat) (err : Option SrsCplxError)

namespace Action

/-- When a step can be made: `stop` is not called while one is in progress, and a join returns what
the thread left. -/
def Enabled (s : Coroutine) : Action → Prop
  | .start _ | .interrupt | .pull => True
  | .stop => s.co.stopping = false
  | .stopJoined trd res => s.joining = some trd ∧ s.threads[trd]? = some (.exited res)
  | .workerReturn trd _ => s.threads[trd]? = some .running

def apply (pfn : Pfn) (s : Coroutine) : Action → Coroutine
  | .start created => (s.start created).2
  | .interrupt => s.interrupt
  | .pull => s.emit (.pull s.pull)
  | .stop => s.stop
  | .stopJoined trd res => s.stopJoined trd res
  | .workerReturn trd err => s.workerReturn pfn trd err

end Action

/-- A step of a run. -/
def Coroutine.Step (pfn : Pfn) (s s' : Coroutine) : Prop :=
  ∃ a : Action, a.Enabled s ∧ a.apply pfn s = s'

/-- The states of all runs. -/
abbrev Coroutine.Reachable (pfn : Pfn) : Coroutine → Prop := Reached (· = .new) (Step pfn)

namespace Coroutine

/-! ## The history -/

/-- What may happen after `pre`. -/
def Lawful (pre : List Event) : Event → Prop
  | .create _ => .stop ∉ pre ∧ ∀ t, .create t ∉ pre
  | .interrupt trd =>
    (∃ t, trd = some t ∧ .create t ∈ pre ∧ .joined t ∉ pre) ∧ ∀ t, .interrupt t ∉ pre
  | .join _ => ∀ t, .join t ∉ pre
  | .pull none => ∀ err, .pull (some err) ∉ pre
  | .assertFailed => False
  | _ => True

/-- `interrupt()` has nothing to do. -/
def Settled (co : SrsFastCoroutine) : Prop :=
  co.started = false ∨ co.interrupted = true ∨ co.cycleDone = true

instance : DecidablePred Settled := fun co => by unfold Settled; infer_instance

/-- What the fields of a handle and the history say about each other. -/
structure Consistent (s : Coroutine) : Prop where
  unstarted : s.co.started = false → s.co.trd = none ∧ s.threads = []
  started : s.co.started = true → s.co.trd = some 0 ∧ s.threads.length = 1
  created : ∀ t, Event.create t ∈ s.log ↔ s.co.started = true ∧ t = 0
  stopped : Event.stop ∈ s.log → s.co.disposed = true
  interrupted : ∀ t, Event.interrupt t ∈ s.log → s.co.interrupted = true
  joined : ∀ t, Event.join t ∈ s.log ∨ Event.joined t ∈ s.log → s.co.disposed = true
  /-- The error of a worker stays where `pfn` stored it. -/
  exited : ∀ (t : Nat) (err : ErrorPtr), s.threads[t]? = some (.exited (some err)) →
    s.co.trdErr = some err
  pulled : ∀ err, Event.pull (some err) ∈ s.log → s.co.trdErr ≠ none
  lawful : Justified Lawful s.log

/-- What holds between the steps: nothing is left to interrupt once `stop` has begun. -/
structure Inv (s : Coroutine) : Prop where
  consistent : Consistent s
  settled : s.co.disposed = true → Settled s.co
  joining : ∀ t, s.joining = some t → s.co.disposed = true

/-- What the handle of a state says about an event other than a creation that is added to its
history. -/
def Records (co : SrsFastCoroutine) : Event → Prop
  | .create _ => False
  | .stop | .join _ | .joined _ => co.disposed = true
  | .interrupt _ => co.interrupted = true
  | .pull err => err ≠ none → co.trdErr ≠ none
  | .assertFailed => True

theorem Consistent.emit {s : Coroutine} (h : Consistent s) {e : Event} (hrecords : Records s.co e)
    (hlawful : Lawful s.log e) : Consistent (s.emit e) where
  unstarted := h.unstarted
  started := h.started
  created t := by
    refine Iff.trans ?_ (h.created t)
    rw [Coroutine.emit, List.mem_append, List.mem_singleton, or_iff_left]
    rintro rfl
    exact hrecords
  stopped hmem := by
    rcases List.mem_append.mp hmem with hmem | hmem
    · exact h.stopped hmem
    · obtain rfl := List.mem_singleton.mp hmem
      exact hrecords
  interrupted t hmem := by
    rcases List.mem_append.mp hmem with hmem | hmem
    · exact h.interrupted t hmem
    · obtain rfl := List.mem_singleton.mp hmem
      exact hrecords
  joined t hmem := by
    rcases hmem with hmem | hmem <;> rcases List.mem_append.mp hmem with hmem | hmem
    · exact h.joined t (Or.inl hmem)
    · obtain rfl := List.mem_singleton.mp hmem
      exact hrecords
    · exact h.joined t (Or.inr hmem)
    · obtain rfl := List.mem_singleton.mp hmem
      exact hrecords
  exited := h.exited
  pulled err hmem := by
    rcases List.mem_append.mp hmem with hmem | hmem
    · exact h.pulled err hmem
    · obtain rfl := List.mem_singleton.mp hmem
      exact hrecords (Option.some_ne_none err)
  lawful := h.lawful.concat hlawful

/-- An error can be stored where no worker has left one. -/
theorem Consistent.store {s : Coroutine} (h : Consistent s)
    (hnone : ∀ (t : Nat) (err : ErrorPtr), s.threads[t]? ≠ some (.exited (some err)))
    (err : SrsCplxError) : Consistent (s.store err) where
  unstarted := h.unstarted
  started := h.started
  created := h.created
  stopped := h.stopped
  interrupted := h.interrupted
  joined := h.joined
  exited t p hexited := absurd hexited (hnone t p)
  pulled p _ := by simp [Coroutine.store]
  lawful := h.lawful

theorem Consistent.not_exited {s : Coroutine} (h : Consistent s) (hnone : s.co.trdErr = none)
    (t : Nat) (err : ErrorPtr) : s.threads[t]? ≠ some (.exited (some err)) := by
  intro hexited
  have := h.exited t err hexited
  simp [hnone] at this

theorem Consistent.storeFirst {s : Coroutine} (h : Consistent s) (err : SrsCplxError) :
    Consistent (s.storeFirst err) := by
  unfold Coroutine.storeFirst
  cases hnone : s.co.trdErr with
  | none => exact h.store (h.not_exited hnone) err
  | some p => simpa using h

/-- `storeFirst` changes nothing but `trd_err`. -/
theorem storeFirst_eq (s : Coroutine) (err : SrsCplxError) : ∃ trdErr nextAddress,
    s.storeFirst err =
      { s with co := { s.co with trdErr := trdErr }, nextAddress := nextAddress } := by
  unfold Coroutine.storeFirst
  split_ifs
  · exact ⟨_, _, rfl⟩
  · exact ⟨s.co.trdErr, s.nextAddress, rfl⟩

/-- **What `interrupt()` does**: nothing on a settled handle, else it marks the handle interrupted,
keeps or stores an error, and interrupts the thread. -/
theorem interrupt_cases (s : Coroutine) :
    Settled s.co ∧ s.interrupt = s ∨
      ¬ Settled s.co ∧ ∃ trdErr nextAddress,
        ({ s with co := { s.co with interrupted := true } } : Coroutine).storeFirst
            (.new errorThreadInterruped "interrupted" []) =
          { s with
            co := { s.co with interrupted := true, trdErr := trdErr }
            nextAddress := nextAddress } ∧
        s.interrupt = { s with
          co := { s.co with interrupted := true, trdErr := trdErr }
          nextAddress := nextAddress
          log := s.log ++ [.interrupt s.co.trd] } := by
  have hguard : (!s.co.started || s.co.interrupted || s.co.cycleDone) = true ↔ Settled s.co := by
    simp [Settled, or_assoc]
  unfold Coroutine.interrupt
  by_cases hs : Settled s.co
  · exact Or.inl ⟨hs, if_pos (hguard.mpr hs)⟩
  · obtain ⟨trdErr, nextAddress, heq⟩ := storeFirst_eq
      { s with co := { s.co with interrupted := true } }
      (.new errorThreadInterruped "interrupted" [])
    refine Or.inr ⟨hs, trdErr, nextAddress, heq, ?_⟩
    rw [if_neg fun h => hs (hguard.mp h)]
    simp only [heq]
    rfl

/-- `interrupt()` on a handle that has not joined its thread. -/
theorem Consistent.interrupt {s : Coroutine} (h : Consistent s)
    (hjoined : ¬ Settled s.co → ∀ t, Event.joined t ∉ s.log) :
    Consistent s.interrupt ∧ Settled s.interrupt.co := by
  rcases interrupt_cases s with ⟨hs, heq⟩ | ⟨hs, trdErr, nextAddress, hstored, heq⟩
  · rw [heq]
    exact ⟨h, hs⟩
  · have hstarted : s.co.started = true := by simpa using fun hf => hs (Or.inl hf)
    have hmarked : Consistent { s with co := { s.co with interrupted := true } } :=
      { h with interrupted := fun _ _ => rfl }
    have hstore := hmarked.storeFirst (.new errorThreadInterruped "interrupted" [])
    rw [hstored] at hstore
    rw [heq]
    refine ⟨hstore.emit rfl ⟨⟨0, (h.started hstarted).1, (h.created 0).mpr ⟨hstarted, rfl⟩,
      hjoined hs 0⟩, fun t hmem => ?_⟩, Or.inr (Or.inl rfl)⟩
    exact hs (Or.inr (Or.inl (h.interrupted t hmem)))

/-- What `interrupt()` leaves as it is. -/
theorem interrupt_frame (s : Coroutine) : s.interrupt.co.disposed = s.co.disposed ∧
    s.interrupt.joining = s.joining ∧
    ∀ t, Event.join t ∈ s.interrupt.log ↔ Event.join t ∈ s.log := by
  rcases interrupt_cases s with ⟨-, heq⟩ | ⟨-, trdErr, nextAddress, -, heq⟩ <;> rw [heq] <;> simp

/-- The end of `stop()` keeps what is consistent and settled. -/
theorem Consistent.stopDone {s : Coroutine} (h : Consistent s) (hsettled : Settled s.co)
    (hjoining : s.joining = none) : Inv s.stopDone := by
  unfold Coroutine.stopDone
  split_ifs with hstore
  · simp only [Bool.and_eq_true, Option.isNone_iff_eq_none] at hstore
    have hstored := h.store (h.not_exited hstore.1) (.new errorThreadTerminated "terminated" [])
    refine ⟨{ hstored with }, fun _ => hsettled, fun t ht => ?_⟩
    simp [Coroutine.store, hjoining] at ht
  · exact ⟨{ h with }, fun _ => hsettled, fun t ht => by simp [hjoining] at ht⟩

/-! ## The steps -/

/-- The first thread. -/
theorem Consistent.create {s : Coroutine} (h : Consistent s) (hstarted : s.co.started = false)
    (hdisposed : s.co.disposed = false) : Consistent
      { s with
        co := { s.co with trd := some s.threads.length, started := true }
        threads := s.threads ++ [.running]
        log := s.log ++ [.create s.threads.length] } := by
  have hthreads := (h.unstarted hstarted).2
  have hnone : ∀ t, Event.create t ∉ s.log := fun t hmem => by
    simpa [hstarted] using (h.created t).mp hmem
  constructor
  case unstarted => simp
  case started => simp [hthreads]
  case created => simp [hthreads, hnone]
  case stopped => simpa using h.stopped
  case interrupted => simpa using h.interrupted
  case joined => simpa using h.joined
  case exited =>
    intro t err hexited
    rw [hthreads, List.nil_append] at hexited
    cases t with
    | zero => simp at hexited
    | succ t => simp at hexited
  case pulled => simpa using h.pulled
  case lawful =>
    refine h.lawful.concat ⟨fun hmem => ?_, hnone⟩
    simpa [hdisposed] using h.stopped hmem

theorem Inv.start {s : Coroutine} (h : Inv s) (created : Bool) : Inv (s.start created).2 := by
  obtain ⟨h, hsettled, hjoining⟩ := h
  unfold Coroutine.start
  by_cases hrefused : (s.co.started || s.co.disposed) = true
  · rw [if_pos hrefused]
    obtain ⟨trdErr, nextAddress, heq⟩ := storeFirst_eq s (if s.co.disposed = true then
      .new errorThreadDisposed "disposed" [] else .new errorThreadStarted "started" [])
    refine ⟨h.storeFirst _, ?_, ?_⟩
    · simp only [heq]
      exact hsettled
    · simp only [heq]
      exact hjoining
  · rw [if_neg hrefused]
    simp only [Bool.or_eq_true, not_or, Bool.not_eq_true] at hrefused
    obtain ⟨hstarted, hdisposed⟩ := hrefused
    cases created with
    | true =>
      refine ⟨h.create hstarted hdisposed, fun hd => ?_, hjoining⟩
      exact absurd hd (by simp [Coroutine.emit, hdisposed])
    | false =>
      obtain ⟨-, hthreads⟩ := h.unstarted hstarted
      have hstored := h.store (by simp [hthreads])
        (.new errorStCreateCycleThread "create failed" [])
      refine ⟨{ hstored with
        unstarted := fun _ => ⟨rfl, hthreads⟩
        started := fun hf => absurd hf (by simp [Coroutine.store, hstarted]) }, hsettled, hjoining⟩

theorem Inv.interrupt {s : Coroutine} (h : Inv s) : Inv s.interrupt := by
  have hjoined : ¬ Settled s.co → ∀ t, Event.joined t ∉ s.log := fun hs t hmem =>
    hs (h.settled (h.consistent.joined t (Or.inr hmem)))
  obtain ⟨hconsistent, hsettled⟩ := h.consistent.interrupt hjoined
  obtain ⟨hdisposed, hjoining, -⟩ := interrupt_frame s
  refine ⟨hconsistent, fun _ => hsettled, ?_⟩
  rw [hdisposed, hjoining]
  exact h.joining

theorem Inv.pull {s : Coroutine} (h : Inv s) : Inv (s.emit (.pull s.pull)) := by
  refine ⟨h.consistent.emit ?_ ?_, h.settled, h.joining⟩
  · intro hne hnone
    exact hne (by rw [Coroutine.pull, hnone, Option.map_none])
  · cases hnone : s.co.trdErr with
    | some p =>
      rw [Coroutine.pull, hnone]
      trivial
    | none =>
      rw [Coroutine.pull, hnone]
      exact fun err hmem => h.consistent.pulled err hmem hnone

theorem Inv.stopBegin {s : Coroutine} (h : Inv s) : Consistent s.stopBegin := by
  have hmarked : Consistent { s with co := { s.co with disposed := true, stopping := true } } :=
    { h.consistent with stopped := fun _ => rfl, joined := fun _ _ => rfl }
  exact hmarked.emit rfl trivial

/-- `stop()` before the join: the thread is interrupted, and not yet joined. -/
theorem Inv.stopBegin_interrupt {s : Coroutine} (h : Inv s) (hdisposed : ¬ s.co.disposed = true) :
    Consistent s.stopBegin.interrupt ∧ Settled s.stopBegin.interrupt.co ∧
      s.stopBegin.interrupt.co.disposed = true ∧ s.stopBegin.interrupt.joining = none ∧
      ∀ t, Event.join t ∉ s.stopBegin.interrupt.log := by
  obtain ⟨hframe, hjoining, hjoin⟩ := interrupt_frame s.stopBegin
  obtain ⟨hconsistent, hsettled⟩ := h.stopBegin.interrupt fun _ t hmem => by
    have hmem' : Event.joined t ∈ s.log := by simpa [Coroutine.stopBegin] using hmem
    exact hdisposed (h.consistent.joined t (Or.inr hmem'))
  refine ⟨hconsistent, hsettled, hframe, ?_, fun t hmem => ?_⟩
  · rw [hjoining]
    cases hs : s.joining with
    | none => exact hs
    | some t => exact absurd (h.joining t hs) hdisposed
  · have hmem' : Event.join t ∈ s.log := by simpa [Coroutine.stopBegin] using (hjoin t).mp hmem
    exact hdisposed (h.consistent.joined t (Or.inl hmem'))

theorem Inv.stop {s : Coroutine} (h : Inv s) (hstopping : s.co.stopping = false) : Inv s.stop := by
  unfold Coroutine.stop
  by_cases hdisposed : s.co.disposed = true
  · rw [if_pos hdisposed, if_neg (by simp [hstopping])]
    exact h
  · rw [if_neg hdisposed]
    obtain ⟨hconsistent, hsettled, hd, hjoining, hnever⟩ := h.stopBegin_interrupt hdisposed
    dsimp only
    split
    · exact ⟨{ hconsistent.emit (e := .join _) hd hnever with }, fun _ => hsettled, fun _ _ => hd⟩
    · exact hconsistent.stopDone hsettled hjoining

/-- The assertion after the join holds: the error that the thread left is the one in the handle. -/
theorem Inv.stopJoined_eq {s : Coroutine} (h : Inv s) {trd : Nat} {res : Option ErrorPtr}
    (hexited : s.threads[trd]? = some (.exited res)) : s.stopJoined trd res =
      ({ s.emit (.joined trd) with joining := none } : Coroutine).stopDone := by
  unfold Coroutine.stopJoined
  cases res with
  | none => rfl
  | some err =>
    have herr := h.consistent.exited trd err hexited
    simp only [emit_co, herr, Option.map_some, if_true]

theorem Inv.joined {s : Coroutine} (h : Inv s) {trd : Nat} (hjoining : s.joining = some trd) :
    Consistent { s.emit (.joined trd) with joining := none } :=
  { h.consistent.emit (e := .joined trd) (h.joining trd hjoining) trivial with }

theorem Inv.stopJoined {s : Coroutine} (h : Inv s) {trd : Nat} {res : Option ErrorPtr}
    (hjoining : s.joining = some trd) (hexited : s.threads[trd]? = some (.exited res)) :
    Inv (s.stopJoined trd res) := by
  rw [h.stopJoined_eq hexited]
  exact (h.joined hjoining).stopDone (h.settled (h.joining trd hjoining)) rfl

/-- A running thread is the only one. -/
theorem Consistent.of_running {s : Coroutine} (h : Consistent s) {trd : Nat}
    (hrunning : s.threads[trd]? = some .running) :
    s.co.started = true ∧ trd = 0 ∧ s.threads = [.running] := by
  have hstarted : s.co.started = true := by
    by_contra hf
    simp [(h.unstarted (by simpa using hf)).2] at hrunning
  obtain ⟨thread, hthreads⟩ := List.length_eq_one_iff.mp (h.started hstarted).2
  rw [hthreads] at hrunning ⊢
  cases trd with
  | zero => exact ⟨hstarted, rfl, congrArg (fun x => [x]) (Option.some_inj.mp hrunning)⟩
  | succ t => simp at hrunning

/-- `pfn` stores the error of the only thread, or the cycle is done. -/
theorem Inv.workerReturn {pfn : Pfn} (hpfn : RunsCycle pfn) {s : Coroutine} (h : Inv s) {trd : Nat}
    (hrunning : s.threads[trd]? = some .running) (err : Option SrsCplxError) :
    Inv (s.workerReturn pfn trd err) := by
  obtain ⟨h, hsettled, hjoining⟩ := h
  obtain ⟨hstarted, rfl, hthreads⟩ := h.of_running hrunning
  have hexited : ∀ (res : Option ErrorPtr) {t : Nat} {err : ErrorPtr},
      (s.threads.set 0 (.exited res))[t]? = some (.exited (some err)) → res = some err := by
    intro res t err hx
    rw [hthreads, List.set_cons_zero] at hx
    cases t with
    | zero => simpa using hx
    | succ t => simp at hx
  unfold Coroutine.workerReturn
  cases err with
  | some err =>
    simp only [Coroutine.cycle, hpfn.error]
    exact ⟨{ h with
      unstarted := fun hf => absurd hf (by simp [hstarted])
      started := fun _ => ⟨(h.started hstarted).1, by simp [hthreads]⟩
      exited := fun _ _ hx => hexited _ hx
      pulled := fun _ _ => Option.some_ne_none _ }, hsettled, hjoining⟩
  | none =>
    simp only [Coroutine.cycle, hpfn.success]
    exact ⟨{ h with
      unstarted := fun hf => absurd hf (by simp [hstarted])
      started := fun _ => ⟨(h.started hstarted).1, by simp [hthreads]⟩
      exited := fun _ _ hx => absurd (hexited _ hx) (by simp) }, fun _ => Or.inr (Or.inr rfl),
      hjoining⟩

/-- **Every step keeps the invariant.** -/
theorem Inv.apply {pfn : Pfn} (hpfn : RunsCycle pfn) {s : Coroutine} (h : Inv s) {a : Action}
    (ha : a.Enabled s) : Inv (a.apply pfn s) := by
  cases a with
  | start created => exact h.start created
  | interrupt => exact h.interrupt
  | pull => exact h.pull
  | stop => exact h.stop ha
  | stopJoined trd res => exact h.stopJoined ha.1 ha.2
  | workerReturn trd err => exact h.workerReturn hpfn ha err

theorem Inv.new : Inv .new where
  consistent := by
    constructor <;> simp [Coroutine.new, SrsFastCoroutine.new, justified_nil]
  settled := by simp [Coroutine.new, SrsFastCoroutine.new]
  joining := by simp [Coroutine.new]

theorem Reachable.inv {pfn : Pfn} (hpfn : RunsCycle pfn) {s : Coroutine} (h : Reachable pfn s) :
    Inv s := by
  refine h.invariant (fun _ hs => hs ▸ Inv.new) ?_
  rintro s _ - hs ⟨a, ha, rfl⟩
  exact hs.apply hpfn ha

/-- **Handle safety and sticky error.** In the history of every run each event is lawful. -/
theorem lawful_of_reachable {pfn : Pfn} (hpfn : RunsCycle pfn) {s : Coroutine}
    (h : Reachable pfn s) : Justified Lawful s.log :=
  (h.inv hpfn).consistent.lawful

/-- What `pfn` is assumed to do. -/
def storesError : Pfn
  | some err, co => ({ co with trdErr := some err }, some err)
  | none, co => (co, none)

theorem runsCycle_storesError : RunsCycle storesError := ⟨fun _ _ => rfl, fun _ => rfl⟩

/-- A worker that fails, and the stop after it. -/
theorem lawful_of_reachable_failed :
    Justified Lawful [.create 0, .stop, .interrupt (some 0), .join 0, .joined 0,
      .pull (some (.wrap (.new 1 "failed" []) "coroutine cycle" []))] :=
  lawful_of_reachable runsCycle_storesError (.step (.step (.step (.step (.step (.start rfl)
    ⟨.start true, trivial, rfl⟩) ⟨.workerReturn 0 (some (.new 1 "failed" [])), rfl, rfl⟩)
    ⟨.stop, rfl, rfl⟩) ⟨.stopJoined 0 _, ⟨rfl, rfl⟩, rfl⟩) ⟨.pull, trivial, rfl⟩)

/-! ## What `pull` tells -/

/-- A worker returns normally only after an interrupt took effect, and no `start()` fails before
that. -/
def Orderly (s : Coroutine) : Action → Prop
  | .workerReturn _ none => s.co.interrupted = true
  | .start created => s.co.interrupted = true ∨ s.co.disposed = true ∨
    s.co.started = false ∧ created = true
  | _ => True

/-- A step of an orderly run. -/
def OrderlyStep (pfn : Pfn) (s s' : Coroutine) : Prop :=
  ∃ a : Action, a.Enabled s ∧ Orderly s a ∧ a.apply pfn s = s'

/-- `pull` tells how the coroutine ended, once it has ended and `stop` has returned; until it has
ended, and only until then, `pull` may return success. -/
structure Tells (s : Coroutine) : Prop where
  failed : s.co.disposed = true → s.co.stopping = false → ∀ err,
    Thread.exited (some err) ∈ s.threads → s.pull = some err.error
  ended : s.co.disposed = true → s.co.stopping = false → Thread.exited none ∈ s.threads →
    ∃ err, s.pull = some err ∧ err.errorCode =
      if s.co.interrupted then errorThreadInterruped else errorThreadTerminated
  success : s.pull = none → ∀ res, Thread.exited res ∉ s.threads

/-- The error of an interrupt is stored. -/
def Noted (co : SrsFastCoroutine) : Prop :=
  co.interrupted = true ∧ ∃ err, co.trdErr = some err ∧ err.error.errorCode = errorThreadInterruped

/-- What an orderly run keeps: an error is stored by an interrupt or by the worker, and by nothing
else while there is a worker. -/
structure Tracked (s : Coroutine) : Prop where
  fresh : s.threads = [] → s.co.disposed = false →
    s.co.trdErr = none ∧ s.co.interrupted = false ∧ s.co.cycleDone = false
  running : Thread.running ∈ s.threads → s.co.cycleDone = false ∧
    (Noted s.co ∨ s.co.interrupted = false ∧ s.co.trdErr = none)
  ended : Thread.exited none ∈ s.threads → Noted s.co

theorem Tracked.tells {s : Coroutine} (h : Tracked s) (hs : Inv s) : Tells s := by
  have hfailed : ∀ err, Thread.exited (some err) ∈ s.threads → s.pull = some err.error := by
    intro err hmem
    obtain ⟨t, ht⟩ := List.mem_iff_getElem?.mp hmem
    rw [Coroutine.pull, hs.consistent.exited t err ht, Option.map_some]
  refine ⟨fun _ _ => hfailed, fun _ _ hmem => ?_, fun hpull res hmem => ?_⟩
  · obtain ⟨hinterrupted, err, herr, hcode⟩ := h.ended hmem
    refine ⟨err.error, by rw [Coroutine.pull, herr, Option.map_some], ?_⟩
    rw [hinterrupted]
    exact hcode
  · cases res with
    | some err =>
      rw [hfailed err hmem] at hpull
      cases hpull
    | none =>
      obtain ⟨-, err, herr, -⟩ := h.ended hmem
      rw [Coroutine.pull, herr] at hpull
      cases hpull

theorem Consistent.started_of_mem {s : Coroutine} (h : Consistent s) {thread : Thread}
    (hmem : thread ∈ s.threads) : s.co.started = true := by
  by_contra hf
  simp [(h.unstarted (by simpa using hf)).2] at hmem

theorem Consistent.threads_ne_nil {s : Coroutine} (h : Consistent s) (hs : s.co.started = true) :
    s.threads ≠ [] := by
  intro hnil
  simpa [hnil] using (h.started hs).2

theorem Noted.ne_none {co : SrsFastCoroutine} (h : Noted co) : co.trdErr ≠ none := by
  obtain ⟨-, err, herr, -⟩ := h
  simp [herr]

/-- While there is a worker, a settled handle was interrupted. -/
theorem Tracked.noted {s : Coroutine} (h : Tracked s) (hs : Consistent s) (hsettled : Settled s.co)
    (hrunning : Thread.running ∈ s.threads) : Noted s.co := by
  obtain ⟨hdone, hnoted | ⟨hinterrupted, -⟩⟩ := h.running hrunning
  · exact hnoted
  · have hstarted := hs.started_of_mem hrunning
    simp [Settled, hstarted, hinterrupted, hdone] at hsettled

/-- An error can be stored where there is none and no worker. -/
theorem Tracked.store {s : Coroutine} (h : Tracked s) (hnone : s.co.trdErr = none)
    (hrunning : Thread.running ∉ s.threads) (hfresh : s.threads = [] → s.co.disposed = true)
    (err : SrsCplxError) : Tracked (s.store err) where
  fresh hnil hdisposed := by
    have : s.co.disposed = false := hdisposed
    simp [hfresh hnil] at this
  running hmem := absurd hmem hrunning
  ended hmem := absurd hnone (h.ended hmem).ne_none

theorem Tracked.storeFirst {s : Coroutine} (h : Tracked s)
    (hrunning : s.co.trdErr = none → Thread.running ∉ s.threads)
    (hfresh : s.threads = [] → s.co.disposed = true) (err : SrsCplxError) :
    Tracked (s.storeFirst err) := by
  unfold Coroutine.storeFirst
  split_ifs with hnone
  · have hnone := Option.isNone_iff_eq_none.mp hnone
    exact h.store hnone (hrunning hnone) hfresh err
  · exact h

theorem Tracked.interrupt {s : Coroutine} (h : Tracked s) (hs : Consistent s) :
    Tracked s.interrupt := by
  rcases interrupt_cases s with ⟨-, heq⟩ | ⟨hsettled, trdErr, nextAddress, hstored, heq⟩
  · rw [heq]
    exact h
  · have hnot : s.co.started = true ∧ s.co.interrupted = false := by
      simp only [Settled, not_or, Bool.not_eq_false, Bool.not_eq_true] at hsettled
      exact ⟨hsettled.1, hsettled.2.1⟩
    rw [heq]
    refine ⟨fun hnil => absurd hnil (hs.threads_ne_nil hnot.1), fun hmem => ?_, fun hmem => ?_⟩
    · obtain ⟨hdone, hnoted | ⟨-, hnone⟩⟩ := h.running hmem
      · simp [hnoted.1] at hnot
      · have hstore : some ⟨s.nextAddress, .new errorThreadInterruped "interrupted" []⟩ =
            trdErr := by
          have := congrArg (fun s : Coroutine => s.co.trdErr) hstored
          simpa [Coroutine.storeFirst, Coroutine.store, hnone] using this
        exact ⟨hdone, Or.inl ⟨rfl, _, hstore.symm, rfl⟩⟩
    · simp [(h.ended hmem).1] at hnot

theorem Tracked.stopDone {s : Coroutine} (h : Tracked s) (hs : Consistent s)
    (hsettled : Settled s.co) (hdisposed : s.co.disposed = true) : Tracked s.stopDone := by
  unfold Coroutine.stopDone
  split_ifs with hstore
  · simp only [Bool.and_eq_true, Option.isNone_iff_eq_none] at hstore
    have hstored := h.store hstore.1 (fun hmem => (h.noted hs hsettled hmem).ne_none hstore.1)
      (fun _ => hdisposed) (.new errorThreadTerminated "terminated" [])
    exact { hstored with }
  · exact { h with }

/-- A refused start stores nothing while there is a worker; a thread starts without an error. -/
theorem Tracked.start {s : Coroutine} (h : Tracked s) (hs : Inv s) {created : Bool}
    (horderly : s.co.interrupted = true ∨ s.co.disposed = true ∨
      s.co.started = false ∧ created = true) : Tracked (s.start created).2 := by
  unfold Coroutine.start
  by_cases hrefused : (s.co.started || s.co.disposed) = true
  · rw [if_pos hrefused]
    refine h.storeFirst (fun hnone hmem => ?_) (fun hnil => ?_) _
    · -- nothing is stored yet, so there was no interrupt and the start is not the second one
      have hstarted := hs.consistent.started_of_mem hmem
      obtain ⟨-, hnoted | ⟨hinterrupted, -⟩⟩ := h.running hmem
      · exact hnoted.ne_none hnone
      · rcases horderly with hi | hd | ⟨hf, -⟩
        · simp [hinterrupted] at hi
        · exact (h.noted hs.consistent (hs.settled hd) hmem).ne_none hnone
        · simp [hstarted] at hf
    · rcases Bool.or_eq_true_iff.mp hrefused with hstarted | hdisposed
      · exact absurd hnil (hs.consistent.threads_ne_nil hstarted)
      · exact hdisposed
  · rw [if_neg hrefused]
    simp only [Bool.or_eq_true, not_or, Bool.not_eq_true] at hrefused
    obtain ⟨hstarted, hdisposed⟩ := hrefused
    obtain ⟨-, hthreads⟩ := hs.consistent.unstarted hstarted
    obtain ⟨hnone, hinterrupted, hdone⟩ := h.fresh hthreads hdisposed
    obtain rfl : created = true := by simpa [hinterrupted, hdisposed, hstarted] using horderly
    rw [if_pos rfl]
    constructor <;> simp [Coroutine.emit, hthreads, hnone, hinterrupted, hdone]

theorem Tracked.stop {s : Coroutine} (h : Tracked s) (hs : Inv s) : Tracked s.stop := by
  unfold Coroutine.stop
  split_ifs with hdisposed hstopping
  · exact { h with }
  · exact h
  · have hbegin : Tracked s.stopBegin :=
      { h with fresh := fun _ hd => absurd hd (by simp [Coroutine.stopBegin]) }
    have htracked := hbegin.interrupt hs.stopBegin
    obtain ⟨hconsistent, hsettled, hd, -⟩ := hs.stopBegin_interrupt hdisposed
    dsimp only
    split
    · exact { htracked with }
    · exact htracked.stopDone hconsistent hsettled hd

theorem Tracked.stopJoined {s : Coroutine} (h : Tracked s) (hs : Inv s) {trd : Nat}
    {res : Option ErrorPtr} (hjoining : s.joining = some trd)
    (hexited : s.threads[trd]? = some (.exited res)) : Tracked (s.stopJoined trd res) := by
  have hdisposed := hs.joining trd hjoining
  have hjoined : Tracked { s.emit (.joined trd) with joining := none } := { h with }
  rw [hs.stopJoined_eq hexited]
  exact hjoined.stopDone (hs.joined hjoining) (hs.settled hdisposed) hdisposed

/-- A worker that returns normally was interrupted, and the error of the interrupt is stored. -/
theorem Tracked.workerReturn {pfn : Pfn} (hpfn : RunsCycle pfn) {s : Coroutine} (h : Tracked s)
    (hs : Inv s) {trd : Nat} (hrunning : s.threads[trd]? = some .running)
    {err : Option SrsCplxError} (horderly : err = none → s.co.interrupted = true) :
    Tracked (s.workerReturn pfn trd err) := by
  obtain ⟨-, rfl, hthreads⟩ := hs.consistent.of_running hrunning
  unfold Coroutine.workerReturn
  cases err with
  | some err =>
    simp only [Coroutine.cycle, hpfn.error, hthreads, List.set_cons_zero]
    constructor <;> simp
  | none =>
    have hnoted : Noted s.co := by
      obtain ⟨-, hnoted | ⟨hf, -⟩⟩ := h.running (by simp [hthreads])
      · exact hnoted
      · simp [horderly rfl] at hf
    simp only [Coroutine.cycle, hpfn.success, hthreads, List.set_cons_zero]
    constructor
    · simp
    · simp
    · exact fun _ => hnoted

/-- **Every step of an orderly run keeps track.** -/
theorem Tracked.apply {pfn : Pfn} (hpfn : RunsCycle pfn) {s : Coroutine} (h : Tracked s)
    (hs : Inv s) {a : Action} (ha : a.Enabled s) (horderly : Orderly s a) :
    Tracked (a.apply pfn s) := by
  cases a with
  | start created => exact h.start hs horderly
  | interrupt => exact h.interrupt hs.consistent
  | pull => exact { h with }
  | stop => exact h.stop hs
  | stopJoined trd res => exact h.stopJoined hs ha.1 ha.2
  | workerReturn trd err =>
    refine h.workerReturn hpfn hs ha ?_
    rintro rfl
    exact horderly

theorem Tracked.new : Tracked .new := by
  constructor <;> simp [Coroutine.new, SrsFastCoroutine.new]

/-- An orderly run is a run. -/
theorem reachable_of_orderly {pfn : Pfn} {s : Coroutine}
    (h : Reached (· = .new) (OrderlyStep pfn) s) : Reachable pfn s := by
  induction h with
  | start hs => exact .start hs
  | step _ hstep ih =>
    obtain ⟨a, ha, -, heq⟩ := hstep
    exact .step ih ⟨a, ha, heq⟩

/-- **`pull` tells a running coroutine from a finished one** in every state of an orderly run. -/
theorem tells_of_orderly {pfn : Pfn} (hpfn : RunsCycle pfn) {s : Coroutine}
    (h : Reached (· = .new) (OrderlyStep pfn) s) : Tells s := by
  have htracked : Tracked s := by
    refine h.invariant (fun _ hs => hs ▸ Tracked.new) ?_
    rintro s _ hreached ih ⟨a, ha, horderly, rfl⟩
    exact ih.apply hpfn ((reachable_of_orderly hreached).inv hpfn) ha horderly
  exact htracked.tells ((reachable_of_orderly h).inv hpfn)

/-- A worker that returns normally after an interrupt, and the stop after it. -/
theorem tells_of_orderly_interrupted :
    ∃ s err, Reached (· = .new) (OrderlyStep storesError) s ∧ Thread.exited none ∈ s.threads ∧
      s.pull = some err ∧ err.errorCode = errorThreadInterruped := by
  have h : Reached (· = .new) (OrderlyStep storesError) _ :=
    .step (.step (.step (.step (.step (.start rfl)
      ⟨.start true, trivial, Or.inr (Or.inr ⟨rfl, rfl⟩), rfl⟩) ⟨.interrupt, trivial, trivial, rfl⟩)
      ⟨.workerReturn 0 none, rfl, rfl, rfl⟩) ⟨.stop, rfl, trivial, rfl⟩)
      ⟨.stopJoined 0 none, ⟨rfl, rfl⟩, trivial, rfl⟩
  have hexited : Thread.exited none ∈ [Thread.exited none] := List.mem_singleton.mpr rfl
  obtain ⟨err, herr, hcode⟩ := (tells_of_orderly runsCycle_storesError h).ended rfl rfl hexited
  exact ⟨_, err, h, hexited, herr, hcode⟩

/-- A worker returns normally, then `stop()` returns: `pull` returns success. -/
theorem pull_of_ended : ∃ s, Reachable storesError s ∧ Thread.exited none ∈ s.threads ∧
    s.co.disposed = true ∧ s.co.stopping = false ∧ s.pull = none := by
  have h : Reachable storesError _ := .step (.step (.step (.step (.start rfl)
    ⟨.start true, trivial, rfl⟩) ⟨.workerReturn 0 none, rfl, rfl⟩) ⟨.stop, rfl, rfl⟩)
    ⟨.stopJoined 0 none, ⟨rfl, rfl⟩, rfl⟩
  exact ⟨_, h, List.mem_singleton.mpr rfl, rfl, rfl, rfl⟩

end Coroutine

end Ssms.App
