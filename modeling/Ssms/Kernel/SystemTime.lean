import Ssms.Lib.Run
import Mathlib.Algebra.Order.Ring.Int
import Mathlib.Data.List.Chain
import Mathlib.Data.List.Induction
import Mathlib.Tactic.SplitIfs

/-!
# The system time (`srs_kernel_utility.cpp`)

Two globals, the cached time and the startup time, in microseconds. A reading is what
`_srs_gettimeofday` gives, or nothing when it fails. Times are integers, which are those of an
`int64_t` as long as no reading goes back.

* `inRange_of_isChain`: where the readings fit in 64 bits and none goes back, everything that is
  stored fits.

* `steady_iff`: the uptime, cached time less startup time, is never negative, never falls and is not
  moved by a jump, exactly if no reading goes back; `steady_not_back` are two readings where one
  does.
-/

namespace Ssms.Kernel

open Ssms.Lib.Run

/-- `srs_max`. -/
def srsMax (a b : Int) : Int := if a < b then b else a

/-- `SYS_TIME_RESOLUTION_US`. -/
def sysTimeResolutionUs : Int := 300 * 1000

/-- `timeval`. -/
structure Timeval where
  tvSec : Int
  tvUsec : Int

/-- `now_us`. -/
def Timeval.micros (now : Timeval) : Int := now.tvSec * 1000 * 1000 + now.tvUsec

/-- `_srs_system_time_us_cache` and `_srs_system_time_startup_time`. -/
structure SystemTime where
  usCache : Int
  startupTime : Int

namespace SystemTime

/-- The globals before the first call. -/
def new : SystemTime := ⟨0, 0⟩

/-- `srs_update_system_time`. -/
def srsUpdateSystemTime (reading : Option Timeval) (s : SystemTime) : Int × SystemTime :=
  match reading with
  | none => (-1, s)
  | some now =>
    let nowUs := now.micros
    if s.usCache ≤ 0 then (nowUs, ⟨nowUs, nowUs⟩)
    else
      let diff := srsMax 0 (nowUs - s.usCache)
      let startupTime :=
        if diff < 0 ∨ diff > 1000 * sysTimeResolutionUs then s.startupTime + diff else s.startupTime
      (nowUs, ⟨nowUs, startupTime⟩)

/-- `srs_get_system_time`, where a reading is taken if the cache is not set. -/
def srsGetSystemTime (reading : Option Timeval) (s : SystemTime) : Int × SystemTime :=
  let s := if s.usCache ≤ 0 then (s.srsUpdateSystemTime reading).2 else s
  (s.usCache, s)

/-- The server's uptime. -/
def uptime (s : SystemTime) : Int := s.usCache - s.startupTime

/-- The globals after updates with these readings. -/
def run (readings : List (Option Timeval)) : SystemTime :=
  readings.foldl (fun s reading => (s.srsUpdateSystemTime reading).2) new

/-- An update whose uptime is not negative and has not fallen, and that a jump of more than 300
seconds did not move. -/
structure Steady (s : SystemTime) (reading : Option Timeval) : Prop where
  nonneg : 0 ≤ (s.srsUpdateSystemTime reading).2.uptime
  mono : s.uptime ≤ (s.srsUpdateSystemTime reading).2.uptime
  jump : ∀ now, reading = some now → 300 * 1000000 < (now.micros - s.usCache).natAbs →
    (s.srsUpdateSystemTime reading).2.uptime = s.uptime

/-- The times that are stored are `int64_t`s. -/
structure InRange (s : SystemTime) : Prop where
  startup : 0 ≤ s.startupTime
  cache : s.startupTime ≤ s.usCache
  lt : s.usCache < 2 ^ 63

/-! ## One update -/

theorem update_first {s : SystemTime} (h : s.usCache ≤ 0) (now : Timeval) :
    (s.srsUpdateSystemTime (some now)).2 = ⟨now.micros, now.micros⟩ := by
  simp [srsUpdateSystemTime, h]

theorem update_usCache (s : SystemTime) (now : Timeval) :
    (s.srsUpdateSystemTime (some now)).2.usCache = now.micros := by
  unfold srsUpdateSystemTime
  by_cases h : s.usCache ≤ 0 <;> simp [h]

/-- A reading that does not go back: the uptime grows by the difference, or not at all by a jump. -/
theorem uptime_update_forward {s : SystemTime} (h : 0 < s.usCache) {now : Timeval}
    (hle : s.usCache ≤ now.micros) :
    (s.srsUpdateSystemTime (some now)).2.uptime =
      if 300 * 1000000 < now.micros - s.usCache then s.uptime
      else s.uptime + (now.micros - s.usCache) := by
  have hdiff : srsMax 0 (now.micros - s.usCache) = now.micros - s.usCache := by
    unfold srsMax
    split_ifs <;> omega
  simp only [srsUpdateSystemTime, if_neg (Int.not_le.mpr h), hdiff, sysTimeResolutionUs, uptime]
  by_cases hjump : 300 * 1000000 < now.micros - s.usCache
  · rw [if_pos hjump, if_pos (by omega)]
    omega
  · rw [if_neg hjump, if_neg (by omega)]
    omega

/-- A reading that goes back: the difference is cut to zero before it is looked at. -/
theorem uptime_update_back {s : SystemTime} (h : 0 < s.usCache) {now : Timeval}
    (hlt : now.micros < s.usCache) :
    (s.srsUpdateSystemTime (some now)).2.uptime = s.uptime - (s.usCache - now.micros) := by
  have hdiff : srsMax 0 (now.micros - s.usCache) = 0 := if_neg (by omega)
  simp only [srsUpdateSystemTime, if_neg (Int.not_le.mpr h), hdiff, sysTimeResolutionUs, uptime]
  rw [if_neg (by omega)]
  omega

/-- A reading that does not go back and fits in 64 bits: so does what is stored. -/
theorem InRange.update {s : SystemTime} (h : s.InRange) {now : Timeval}
    (hle : s.usCache ≤ now.micros)
    (hfits : now.micros < 2 ^ 63) : (s.srsUpdateSystemTime (some now)).2.InRange := by
  have hstartup := h.startup
  have hcache := h.cache
  by_cases hfirst : s.usCache ≤ 0
  · have hnow : 0 ≤ now.micros := by omega
    rw [update_first hfirst]
    exact ⟨hnow, Int.le_refl _, hfits⟩
  · have hup := uptime_update_forward (Int.not_le.mp hfirst) hle
    have hnow := update_usCache s now
    unfold uptime at hup
    refine ⟨?_, ?_, hnow.trans_lt hfits⟩ <;> split_ifs at hup <;> omega

/-- **An update is steady exactly if its reading does not go back.** -/
theorem steady_some_iff {s : SystemTime} (hs : 0 ≤ s.uptime) (hfirst : s.usCache ≤ 0 → s = new)
    {now : Timeval} (hpos : 0 < now.micros) :
    Steady s (some now) ↔ s.usCache ≤ now.micros := by
  by_cases h : s.usCache ≤ 0
  · obtain rfl := hfirst h
    refine iff_of_true ⟨?_, ?_, ?_⟩ (by omega) <;> simp [update_first, uptime, new]
  · have hcache : 0 < s.usCache := by omega
    by_cases hle : s.usCache ≤ now.micros
    · refine iff_of_true ?_ hle
      have hup := uptime_update_forward hcache hle
      refine ⟨?_, ?_, ?_⟩
      · rw [hup]
        split_ifs <;> omega
      · rw [hup]
        split_ifs <;> omega
      · rintro _ ⟨⟩ hjump
        rw [hup, if_pos (by omega)]
    · refine iff_of_false (fun hsteady => ?_) hle
      have hmono := hsteady.mono
      rw [uptime_update_back hcache (by omega)] at hmono
      omega

/-! ## A sequence of updates -/

/-- The readings that did not fail. -/
def times (readings : List (Option Timeval)) : List Int :=
  readings.filterMap (·.map Timeval.micros)

theorem run_concat (readings : List (Option Timeval)) (reading : Option Timeval) :
    run (readings ++ [reading]) = ((run readings).srsUpdateSystemTime reading).2 := by
  simp [run]

theorem times_concat_none (readings : List (Option Timeval)) :
    times (readings ++ [none]) = times readings := by
  simp [times]

theorem times_concat_some (readings : List (Option Timeval)) (now : Timeval) :
    times (readings ++ [some now]) = times readings ++ [now.micros] := by
  simp [times]

/-- The cache is the last reading that did not fail. -/
theorem run_cases (readings : List (Option Timeval)) :
    times readings = [] ∧ run readings = new ∨
      (times readings).getLast? = some (run readings).usCache := by
  induction readings using List.reverseRecOn with
  | nil => exact .inl ⟨rfl, rfl⟩
  | append_singleton readings reading ih =>
    cases reading with
    | none =>
      rw [times_concat_none, run_concat]
      exact ih
    | some now =>
      right
      rw [times_concat_some, run_concat, update_usCache]
      simp

theorem times_pos {readings : List (Option Timeval)}
    (hpos : ∀ now, some now ∈ readings → 0 < now.micros) : ∀ t ∈ times readings, 0 < t := by
  intro t ht
  obtain ⟨reading, hreading, hmap⟩ := List.mem_filterMap.mp ht
  obtain ⟨now, rfl, rfl⟩ := Option.map_eq_some_iff.mp hmap
  exact hpos now hreading

/-- **The times fit in 64 bits as long as no reading goes back.** -/
theorem inRange_of_isChain {readings : List (Option Timeval)}
    (hpos : ∀ now, some now ∈ readings → 0 < now.micros)
    (hfits : ∀ now, some now ∈ readings → now.micros < 2 ^ 63)
    (h : (times readings).IsChain (· ≤ ·)) : (run readings).InRange := by
  induction readings using List.reverseRecOn with
  | nil => exact ⟨Int.le_refl _, Int.le_refl _, by decide⟩
  | append_singleton readings reading ih =>
    have hih := ih (fun now h => hpos now (by simp [h])) fun now h => hfits now (by simp [h])
    rw [run_concat]
    cases reading with
    | none =>
      rw [times_concat_none] at h
      exact hih h
    | some now =>
      rw [times_concat_some, List.isChain_append] at h
      refine (hih h.1).update ?_ (hfits now (by simp))
      rcases run_cases readings with ⟨-, hrun⟩ | hlast
      · rw [hrun]
        exact Int.le_of_lt (hpos now (by simp))
      · exact h.2.2 _ hlast _ rfl

/-- Where every update was steady, the uptime is not negative. -/
theorem uptime_nonneg {readings : List (Option Timeval)}
    (h : Justified (fun before => Steady (run before)) readings) : 0 ≤ (run readings).uptime := by
  rcases List.eq_nil_or_concat readings with rfl | ⟨before, reading, rfl⟩
  · simp [run, new, uptime]
  · rw [List.concat_eq_append] at h ⊢
    rw [run_concat]
    exact (justified_concat_iff.mp h).2.nonneg

/-- **The uptime survives the clock exactly if no reading goes back**: at each update it is not
negative, has not fallen and is not moved by a jump. -/
theorem steady_iff {readings : List (Option Timeval)}
    (hpos : ∀ now, some now ∈ readings → 0 < now.micros) :
    Justified (fun before => Steady (run before)) readings ↔
      (times readings).IsChain (· ≤ ·) := by
  induction readings using List.reverseRecOn with
  | nil => exact iff_of_true justified_nil .nil
  | append_singleton readings reading ih =>
    have hih := ih fun now h => hpos now (by simp [h])
    rw [justified_concat_iff]
    cases reading with
    | none =>
      rw [times_concat_none, ← hih]
      refine and_iff_left_of_imp fun h => ⟨uptime_nonneg h, Int.le_refl _, ?_⟩
      intro now hnow
      cases hnow
    | some now =>
      rw [times_concat_some, List.isChain_append, ← hih]
      refine and_congr_right fun h => ?_
      have hnow := hpos now (by simp)
      rcases run_cases readings with ⟨htimes, hrun⟩ | hlast
      · rw [steady_some_iff (uptime_nonneg h) (fun _ => hrun) hnow, htimes, hrun]
        simpa [new] using Int.le_of_lt hnow
      · have hcache : 0 < (run readings).usCache :=
          times_pos (fun now h => hpos now (by simp [h])) _ (List.mem_of_getLast? hlast)
        rw [steady_some_iff (uptime_nonneg h) (fun hle => by omega) hnow, hlast]
        simp

/-- Two readings, and a failure between them. -/
theorem steady_iff_sample :
    Justified (fun before => Steady (run before)) [some ⟨5, 0⟩, none, some ⟨905, 7⟩] ↔
      (times [some ⟨5, 0⟩, none, some ⟨905, 7⟩]).IsChain (· ≤ ·) :=
  steady_iff (by simp [Timeval.micros])

/-- The clock is set back by ten minutes: the uptime falls, and below zero. -/
theorem steady_not_back :
    ¬ Justified (fun before => Steady (run before)) [some ⟨700, 0⟩, some ⟨100, 0⟩] := by
  intro h
  exact absurd (h [_] _ [] rfl).nonneg (by decide)

/-- `srs_get_system_time` is an update or nothing, so it adds no history of its own. -/
theorem getSystemTime_run (readings : List (Option Timeval)) (reading : Option Timeval) :
    ∃ more, ((run readings).srsGetSystemTime reading).2 = run (readings ++ more) := by
  unfold srsGetSystemTime
  by_cases h : (run readings).usCache ≤ 0
  · exact ⟨[reading], by simp [h, run_concat]⟩
  · exact ⟨[], by simp [h]⟩

end SystemTime

end Ssms.Kernel
