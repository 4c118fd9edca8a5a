import Ssms.Lib.Wrap
import Mathlib.Data.List.Basic
import Mathlib.Data.List.Induction
import Mathlib.Tactic.SplitIfs

/-!
# Rates of a counter (`SrsPps`, `srs_kernel_kbps.cpp`)

A counter is sampled over five windows. Each sample holds the counter and the clock of the call that
set it last; `srs_pps_init` sets it anew when it is fresh or the counter has fallen, and
`srs_pps_update` when its window is over. Counters and times are `int64_t`, a rate is an `int`, and
both wrap around. The `log` is the history of the refreshes and no part of the program.

* `samples_of_run`: whatever the counters and the clock do, each sample is that of a call, not above
  the counter, and younger than its window; a refresh never divides by zero.
* `rate_of_refresh_iff`: the rate of a refresh is exact, exactly if a thousand times the growth fits
  an `int64_t` and the rate fits an `int`.
-/

namespace Ssms.Kernel

open Ssms.Lib

/-- `SRS_UTIME_MILLISECONDS`, `SRS_UTIME_SECONDS`. -/
def srsUtimeMilliseconds : Int := 1000
def srsUtimeSeconds : Int := 1000000

/-- `srsu2ms(us)`. -/
def srsu2ms (us : Int) : Int := us.tdiv srsUtimeMilliseconds

/-- `SrsRateSample`. -/
structure SrsRateSample where
  total : Int
  time : Int
  rate : Int
deriving DecidableEq

namespace SrsRateSample

/-- The constructor. -/
def new : SrsRateSample := ⟨-1, -1, 0⟩

/-- `update(nn, t, k)`. -/
def update (_ : SrsRateSample) (nn t k : Int) : SrsRateSample := ⟨nn, t, k⟩

end SrsRateSample

/-- `srs_pps_init`. -/
def srsPpsInit (sample : SrsRateSample) (nn now : Int) : SrsRateSample :=
  if sample.time < 0 ∨ nn < sample.total then sample.update nn now 0 else sample

/-- `srs_pps_update`. -/
def srsPpsUpdate (sample : SrsRateSample) (nn now : Int) : SrsRateSample :=
  let pps := int32 ((int64 (int64 (nn - sample.total) * 1000)).tdiv
    (srsu2ms (int64 (now - sample.time))))
  let pps := if pps = 0 ∧ nn > sample.total then 1 else pps
  sample.update nn now pps

/-- A call of `update(nn)` with an `int64_t` counter, and what the clock says, which is not
negative. -/
structure Call where
  nn : Int
  now : Int
  nn_int64 : -2 ^ 63 ≤ nn ∧ nn < 2 ^ 63
  now_int64 : 0 ≤ now ∧ now < 2 ^ 63

/-- A call of `srs_pps_update`: the window of the sample, its arguments, and the sample after it. -/
structure Refresh where
  window : Int
  sample : SrsRateSample
  nn : Int
  now : Int
  stored : SrsRateSample
deriving DecidableEq

/-- `if (now - sample.time >= window) srs_pps_update(sample, nn, now)`. -/
def refresh (window : Int) (c : Call) (sample : SrsRateSample) : List Refresh × SrsRateSample :=
  if int64 (c.now - sample.time) ≥ window then
    let stored := srsPpsUpdate sample c.nn c.now
    ([⟨window, sample, c.nn, c.now, stored⟩], stored)
  else ([], sample)

/-- The samples of `SrsPps`. -/
structure SrsPps where
  sample10s : SrsRateSample
  sample30s : SrsRateSample
  sample1m : SrsRateSample
  sample5m : SrsRateSample
  sample60m : SrsRateSample
  log : List Refresh

namespace SrsPps

/-- The constructor. -/
def new : SrsPps := ⟨.new, .new, .new, .new, .new, []⟩

/-- `update(nn)`. -/
def update (p : SrsPps) (c : Call) : SrsPps :=
  let sample10s := srsPpsInit p.sample10s c.nn c.now
  let sample30s := srsPpsInit p.sample30s c.nn c.now
  let sample1m := srsPpsInit p.sample1m c.nn c.now
  let sample5m := srsPpsInit p.sample5m c.nn c.now
  let sample60m := srsPpsInit p.sample60m c.nn c.now
  let (log10s, sample10s) := refresh (10 * srsUtimeSeconds) c sample10s
  let (log30s, sample30s) := refresh (30 * srsUtimeSeconds) c sample30s
  let (log1m, sample1m) := refresh (60 * srsUtimeSeconds) c sample1m
  let (log5m, sample5m) := refresh (300 * srsUtimeSeconds) c sample5m
  let (log60m, sample60m) := refresh (3600 * srsUtimeSeconds) c sample60m
  ⟨sample10s, sample30s, sample1m, sample5m, sample60m,
    p.log ++ log10s ++ log30s ++ log1m ++ log5m ++ log60m⟩

/-- The sampler after calls of `update`. -/
def run (calls : List Call) : SrsPps := calls.foldl update new

/-- Each sample with its window. -/
def samples (p : SrsPps) : List (Int × SrsRateSample) :=
  [(10 * srsUtimeSeconds, p.sample10s), (30 * srsUtimeSeconds, p.sample30s),
    (60 * srsUtimeSeconds, p.sample1m), (300 * srsUtimeSeconds, p.sample5m),
    (3600 * srsUtimeSeconds, p.sample60m)]

theorem run_concat (calls : List Call) (c : Call) : run (calls ++ [c]) = (run calls).update c := by
  simp [run]

end SrsPps

/-! ## One sample -/

/-- What a call does to one sample. -/
def SrsRateSample.step (window : Int) (c : Call) (sample : SrsRateSample) :
    List Refresh × SrsRateSample :=
  refresh window c (srsPpsInit sample c.nn c.now)

namespace SrsPps

/-- A call does the same to each sample, with its own window. -/
theorem samples_update (p : SrsPps) (c : Call) :
    (p.update c).samples = p.samples.map fun e => (e.1, (e.2.step e.1 c).2) := rfl

theorem log_update (p : SrsPps) (c : Call) :
    (p.update c).log = p.log ++ p.samples.flatMap fun e => (e.2.step e.1 c).1 := by
  simp [update, samples, SrsRateSample.step]

/-- Every window is at least ten seconds. -/
theorem le_window {p : SrsPps} {e : Int × SrsRateSample} (he : e ∈ p.samples) :
    10 * srsUtimeSeconds ≤ e.1 := by
  simp only [samples, List.mem_cons, List.not_mem_nil, or_false] at he
  rcases he with rfl | rfl | rfl | rfl | rfl <;> simp [srsUtimeSeconds]

end SrsPps

/-- The sample is that of a call. -/
def SrsRateSample.IsOf (calls : List Call) (s : SrsRateSample) : Prop :=
  ∃ c ∈ calls, s.total = c.nn ∧ s.time = c.now

/-- A sample that a call can find: fresh, or that of an earlier call. -/
def SrsRateSample.Known (calls : List Call) (s : SrsRateSample) : Prop :=
  s.time < 0 ∨ s.IsOf calls

theorem SrsRateSample.IsOf.concat {calls : List Call} {s : SrsRateSample} (h : s.IsOf calls)
    (c : Call) : s.IsOf (calls ++ [c]) := by
  obtain ⟨c', hc', hs⟩ := h
  exact ⟨c', List.mem_append_left _ hc', hs⟩

/-- What holds of a sample in a call once `srs_pps_init` has seen it. -/
structure Ready (calls : List Call) (c : Call) (s : SrsRateSample) : Prop where
  isOf : s.IsOf (calls ++ [c])
  total_le : s.total ≤ c.nn
  time_nonneg : 0 ≤ s.time

theorem ready_of_call (calls : List Call) (c : Call) (rate : Int) :
    Ready calls c ⟨c.nn, c.now, rate⟩ where
  isOf := ⟨c, by simp, rfl, rfl⟩
  total_le := le_refl _
  time_nonneg := c.now_int64.1

theorem ready_init {calls : List Call} {c : Call} {s : SrsRateSample} (h : s.Known calls) :
    Ready calls c (srsPpsInit s c.nn c.now) := by
  unfold srsPpsInit
  by_cases hset : s.time < 0 ∨ c.nn < s.total
  · rw [if_pos hset]
    exact ready_of_call calls c 0
  · rw [if_neg hset]
    rw [not_or, not_lt, not_lt] at hset
    exact ⟨(h.resolve_left (not_lt.mpr hset.1)).concat c, hset.2, hset.1⟩

/-- The time since a sample does not wrap around. -/
theorem Ready.elapsed {calls : List Call} {c : Call} {s : SrsRateSample} (h : Ready calls c s) :
    int64 (c.now - s.time) = c.now - s.time := by
  have htime : s.time < 2 ^ 63 := by
    obtain ⟨c', -, -, hs⟩ := h.isOf
    rw [hs]
    exact c'.now_int64.2
  have hnow := c.now_int64
  have := h.time_nonneg
  exact wrap_eq_self (by omega) (by omega)

/-- What holds of a refresh. -/
structure Refresh.Sound (calls : List Call) (r : Refresh) : Prop where
  stored : r.stored = srsPpsUpdate r.sample r.nn r.now
  isOf : r.sample.IsOf calls
  call : ∃ c ∈ calls, r.nn = c.nn ∧ r.now = c.now
  total_le : r.sample.total ≤ r.nn
  time_nonneg : 0 ≤ r.sample.time
  elapsed : int64 (r.now - r.sample.time) = r.now - r.sample.time
  window : 10 * srsUtimeSeconds ≤ r.window ∧ r.window ≤ r.now - r.sample.time

theorem Refresh.Sound.concat {calls : List Call} {r : Refresh} (h : r.Sound calls) (c : Call) :
    r.Sound (calls ++ [c]) := by
  obtain ⟨c', hc', hr⟩ := h.call
  exact { h with isOf := h.isOf.concat c, call := ⟨c', List.mem_append_left _ hc', hr⟩ }

/-- **One call and one sample.** -/
theorem step_spec {calls : List Call} {s : SrsRateSample} (h : s.Known calls) (c : Call)
    {window : Int} (hwindow : 10 * srsUtimeSeconds ≤ window) :
    (Ready calls c (s.step window c).2 ∧ c.now - (s.step window c).2.time < window) ∧
      ∀ r ∈ (s.step window c).1, r.Sound (calls ++ [c]) := by
  have hready := ready_init (c := c) h
  have helapsed := hready.elapsed
  unfold SrsRateSample.step refresh
  generalize srsPpsInit s c.nn c.now = s' at hready helapsed ⊢
  by_cases hover : int64 (c.now - s'.time) ≥ window
  · rw [if_pos hover]
    have hpos : 0 < window := lt_of_lt_of_le (by simp [srsUtimeSeconds]) hwindow
    refine ⟨⟨ready_of_call calls c _, ?_⟩, ?_⟩
    · show c.now - c.now < window
      omega
    · intro r hr
      obtain rfl := List.mem_singleton.mp hr
      exact ⟨rfl, hready.isOf, ⟨c, by simp, rfl, rfl⟩, hready.total_le, hready.time_nonneg,
        helapsed, hwindow, helapsed ▸ hover⟩
  · rw [if_neg hover]
    refine ⟨⟨hready, ?_⟩, by simp⟩
    rw [helapsed] at hover
    exact not_le.mp hover

/-! ## Runs -/

namespace SrsPps

/-- **What holds after every call.** -/
theorem run_spec (calls : List Call) :
    (∀ e ∈ (run calls).samples, e.2.Known calls) ∧ ∀ r ∈ (run calls).log, r.Sound calls := by
  induction calls using List.reverseRecOn with
  | nil =>
    refine ⟨fun e he => Or.inl ?_, by simp [run, new]⟩
    simp only [run, List.foldl_nil, samples, List.mem_cons, List.not_mem_nil, or_false] at he
    rcases he with rfl | rfl | rfl | rfl | rfl <;> simp [new, SrsRateSample.new]
  | append_singleton calls c ih =>
    obtain ⟨hsamples, hlog⟩ := ih
    rw [run_concat]
    constructor
    · rw [samples_update]
      intro e he
      obtain ⟨e', he', rfl⟩ := List.mem_map.mp he
      exact Or.inr (step_spec (hsamples e' he') c (le_window he')).1.1.isOf
    · rw [log_update]
      intro r hr
      rcases List.mem_append.mp hr with hr | hr
      · exact (hlog r hr).concat c
      · obtain ⟨e, he, hr⟩ := List.mem_flatMap.mp hr
        exact (step_spec (hsamples e he) c (le_window he)).2 r hr

/-- **Any counter and any clock.** After the last call `c` of a run, each sample has a total that is
at most the counter and a time that is not negative, those of one call, and is younger than its
window; every refresh came after its window, and its divisor is positive. -/
theorem samples_of_run (calls : List Call) (c : Call) :
    (∀ e ∈ (run (calls ++ [c])).samples, e.2.total ≤ c.nn ∧ 0 ≤ e.2.time ∧
      c.now - e.2.time < e.1 ∧ ∃ c' ∈ calls ++ [c], e.2.total = c'.nn ∧ e.2.time = c'.now) ∧
    ∀ r ∈ (run (calls ++ [c])).log, r.window ≤ r.now - r.sample.time ∧
      0 < srsu2ms (int64 (r.now - r.sample.time)) := by
  constructor
  · rw [run_concat, samples_update]
    intro e he
    obtain ⟨e', he', rfl⟩ := List.mem_map.mp he
    obtain ⟨⟨hready, hyoung⟩, -⟩ := step_spec ((run_spec calls).1 e' he') c (le_window he')
    exact ⟨hready.total_le, hready.time_nonneg, hyoung, hready.isOf⟩
  · intro r hr
    have hsound := (run_spec _).2 r hr
    refine ⟨hsound.window.2, ?_⟩
    have hlong : 10 * srsUtimeSeconds ≤ r.now - r.sample.time :=
      hsound.window.1.trans hsound.window.2
    rw [srsUtimeSeconds] at hlong
    rw [hsound.elapsed, srsu2ms, srsUtimeMilliseconds, Int.tdiv_eq_ediv_of_nonneg (by omega)]
    omega

end SrsPps

/-! ## The rate of a refresh -/

namespace Refresh

/-- How much the counter grew since the sample. -/
def growth (r : Refresh) : Int := r.nn - r.sample.total

/-- The milliseconds since the sample. -/
def elapsed (r : Refresh) : Int := (r.now - r.sample.time) / 1000

/-- The growth per second, and one for less than that. -/
def exactRate (r : Refresh) : Int :=
  if r.growth * 1000 / r.elapsed = 0 ∧ 0 < r.growth then 1 else r.growth * 1000 / r.elapsed

end Refresh

/-- A product that has wrapped around gives a smaller quotient. -/
theorem int32_tdiv_lt {p e : Int} (hp : 2 ^ 63 ≤ p) (he : 0 < e) (hle : 1000 * e ≤ 2 ^ 63)
    (hq : p / e < 2 ^ 31) : int32 ((int64 p).tdiv e) < p / e := by
  obtain ⟨k, hk⟩ := wrap_eq_sub 63 p
  obtain ⟨hlow, hhigh⟩ := wrap_range 63 p
  have hthousand : 1000 ≤ p / e := Int.le_ediv_of_mul_le he (hle.trans hp)
  show int32 ((wrap 63 p).tdiv e) < p / e
  generalize wrap 63 p = m at hk hlow hhigh ⊢
  by_cases hm : 0 ≤ m
  · -- at least the modulus, which is more than `e`, is missing
    have hless : (m + 1 * e) / e ≤ p / e := Int.ediv_le_ediv he (by omega)
    rw [Int.add_mul_ediv_right m 1 he.ne'] at hless
    have hnonneg : 0 ≤ m / e := Int.ediv_nonneg hm he.le
    rw [Int.tdiv_eq_ediv_of_nonneg hm, int32, wrap_eq_self (by omega) (by omega)]
    omega
  · -- the quotient is not positive
    have hless : -m / e ≤ p / e := Int.ediv_le_ediv he (by omega)
    have hnonneg : 0 ≤ -m / e := Int.ediv_nonneg (by omega) he.le
    have hneg : m.tdiv e = -(-m / e) := by
      rw [← Int.tdiv_eq_ediv_of_nonneg (by omega : 0 ≤ -m), Int.neg_tdiv, neg_neg]
    rw [hneg, int32, wrap_eq_self (by omega) (by omega)]
    omega

/-- Neither the product nor the quotient wraps around. -/
theorem int32_tdiv_eq {p e : Int} (hp : 0 ≤ p) (hlt : p < 2 ^ 63) (he : 0 < e)
    (hq : p / e < 2 ^ 31) :
    int32 ((int64 p).tdiv e) = p / e := by
  have hnonneg : 0 ≤ p / e := Int.ediv_nonneg hp he.le
  rw [int64, wrap_eq_self (by omega) hlt, Int.tdiv_eq_ediv_of_nonneg hp, int32,
    wrap_eq_self (by omega) hq]

/-- **When the rate is exact.** -/
theorem raised_eq_iff {d e : Int} (hd : 0 ≤ d) (he : 0 < e) (hle : 1000 * e ≤ 2 ^ 63) :
    (if int32 ((int64 (d * 1000)).tdiv e) = 0 ∧ 0 < d then 1
      else int32 ((int64 (d * 1000)).tdiv e)) =
      (if d * 1000 / e = 0 ∧ 0 < d then 1 else d * 1000 / e) ↔
    d * 1000 < 2 ^ 63 ∧ d * 1000 / e < 2 ^ 31 := by
  by_cases hfits : d * 1000 < 2 ^ 63 ∧ d * 1000 / e < 2 ^ 31
  · rw [int32_tdiv_eq (by omega) hfits.1 he hfits.2]
    exact iff_of_true rfl hfits
  · refine iff_of_false ?_ hfits
    have hless : int32 ((int64 (d * 1000)).tdiv e) < d * 1000 / e ∧ 1 < d * 1000 / e := by
      by_cases hq : d * 1000 / e < 2 ^ 31
      · have hp : 2 ^ 63 ≤ d * 1000 := by omega
        have hthousand : 1000 ≤ d * 1000 / e := Int.le_ediv_of_mul_le he (hle.trans hp)
        exact ⟨int32_tdiv_lt hp he hle hq, by omega⟩
      · have := (wrap_range 31 ((int64 (d * 1000)).tdiv e)).2
        exact ⟨by rw [int32]; omega, by omega⟩
    split_ifs <;> omega

/-- **The rate of a refresh is exact, exactly if a thousand times the growth fits an `int64_t` and
the rate fits an `int`.** -/
theorem rate_of_refresh_iff (calls : List Call) (hnn : ∀ c ∈ calls, 0 ≤ c.nn) (r : Refresh)
    (hr : r ∈ (SrsPps.run calls).log) :
    r.stored.rate = r.exactRate ↔
      r.growth * 1000 < 2 ^ 63 ∧ r.growth * 1000 / r.elapsed < 2 ^ 31 := by
  have hsound := (SrsPps.run_spec calls).2 r hr
  obtain ⟨c, hc, hcall⟩ := hsound.call
  obtain ⟨c', hc', hsample⟩ := hsound.isOf
  have htotal : 0 ≤ r.sample.total := hsample.1 ▸ hnn c' hc'
  have hcounter := c.nn_int64
  have hclock := c.now_int64
  have hgrowth : int64 (r.nn - r.sample.total) = r.growth := by
    have := hsound.total_le
    exact wrap_eq_self (by omega) (by omega)
  have hwindow := hsound.window
  rw [srsUtimeSeconds] at hwindow
  have helapsed : srsu2ms (int64 (r.now - r.sample.time)) = r.elapsed := by
    rw [hsound.elapsed, srsu2ms, Int.tdiv_eq_ediv_of_nonneg (by omega)]
    rfl
  have hpositive : 0 < r.elapsed ∧ 1000 * r.elapsed ≤ 2 ^ 63 := by
    have := hsound.time_nonneg
    unfold Refresh.elapsed
    omega
  have hgrows : r.nn > r.sample.total ↔ 0 < r.growth := by
    unfold Refresh.growth
    omega
  have hrate : r.stored.rate =
      if int32 ((int64 (r.growth * 1000)).tdiv r.elapsed) = 0 ∧ 0 < r.growth
      then 1 else int32 ((int64 (r.growth * 1000)).tdiv r.elapsed) := by
    rw [hsound.stored, srsPpsUpdate, hgrowth, helapsed]
    simp only [hgrows, SrsRateSample.update]
  rw [hrate, Refresh.exactRate]
  refine raised_eq_iff ?_ hpositive.1 hpositive.2
  have := hsound.total_le
  unfold Refresh.growth
  omega

/-- Two calls, ten seconds apart. -/
def twoCalls (growth : Int) (h : 0 ≤ growth ∧ growth < 2 ^ 63) : List Call :=
  [⟨0, 0, by decide, by decide⟩, ⟨growth, 10000000, by omega, by decide⟩]

/-- A growth of 25 in ten seconds is a rate of 2. -/
theorem rate_of_refresh_25 :
    (2 : Int) = Refresh.exactRate ⟨10000000, ⟨0, 0, 0⟩, 25, 10000000, ⟨25, 10000000, 2⟩⟩ :=
  (rate_of_refresh_iff (twoCalls 25 (by decide)) (by simp [twoCalls])
    ⟨10000000, ⟨0, 0, 0⟩, 25, 10000000, ⟨25, 10000000, 2⟩⟩ (by decide)).mpr (by decide)

/-- A growth of `2 ^ 31 * 10` in ten seconds, `2 ^ 31` a second, is stored as `-2 ^ 31`. -/
theorem rate_wraps :
    (SrsPps.run (twoCalls 21474836480 (by decide))).sample10s =
      ⟨21474836480, 10000000, -2147483648⟩ ∧
      21474836480 * 1000 / (10000000 / 1000) = (2147483648 : Int) := by
  decide

end Ssms.Kernel
