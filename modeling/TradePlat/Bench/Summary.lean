import Mathlib.Data.List.Dedup
import Mathlib.Data.List.MinMax
import TradePlat.Scorer.SlidingWindow

/-!
# Summaries of load tests (`run_loadtest.py`)

`summarize` reduces the samples of one run, `aggregate` the summaries of all runs, both
in rational arithmetic. A run none of whose samples has any throughput becomes a summary
with an error, and `aggregate` leaves those out. Both take their verdict on correctness
the same way (`verdict_eq_passed`), but a run that is left out takes its violations with
it (`latch_iff`).
-/

namespace TradePlat.Bench

/-! ## Arithmetic, as Python has it -/

/-- `round(x)`: to the nearest integer, to the even one of two. -/
def roundHalfEven (x : Rat) : Int :=
  let rest := x - ⌊x⌋
  if rest < 1 / 2 then ⌊x⌋
  else if 1 / 2 < rest then ⌊x⌋ + 1
  else if ⌊x⌋ % 2 = 0 then ⌊x⌋ else ⌊x⌋ + 1

/-- `round(x, digits)`. -/
def roundTo (digits : Nat) (x : Rat) : Rat := roundHalfEven (x * 10 ^ digits) / 10 ^ digits

/-- `statistics.median`, of values that are there. -/
def median (values : List Rat) : Rat :=
  let ordered := values.mergeSort (· ≤ ·)
  let half := ordered.length / 2
  if ordered.length % 2 = 1 then ordered.getD half 0
  else (ordered.getD (half - 1) 0 + ordered.getD half 0) / 2

/-- `statistics.median(values) if values else 0`. -/
def medianOrZero (values : List Rat) : Rat := if values = [] then 0 else median values

/-- `max(values) if values else 0`. -/
def maxOrZero (values : List Rat) : Rat := values.max?.getD 0

/-! ## One run -/

/-- A sample of the scoring engine. `none` is a key that is not there, or no number. -/
structure Sample where
  tps : Option Rat
  p50LatUs : Option Rat
  p90LatUs : Option Rat
  p99LatUs : Option Rat
  correctness : Option String
  totalEvents : Option Int
  deriving DecidableEq

/-- The counters of the fleet. `none` is a key that is not there. -/
structure FleetTotals where
  sent : Option Int
  drops : Option Int
  fails : Option Int
  deriving DecidableEq

/-- The arguments of `summarize`. -/
structure Run where
  samples : List Sample
  fleetOps : List Rat
  fleetTotals : FleetTotals
  deriving DecidableEq

/-- The summary of a run, with its figures. -/
structure Figures where
  sampleCount : Nat
  underLoadSampleCount : Nat
  idleSamplesExcluded : Nat
  steadyStateSampleCount : Nat
  scoringBacklogAtStart : Int
  engineTpsMedian : Rat
  engineTpsPeak : Rat
  p50LatUs : Rat
  p90LatUs : Rat
  p99LatUs : Rat
  p99WorstUs : Rat
  correctness : String
  tradeEventsThisRun : Int
  steadyStateScore : Rat
  fleetSendOpsMedian : Rat
  fleetOrdersSent : Int
  fleetDrops : Int
  fleetFails : Int
  deriving DecidableEq

inductive Summary where
  | error (error : String) (sampleCount : Nat)
  | figures (figures : Figures)
  deriving DecidableEq

/-- `sorted({…} - {"PASSED", None})`. -/
def violations (marks : List (Option String)) : List String :=
  (((marks.filterMap id).dedup).filter (· ≠ "PASSED")).mergeSort (· ≤ ·)

/-- `violations[0] if violations else "PASSED"`. -/
def verdict (marks : List (Option String)) : String := (violations marks).headD "PASSED"

/-- `s.get("tps", 0) > 0`. -/
def Sample.UnderLoad (s : Sample) : Prop := s.tps.getD 0 > 0

instance (s : Sample) : Decidable s.UnderLoad := inferInstanceAs (Decidable (_ > _))

/-- `WARMUP_FRACTION`. -/
def warmupFraction : Rat := 1 / 4

/-- The figures of a run with the given samples under load. -/
def figures (run : Run) (underLoad : List Sample) : Figures :=
  let warmup := ⌊(underLoad.length : Rat) * warmupFraction⌋.toNat
  let steady := if underLoad.drop warmup = [] then underLoad else underLoad.drop warmup
  let tps := steady.filterMap Sample.tps
  let p99 := steady.filterMap Sample.p99LatUs
  let medTps := medianOrZero tps
  let medP99 := medianOrZero p99
  let totals := run.samples.map fun s => s.totalEvents.getD 0
  { sampleCount := run.samples.length
    underLoadSampleCount := underLoad.length
    idleSamplesExcluded := run.samples.length - underLoad.length
    steadyStateSampleCount := steady.length
    scoringBacklogAtStart := totals.min?.getD 0
    engineTpsMedian := roundTo 2 medTps
    engineTpsPeak := roundTo 2 (maxOrZero tps)
    p50LatUs := roundTo 2 (medianOrZero (steady.filterMap Sample.p50LatUs))
    p90LatUs := roundTo 2 (medianOrZero (steady.filterMap Sample.p90LatUs))
    p99LatUs := roundTo 2 medP99
    p99WorstUs := roundTo 2 (maxOrZero p99)
    correctness := verdict (run.samples.map Sample.correctness)
    tradeEventsThisRun := totals.max?.getD 0 - totals.min?.getD 0
    steadyStateScore := roundTo 4 (if medTps ≠ 0 then medTps / max medP99 (1 / 10) else 0)
    fleetSendOpsMedian := roundTo 2 (medianOrZero run.fleetOps)
    fleetOrdersSent := run.fleetTotals.sent.getD 0
    fleetDrops := run.fleetTotals.drops.getD 0
    fleetFails := run.fleetTotals.fails.getD 0 }

/-- `summarize`. -/
def summarize (run : Run) : Summary :=
  if run.samples = [] then .error "no scoring samples captured" 0
  else
    let underLoad := run.samples.filter (·.UnderLoad)
    if underLoad = [] then .error "no samples recorded any throughput" run.samples.length
    else .figures (figures run underLoad)

/-! ## All runs -/

/-- The keys of `AGGREGATED`, with their values. -/
def aggregated : List (String × (Figures → Rat)) :=
  [("engine_tps_median", Figures.engineTpsMedian), ("engine_tps_peak", Figures.engineTpsPeak),
    ("p50_lat_us", Figures.p50LatUs), ("p90_lat_us", Figures.p90LatUs),
    ("p99_lat_us", Figures.p99LatUs), ("p99_worst_us", Figures.p99WorstUs),
    ("fleet_send_ops_median", Figures.fleetSendOpsMedian),
    ("trade_events_this_run", fun r => r.tradeEventsThisRun)]

structure Stats where
  min : Rat
  median : Rat
  max : Rat
  spreadRatio : Option Rat
  deriving DecidableEq

/-- The statistics of one key over the runs that have figures. -/
def stats (values : List Rat) : Stats :=
  let low := values.min?.getD 0
  let high := values.max?.getD 0
  { min := roundTo 2 low
    median := roundTo 2 (Bench.median values)
    max := roundTo 2 high
    spreadRatio := if low > 0 then some (roundTo 2 (high / low)) else none }

inductive Aggregate where
  | error (error : String) (runs : Nat)
  | completed (runsCompleted runsAttempted : Nat) (correctness : String)
      (totalFleetDrops totalFleetFails : Int) (metrics : List (String × Stats))
  deriving DecidableEq

/-- `"error" not in r`. -/
def Summary.good : Summary → Option Figures
  | .error _ _ => none
  | .figures r => some r

/-- `aggregate`. -/
def aggregate (runSummaries : List Summary) : Aggregate :=
  let good := runSummaries.filterMap Summary.good
  if good = [] then .error "every run failed" runSummaries.length
  else
    .completed good.length runSummaries.length (verdict (good.map fun r => some r.correctness))
      (good.map Figures.fleetDrops).sum (good.map Figures.fleetFails).sum
      (aggregated.map fun key => (key.1, stats (good.map key.2)))

/-- `agg.get("correctness")`. -/
def Aggregate.correctness : Aggregate → Option String
  | .error _ _ => none
  | .completed _ _ correctness _ _ _ => some correctness

/-! ## The latch -/

/-- A value other than `PASSED` or a missing one. -/
def Violation (mark : Option String) : Prop := mark ≠ none ∧ mark ≠ some "PASSED"

instance (mark : Option String) : Decidable (Violation mark) :=
  inferInstanceAs (Decidable (_ ∧ _))

theorem mem_violations {marks : List (Option String)} {v : String} :
    v ∈ violations marks ↔ some v ∈ marks ∧ v ≠ "PASSED" := by
  simp [violations]

/-- **A verdict is a latch.** It passes exactly where no mark is a violation. -/
theorem verdict_eq_passed {marks : List (Option String)} :
    verdict marks = "PASSED" ↔ ∀ m ∈ marks, ¬ Violation m := by
  have hmem : (∀ m ∈ marks, ¬ Violation m) ↔ ∀ v, v ∉ violations marks := by
    constructor
    · intro h v hv
      obtain ⟨hmark, hne⟩ := mem_violations.mp hv
      exact h _ hmark ⟨Option.some_ne_none v, fun heq => hne (Option.some.inj heq)⟩
    · rintro h (_ | v) hm ⟨hnone, hpassed⟩
      · exact hnone rfl
      · exact h v (mem_violations.mpr ⟨hm, fun heq => hpassed (congrArg some heq)⟩)
  rw [hmem, verdict]
  cases hviolations : violations marks with
  | nil => simp
  | cons v vs =>
    have hv : v ∈ violations marks := by rw [hviolations]; exact List.mem_cons_self
    constructor
    · intro heq
      exact absurd heq (mem_violations.mp hv).2
    · intro h
      exact absurd List.mem_cons_self (h v)

/-- A run that has recorded some throughput. -/
def Run.Loaded (run : Run) : Prop := ∃ s ∈ run.samples, s.UnderLoad

/-- A run with a sample that violates correctness. -/
def Run.Violated (run : Run) : Prop := ∃ s ∈ run.samples, Violation s.correctness

/-- What becomes of the correctness of a run. -/
theorem summarize_good {run : Run} :
    (¬ run.Loaded → (summarize run).good = none) ∧
      (run.Loaded → ∃ r, (summarize run).good = some r ∧
        r.correctness = verdict (run.samples.map Sample.correctness)) := by
  have hfilter : run.samples.filter (·.UnderLoad) = [] ↔ ¬ run.Loaded := by
    simp [Run.Loaded, List.filter_eq_nil_iff]
  unfold summarize
  constructor
  · intro h
    split
    · rfl
    · simp only [hfilter.mpr h, if_true]
      rfl
  · intro h
    have hsamples : run.samples ≠ [] := by
      obtain ⟨s, hs, -⟩ := h
      exact List.ne_nil_of_mem hs
    have hload : run.samples.filter (·.UnderLoad) ≠ [] := fun hnil => hfilter.mp hnil h
    rw [if_neg hsamples]
    simp only [hload, if_false]
    exact ⟨_, rfl, rfl⟩

theorem exists_good_iff {runs : List Run} :
    (runs.map summarize).filterMap Summary.good ≠ [] ↔ ∃ run ∈ runs, run.Loaded := by
  rw [List.filterMap_map, Ne, List.filterMap_eq_nil_iff]
  constructor
  · intro h
    by_contra hnone
    refine h fun run hrun => summarize_good.1 fun hload => hnone ⟨run, hrun, hload⟩
  · rintro ⟨run, hrun, hload⟩ h
    obtain ⟨r, hr, -⟩ := summarize_good.2 hload
    rw [Function.comp_apply.symm.trans (h run hrun)] at hr
    cases hr

/-- The verdict over all runs is that over the runs with some throughput. -/
theorem aggregate_passed_iff {runs : List Run} (hgood : ∃ run ∈ runs, run.Loaded) :
    (aggregate (runs.map summarize)).correctness = some "PASSED" ↔
      ∀ run ∈ runs, run.Loaded → ¬ run.Violated := by
  have hpassed : ∀ run : Run, verdict (run.samples.map Sample.correctness) = "PASSED" ↔
      ¬ run.Violated := by
    intro run
    rw [verdict_eq_passed, List.forall_mem_map, Run.Violated]
    simp
  rw [aggregate]
  simp only [exists_good_iff.mpr hgood, if_false, Aggregate.correctness, Option.some.injEq]
  rw [verdict_eq_passed, List.forall_mem_map]
  constructor
  · intro h run hrun hload
    obtain ⟨r, hr, hcorrectness⟩ := summarize_good.2 hload
    have hmem : r ∈ (runs.map summarize).filterMap Summary.good :=
      List.mem_filterMap.mpr ⟨_, List.mem_map_of_mem hrun, hr⟩
    rw [← hpassed, ← hcorrectness]
    by_contra hne
    exact h r hmem ⟨Option.some_ne_none _, fun heq => hne (Option.some.inj heq)⟩
  · rintro h r hr ⟨-, hne⟩
    obtain ⟨summary, hsummary, hsome⟩ := List.mem_filterMap.mp hr
    obtain ⟨run, hrun, rfl⟩ := List.mem_map.mp hsummary
    by_cases hload : run.Loaded
    · obtain ⟨r', hr', hcorrectness⟩ := summarize_good.2 hload
      obtain rfl := Option.some.inj (hsome.symm.trans hr')
      rw [hcorrectness, (hpassed run).mpr (h run hrun hload)] at hne
      exact hne rfl
    · rw [summarize_good.1 hload] at hsome
      cases hsome

/-- **When the flag is a latch across runs.** For every list of runs, at least one of them
with figures: `PASSED` means that no sample of any run violates correctness, unless there
are violations and all of them are in runs without any throughput. -/
theorem latch_iff {runs : List Run} (hgood : ∃ run ∈ runs, (summarize run).good ≠ none) :
    ((aggregate (runs.map summarize)).correctness = some "PASSED" →
      ∀ run ∈ runs, ∀ s ∈ run.samples, ¬ Violation s.correctness) ↔
    ((∃ run ∈ runs, run.Violated) → ∃ run ∈ runs, run.Loaded ∧ run.Violated) := by
  have hloaded : ∃ run ∈ runs, run.Loaded := by
    obtain ⟨run, hrun, hsome⟩ := hgood
    by_contra hnone
    exact hsome (summarize_good.1 fun hload => hnone ⟨run, hrun, hload⟩)
  rw [aggregate_passed_iff hloaded]
  constructor
  · rintro hlatch ⟨run, hrun, s, hs, hviolation⟩
    by_contra hnone
    refine hlatch (fun run' hrun' hload hviolated => ?_) run hrun s hs hviolation
    exact hnone ⟨run', hrun', hload, hviolated⟩
  · intro hkept hpassed run hrun s hs hviolation
    obtain ⟨run', hrun', hload, hviolated⟩ := hkept ⟨run, hrun, s, hs, hviolation⟩
    exact hpassed run' hrun' hload hviolated

/-! ## Runs of the scoring engine -/

/-- The metrics as the scoring engine prints them and `harvest_scoring_samples` reads them. -/
def printed (m : Scorer.Metrics) : Sample where
  tps := some (roundTo 2 m.tps)
  p50LatUs := some (roundTo 2 m.p50LatUs)
  p90LatUs := some (roundTo 2 m.p90LatUs)
  p99LatUs := some (roundTo 2 m.p99LatUs)
  correctness := some m.correctness
  totalEvents := some m.totalEvents

/-- A contestant that is disqualified before its first accepted event prints a sample
without any throughput: a violation in it alone does not reach `aggregate`. -/
theorem disqualified_first {windowSeconds : Rat} {reason : String} (h : reason ≠ "PASSED")
    (now : Rat) :
    ∃ m, ({ Scorer.ContestantState.new windowSeconds with correctness := reason }.metrics now).2 =
        some m ∧ ¬ (printed m).UnderLoad ∧ Violation (printed m).correctness := by
  refine ⟨⟨0, 0, 0, 0, 0, reason, 0, 0, 0⟩, ?_, ?_, ?_⟩
  · simp [Scorer.ContestantState.metrics, Scorer.ContestantState.new, Scorer.ContestantState.prune,
      Scorer.latencyUs, h]
  · have hround : ¬ roundTo 2 0 > 0 := by decide +kernel
    exact hround
  · exact ⟨Option.some_ne_none _, fun heq => h (Option.some.inj heq)⟩

def idleSample : Sample := ⟨some 0, some 0, some 0, some 0, some "PASSED", some 0⟩

def loadedSample (correctness : String) : Sample :=
  ⟨some 900, some 12, some 30, some 55, some correctness, some 900⟩

/-- A run that is disqualified at once. -/
def zeroOrderIdRun : Run :=
  ⟨[idleSample, { idleSample with correctness := some "CRITICAL_ERR: ZERO_ORDER_ID" }],
    [10500], ⟨some 52000, some 0, some 0⟩⟩

def loadedRun (correctness : String) : Run :=
  ⟨[idleSample, loadedSample correctness], [11000], ⟨some 61000, some 0, some 0⟩⟩

theorem loadedRun_loaded (correctness : String) : (loadedRun correctness).Loaded :=
  ⟨loadedSample correctness, by simp [loadedRun], by
    simp only [Sample.UnderLoad, loadedSample, Option.getD_some]
    decide⟩

/-- A violation under load is kept, and with it that of the run without throughput. -/
theorem violation_under_load_kept :
    zeroOrderIdRun.Violated ∧
      ¬ (aggregate ([loadedRun "CRITICAL_ERR: SELF_MATCH", zeroOrderIdRun].map summarize)).correctness =
          some "PASSED" := by
  have hload := loadedRun_loaded "CRITICAL_ERR: SELF_MATCH"
  have hviolated : (loadedRun "CRITICAL_ERR: SELF_MATCH").Violated :=
    ⟨loadedSample "CRITICAL_ERR: SELF_MATCH", by simp [loadedRun], by decide +kernel⟩
  have hzero : zeroOrderIdRun.Violated := by
    unfold Run.Violated
    decide +kernel
  obtain ⟨r, hr, -⟩ := summarize_good.2 hload
  have hgood : ∃ run ∈ [loadedRun "CRITICAL_ERR: SELF_MATCH", zeroOrderIdRun],
      (summarize run).good ≠ none :=
    ⟨_, List.mem_cons_self, by rw [hr]; exact Option.some_ne_none r⟩
  have hlatch := (latch_iff hgood).mpr fun _ => ⟨_, List.mem_cons_self, hload, hviolated⟩
  refine ⟨hzero, fun hpassed => ?_⟩
  obtain ⟨s, hs, hviolation⟩ := hzero
  exact hlatch hpassed zeroOrderIdRun (by simp) s hs hviolation

/-- A violation before any throughput is lost: the other run makes the verdict. -/
theorem violation_before_load_lost :
    (∃ run ∈ [zeroOrderIdRun, loadedRun "PASSED"], (summarize run).good ≠ none) ∧
      ¬ ((aggregate ([zeroOrderIdRun, loadedRun "PASSED"].map summarize)).correctness =
          some "PASSED" →
        ∀ run ∈ [zeroOrderIdRun, loadedRun "PASSED"], ∀ s ∈ run.samples,
          ¬ Violation s.correctness) := by
  have hload := loadedRun_loaded "PASSED"
  have hunloaded : ¬ zeroOrderIdRun.Loaded := by
    unfold Run.Loaded
    decide +kernel
  have hclean : ¬ (loadedRun "PASSED").Violated := by
    unfold Run.Violated
    decide +kernel
  obtain ⟨r, hr, -⟩ := summarize_good.2 hload
  refine ⟨⟨loadedRun "PASSED", by simp, by rw [hr]; exact Option.some_ne_none r⟩, fun hlatch => ?_⟩
  refine hlatch ((aggregate_passed_iff ⟨_, by simp, hload⟩).mpr ?_) zeroOrderIdRun
    List.mem_cons_self { idleSample with correctness := some "CRITICAL_ERR: ZERO_ORDER_ID" }
    (by simp [zeroOrderIdRun]) (by decide +kernel)
  intro run hrun hrunload
  rcases List.mem_cons.mp hrun with rfl | hrun
  · exact absurd hrunload hunloaded
  · rw [List.mem_singleton.mp hrun]
    exact hclean

end TradePlat.Bench
