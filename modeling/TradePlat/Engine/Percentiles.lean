import Mathlib.Algebra.Order.Floor.Ring
import Mathlib.Data.Rat.Floor
import Mathlib.Tactic.NormNum
import TradePlat.Lib.OrderedSamples
import TradePlat.Engine.Histograms

/-!
# Percentiles of a histogram (`MatchingEngine.cpp`)

`calc_hist_percentile` walks the buckets until their counts reach a target, the
percentile of the total rounded down. Where the target is 0 it stops at the first
bucket, whatever that holds; so a window with a single latency is printed as 0 µs
(`singleLatency_reported_zero`). Everywhere else what is printed is a latency that
occurred (`calcHistPercentile_reports_iff`).
-/

namespace TradePlat.Histograms
open OrderedSamples

/-! ## The loop -/

/-- The loop of `calc_hist_percentile` from bucket `i` on. -/
def scanBuckets (target : Nat) : Nat → Nat → List Nat → Nat
  | _, _, [] => 0
  | accumulated, i, count :: hist =>
    if accumulated + count ≥ target then i else scanBuckets target (accumulated + count) (i + 1) hist

/-- `calc_hist_percentile(hist, p)`. -/
def calcHistPercentile (hist : List Nat) (p : Rat) : Nat :=
  let totalElements := hist.sum
  if totalElements = 0 then 0
  else scanBuckets ⌊(totalElements : Rat) * p⌋.toNat 0 0 hist

/-- The percentiles that `metricsLoop` prints. -/
def printedPercentiles : List Rat := [1 / 2, 9 / 10, 99 / 100]

/-- The count of the buckets up to and with `i`. -/
def cumulative (hist : List Nat) (i : Nat) : Nat := (hist.take (i + 1)).sum

/-- The buckets with a count. -/
def recorded (hist : List Nat) : Set Nat := {i | hist.getD i 0 ≠ 0}

/-- The rank that a percentile is meant to reach. -/
def percentileTarget (hist : List Nat) (p : Rat) : Nat := max 1 ⌊(hist.sum : Rat) * p⌋.toNat

/-- A bucket with a count, the first whose cumulative count reaches the rank; so it is
between the smallest and the largest recorded latency. -/
def Reports (hist : List Nat) (p : Rat) (i : Nat) : Prop :=
  i ∈ recorded hist ∧ IsLeast {j | percentileTarget hist p ≤ cumulative hist j} i ∧
    (∀ least, IsLeast (recorded hist) least → least ≤ i) ∧
    ∀ greatest, IsGreatest (recorded hist) greatest → i ≤ greatest

theorem cumulative_zero (count : Nat) (hist : List Nat) : cumulative (count :: hist) 0 = count := by
  simp [cumulative]

theorem cumulative_succ (count : Nat) (hist : List Nat) (i : Nat) :
    cumulative (count :: hist) (i + 1) = count + cumulative hist i := by
  rw [cumulative, List.take_succ_cons, List.sum_cons]
  rfl

/-- The loop stops at the first bucket that reaches the target. -/
theorem scanBuckets_spec {target accumulated : Nat} {hist : List Nat} (i : Nat)
    (htarget : target ≤ accumulated + hist.sum) (hne : hist ≠ []) :
    ∃ j, scanBuckets target accumulated i hist = i + j ∧
      target ≤ accumulated + cumulative hist j ∧
      ∀ j' < j, accumulated + cumulative hist j' < target := by
  induction hist generalizing accumulated i with
  | nil => exact absurd rfl hne
  | cons count hist ih =>
    rw [List.sum_cons] at htarget
    unfold scanBuckets
    by_cases hreach : accumulated + count ≥ target
    · rw [if_pos hreach]
      refine ⟨0, rfl, ?_, fun j' hj' => absurd hj' (Nat.not_lt_zero j')⟩
      rw [cumulative_zero]
      exact hreach
    · have hrest : hist ≠ [] := by
        rintro rfl
        rw [List.sum_nil] at htarget
        omega
      obtain ⟨j, hj, hreached, hbefore⟩ :=
        ih (i + 1) (show target ≤ accumulated + count + hist.sum by omega) hrest
      rw [if_neg hreach]
      refine ⟨j + 1, by omega, ?_, fun j' hj' => ?_⟩
      · rw [cumulative_succ]
        omega
      · cases j' with
        | zero =>
          rw [cumulative_zero]
          omega
        | succ j' =>
          have := hbefore j' (by omega)
          rw [cumulative_succ]
          omega

theorem cumulative_step (hist : List Nat) (i : Nat) :
    cumulative hist (i + 1) = cumulative hist i + hist.getD (i + 1) 0 := by
  induction hist generalizing i with
  | nil => rfl
  | cons count hist ih =>
    rw [cumulative_succ]
    cases i with
    | zero =>
      rw [cumulative_zero]
      cases hist with
      | nil => rfl
      | cons c hist => simp [cumulative_zero]
    | succ i =>
      rw [cumulative_succ, ih i]
      simp only [List.getD_cons_succ]
      omega

/-- The target of the code is below the rank only where it is 0. -/
theorem floor_target {n : Nat} (hn : 0 < n) {p : Rat} (hp : 1 / 2 ≤ p) (hp' : p < 1) :
    ⌊(n : Rat) * p⌋.toNat ≤ n ∧ (1 ≤ ⌊(n : Rat) * p⌋.toNat ↔ 2 ≤ n) := by
  have hnonneg : (0 : Rat) ≤ n := Nat.cast_nonneg n
  have hfloor : ⌊(n : Rat) * p⌋ ≤ (n : Int) := floor_mul_le (Int.natCast_nonneg n) hp'.le
  have hiff : 1 ≤ ⌊(n : Rat) * p⌋ ↔ 2 ≤ n := by
    rw [Int.le_floor]
    constructor
    · intro h
      by_contra hsmall
      obtain rfl : n = 1 := by omega
      rw [Nat.cast_one, one_mul] at h
      exact absurd h (not_le.mpr (by exact_mod_cast hp'))
    · intro h
      have htwo : (2 : Rat) ≤ n := by exact_mod_cast h
      calc ((1 : Int) : Rat) = 2 * (1 / 2) := by norm_num
        _ ≤ n * p := mul_le_mul htwo hp (by norm_num) hnonneg
  omega

theorem printed_range {p : Rat} (h : p ∈ printedPercentiles) : 1 / 2 ≤ p ∧ p < 1 := by
  simp only [printedPercentiles, List.mem_cons, List.not_mem_nil, or_false] at h
  rcases h with rfl | rfl | rfl <;> norm_num

/-- What the loop returns: the first bucket that reaches the target of the code. -/
theorem calcHistPercentile_spec {hist : List Nat} (hn : 0 < hist.sum) {p : Rat} (hp : 1 / 2 ≤ p)
    (hp' : p < 1) :
    ⌊(hist.sum : Rat) * p⌋.toNat ≤ cumulative hist (calcHistPercentile hist p) ∧
      ∀ j < calcHistPercentile hist p, cumulative hist j < ⌊(hist.sum : Rat) * p⌋.toNat := by
  have hne : hist ≠ [] := by
    rintro rfl
    exact absurd hn (by decide)
  have htarget : ⌊(hist.sum : Rat) * p⌋.toNat ≤ 0 + hist.sum := by
    have := (floor_target hn hp hp').1
    omega
  obtain ⟨j, hj, hreached, hbefore⟩ := scanBuckets_spec 0 htarget hne
  have hcalc : calcHistPercentile hist p = j := by
    unfold calcHistPercentile
    dsimp only
    rw [if_neg (by omega), hj, Nat.zero_add]
  rw [hcalc]
  exact ⟨by omega, fun j' hj' => by have := hbefore j' hj'; omega⟩

/-- A larger percentile is a later bucket. -/
theorem calcHistPercentile_mono {hist : List Nat} (hn : 0 < hist.sum) {p q : Rat} (hp : 1 / 2 ≤ p)
    (hpq : p ≤ q) (hq : q < 1) : calcHistPercentile hist p ≤ calcHistPercentile hist q := by
  have hbefore := (calcHistPercentile_spec hn hp (lt_of_le_of_lt hpq hq)).2
  have hreached := (calcHistPercentile_spec hn (hp.trans hpq) hq).1
  have htargets : ⌊(hist.sum : Rat) * p⌋.toNat ≤ ⌊(hist.sum : Rat) * q⌋.toNat :=
    Int.toNat_le_toNat (floor_mul_mono (Nat.cast_nonneg _) hpq)
  by_contra hlater
  have := hbefore _ (not_le.mp hlater)
  omega

theorem mem_recorded_of_first {hist : List Nat} {target i : Nat} (htarget : 1 ≤ target)
    (hreached : target ≤ cumulative hist i) (hbefore : ∀ j < i, cumulative hist j < target) :
    i ∈ recorded hist := by
  show hist.getD i 0 ≠ 0
  cases i with
  | zero =>
    cases hist with
    | nil => simp [cumulative] at hreached; omega
    | cons count hist =>
      rw [cumulative_zero] at hreached
      rw [List.getD_cons_zero]
      omega
  | succ i =>
    have := hbefore i (Nat.lt_succ_self i)
    rw [cumulative_step] at hreached
    omega

theorem reports_of_first {hist : List Nat} {p : Rat} {i : Nat}
    (hreached : percentileTarget hist p ≤ cumulative hist i)
    (hbefore : ∀ j < i, cumulative hist j < percentileTarget hist p) : Reports hist p i := by
  have hrecorded : i ∈ recorded hist :=
    mem_recorded_of_first (Nat.le_max_left 1 _) hreached hbefore
  refine ⟨hrecorded, ⟨hreached, fun j hj => ?_⟩, fun least h => h.2 hrecorded,
    fun greatest h => h.2 hrecorded⟩
  by_contra hless
  exact absurd (hbefore j (not_le.mp hless)) (not_lt.mpr hj)

/-- **A printed percentile is a latency that occurred, except where a single latency was
recorded and it is not in the first bucket.** The percentiles are in order in any case. -/
theorem calcHistPercentile_reports_iff {hist : List Nat} (hn : 0 < hist.sum) :
    (∀ p ∈ printedPercentiles,
      (Reports hist p (calcHistPercentile hist p) ↔ 2 ≤ hist.sum ∨ hist.getD 0 0 ≠ 0)) ∧
    calcHistPercentile hist (1 / 2) ≤ calcHistPercentile hist (9 / 10) ∧
    calcHistPercentile hist (9 / 10) ≤ calcHistPercentile hist (99 / 100) := by
  refine ⟨fun p hmem => ?_, calcHistPercentile_mono hn (by norm_num) (by norm_num) (by norm_num),
    calcHistPercentile_mono hn (by norm_num) (by norm_num) (by norm_num)⟩
  obtain ⟨hp, hp'⟩ := printed_range hmem
  obtain ⟨hreached, hbefore⟩ := calcHistPercentile_spec hn hp hp'
  obtain ⟨-, htwo⟩ := floor_target hn hp hp'
  by_cases hlarge : 2 ≤ hist.sum
  · have htarget : percentileTarget hist p = ⌊(hist.sum : Rat) * p⌋.toNat :=
      Nat.max_eq_right (htwo.mpr hlarge)
    rw [← htarget] at hreached hbefore
    exact ⟨fun _ => .inl hlarge, fun _ => reports_of_first hreached hbefore⟩
  · -- a single latency: the target is 0, and the loop stops at the first bucket
    have hzero : ⌊(hist.sum : Rat) * p⌋.toNat = 0 := by
      have hsmall : ¬1 ≤ ⌊(hist.sum : Rat) * p⌋.toNat := fun h => hlarge (htwo.mp h)
      omega
    have hfirst : calcHistPercentile hist p = 0 := by
      by_contra hpos
      have := hbefore 0 (Nat.pos_of_ne_zero hpos)
      omega
    rw [hfirst]
    constructor
    · intro h
      exact .inr h.1
    · rintro (h | hcount)
      · exact absurd h hlarge
      · have htarget : percentileTarget hist p = 1 := by
          rw [percentileTarget, hzero]
          rfl
        refine reports_of_first ?_ fun j hj => absurd hj (Nat.not_lt_zero j)
        rw [htarget]
        cases hist with
        | nil => exact absurd hn (by decide)
        | cons count hist =>
          rw [cumulative_zero]
          rw [List.getD_cons_zero] at hcount
          omega

/-- Three latencies of 2 µs and one of 5 µs. -/
theorem calcHistPercentile_fourLatencies :
    Reports [0, 0, 3, 0, 0, 1] (99 / 100) (calcHistPercentile [0, 0, 3, 0, 0, 1] (99 / 100)) :=
  ((calcHistPercentile_reports_iff (by decide)).1 (99 / 100) (by simp [printedPercentiles])).mpr
    (.inl (by decide))

/-- One latency in bucket `i`, and `n` buckets behind it. -/
def singleLatency (i n : Nat) : List Nat := List.replicate i 0 ++ 1 :: List.replicate n 0

theorem singleLatency_facts (i n : Nat) :
    (singleLatency (i + 1) n).length = i + n + 2 ∧ (singleLatency (i + 1) n).sum = 1 ∧
      (singleLatency (i + 1) n).getD (i + 1) 0 = 1 ∧ (singleLatency (i + 1) n).getD 0 0 = 0 := by
  refine ⟨?_, ?_, ?_, rfl⟩
  · simp only [singleLatency, List.length_append, List.length_replicate, List.length_cons]
    omega
  · simp [singleLatency]
  · simp [singleLatency, List.getD_eq_getElem?_getD]

/-- One latency, of 250 µs, is printed as 0 µs, a bucket without a count. -/
theorem singleLatency_reported_zero :
    (singleLatency 250 99749).length = latencyBuckets ∧ (singleLatency 250 99749).sum = 1 ∧
      (singleLatency 250 99749).getD 250 0 = 1 ∧
      ∀ p ∈ printedPercentiles, calcHistPercentile (singleLatency 250 99749) p = 0 ∧
        ¬Reports (singleLatency 250 99749) p (calcHistPercentile (singleLatency 250 99749) p) := by
  obtain ⟨hlength, hone, hcount, hfirst⟩ := singleLatency_facts 249 99749
  have hsum : (singleLatency 250 99749).sum = 1 := hone
  refine ⟨hlength, hsum, hcount, fun p hmem => ?_⟩
  obtain ⟨hp, hp'⟩ := printed_range hmem
  have hcalc : calcHistPercentile (singleLatency 250 99749) p = 0 := by
    have hpos : 0 < (singleLatency 250 99749).sum := by omega
    have hbefore := (calcHistPercentile_spec hpos hp hp').2
    have htwo := (floor_target hpos hp hp').2
    by_contra hne
    have := hbefore 0 (Nat.pos_of_ne_zero hne)
    omega
  rw [hcalc]
  exact ⟨rfl, fun h => h.1 hfirst⟩

end TradePlat.Histograms
