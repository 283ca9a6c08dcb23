import Mathlib.Algebra.Order.Floor.Ring
import Mathlib.Data.Rat.Floor
import Mathlib.Tactic.NormNum
import TradePlat.Lib.Runs
import TradePlat.Lib.OrderedSamples
import TradePlat.Scorer.ContestantState

/-!
# Sliding-window scores (`scoring_engine.py`)

`ContestantState.metrics` and `percentile`, in rational arithmetic and before they
are rounded. The state keeps the samples of the window from one call to the next;
`Tracks` says what it keeps of the events accepted so far, and every call keeps it
(`Tracks.step`). So the metrics are those of a fresh look at the whole history
(`metrics_eq_spec`).
-/

namespace TradePlat.Scorer
open Binary64 Runs OrderedSamples

/-! ## Metrics -/

/-- `percentile(values, p)`. `none` is an `IndexError`. -/
def percentile (values : List Nat) (p : Rat) : Option Nat :=
  if values = [] then some 0
  else
    let ordered := values.mergeSort (· ≤ ·)
    ordered[⌊((ordered.length : Rat) - 1) * p⌋.toNat]?

structure Metrics where
  tps : Rat
  p50LatUs : Rat
  p90LatUs : Rat
  p99LatUs : Rat
  score : Rat
  correctness : String
  totalEvents : Nat
  trackedOrders : Nat
  lastMatchId : Nat
  deriving DecidableEq

/-- `percentile(latencies, p) / 1000 if latencies else 0`. -/
def latencyUs (latencies : List Nat) (p : Rat) : Option Rat :=
  if latencies = [] then some 0 else (percentile latencies p).map fun latency => latency / 1000

/-- `metrics()` at the clock reading `now`. -/
def ContestantState.metrics (s : ContestantState) (now : Rat) : ContestantState × Option Metrics :=
  let s := s.prune now
  let latencies := s.samples.map Prod.snd
  (s, do
    let p50 ← latencyUs latencies (1 / 2)
    let p90 ← latencyUs latencies (9 / 10)
    let p99 ← latencyUs latencies (99 / 100)
    let tps := if s.windowSeconds > 0 then (s.samples.length : Rat) / s.windowSeconds else 0
    let score := if s.correctness ≠ "PASSED" then 0 else tps / max p99 (1 / 10)
    some ⟨tps, p50, p90, p99, score, s.correctness, s.totalEvents, s.orderFills.length,
      s.lastMatchId.getD 0⟩)

/-- The calls on a state. `disqualify` sets the correctness. -/
inductive ContestantState.Call where
  | accept (event : TradeEvent)
  | prune
  | metrics
  | disqualify (reason : String)
  deriving DecidableEq

/-- A call at a clock reading. The outputs are the metrics. -/
def ContestantState.call (s : ContestantState) :
    Rat × Call → ContestantState × List (Option Metrics)
  | (now, .accept event) => (s.accept now event, [])
  | (now, .prune) => (s.prune now, [])
  | (now, .metrics) => ((s.metrics now).1, [(s.metrics now).2])
  | (_, .disqualify reason) => ({ s with correctness := reason }, [])

open ContestantState (Call call)

/-- The readings of a monotonic clock. -/
def Clock (readings : List Rat) : Prop := readings.Pairwise (· ≤ ·)

instance (readings : List Rat) : Decidable (Clock readings) :=
  inferInstanceAs (Decidable (List.Pairwise _ _))

/-! ## The history -/

def ContestantState.Call.accepted : Rat × Call → Option (Rat × TradeEvent)
  | (now, .accept event) => some (now, event)
  | _ => none

/-- The events accepted so far, with the clock readings. -/
def history (calls : List (Rat × Call)) : List (Rat × TradeEvent) := calls.filterMap Call.accepted

theorem history_append (calls calls' : List (Rat × Call)) :
    history (calls ++ calls') = history calls ++ history calls' := List.filterMap_append

def sampleOf (entry : Rat × TradeEvent) : Rat × Nat := (entry.1, entry.2.engineLatencyNs)

/-- The part of the history in the window that ends at `now`. -/
def inWindow (windowSeconds now : Rat) (entries : List (Rat × TradeEvent)) :
    List (Rat × TradeEvent) :=
  entries.filter fun entry => now - windowSeconds ≤ entry.1

/-- The quantity that the entry fills of the order `id`, on either side. -/
def filledBy (id : Nat) (entry : Rat × TradeEvent) : Nat :=
  (if entry.2.buyOrderId = id then entry.2.qty else 0) +
    if entry.2.sellOrderId = id then entry.2.qty else 0

/-- The quantity of the order `id` over the history. -/
def filled (id : Nat) (entries : List (Rat × TradeEvent)) : Nat := (entries.map (filledBy id)).sum

theorem filter_map_sampleOf (cutoff : Rat) (entries : List (Rat × TradeEvent)) :
    ((entries.map sampleOf).filter fun sample => cutoff ≤ sample.1) =
      (entries.filter fun entry => cutoff ≤ entry.1).map sampleOf := by
  rw [List.filter_map]
  rfl

/-! ## The dict of fills -/

theorem lookup_entry (k v id : Nat) (fills : List (Nat × Nat)) :
    ((k, v) :: fills).lookup id = if id = k then some v else fills.lookup id := by
  rw [List.lookup_cons]
  by_cases hid : id = k
  · rw [if_pos hid, beq_iff_eq.mpr hid]
  · rw [if_neg hid, beq_eq_false_iff_ne.mpr hid]

theorem lookup_addFill (key qty id : Nat) (fills : List (Nat × Nat)) :
    (addFill key qty fills).lookup id =
      if id = key then some ((fills.lookup key).getD 0 + qty) else fills.lookup id := by
  induction fills with
  | nil =>
    rw [addFill, lookup_entry, List.lookup_nil, List.lookup_nil, Option.getD_none, Nat.zero_add]
  | cons entry fills ih =>
    obtain ⟨k, v⟩ := entry
    rw [addFill, lookup_entry, lookup_entry]
    by_cases hk : k = key
    · subst hk
      rw [if_pos rfl, lookup_entry, if_pos rfl, Option.getD_some]
      by_cases hid : id = k
      · rw [if_pos hid, if_pos hid]
      · rw [if_neg hid, if_neg hid, if_neg hid]
    · have hkey : ¬key = k := fun h => hk h.symm
      rw [if_neg hk, lookup_entry, ih, if_neg hkey]
      by_cases hid : id = k
      · have hne : ¬id = key := fun h => hk (hid.symm.trans h)
        rw [if_pos hid, if_neg hne, if_pos hid]
      · rw [if_neg hid, if_neg hid]

theorem getD_addFill (key qty id : Nat) (fills : List (Nat × Nat)) :
    ((addFill key qty fills).lookup id).getD 0 =
      (fills.lookup id).getD 0 + if key = id then qty else 0 := by
  rw [lookup_addFill]
  by_cases hid : id = key
  · rw [if_pos hid, if_pos hid.symm, Option.getD_some, hid]
  · rw [if_neg hid, if_neg fun h => hid h.symm, Nat.add_zero]

theorem isSome_addFill (key qty id : Nat) (fills : List (Nat × Nat)) :
    ((addFill key qty fills).lookup id).isSome ↔ (fills.lookup id).isSome ∨ key = id := by
  rw [lookup_addFill]
  by_cases hid : id = key
  · simp [hid]
  · simp [hid, show ¬key = id from fun h => hid h.symm]

/-! ## What the state keeps -/

/-- What the state keeps of the calls so far. -/
structure Tracks (windowSeconds : Rat) (past : List (Rat × Call)) (s : ContestantState) : Prop where
  width : s.windowSeconds = windowSeconds
  ordered : OrderedBy Prod.fst s.samples
  before : ∀ now, (∀ reading ∈ past.map Prod.fst, reading ≤ now) →
    ∀ sample ∈ s.samples, sample.1 ≤ now
  window : ∀ now, (∀ reading ∈ past.map Prod.fst, reading ≤ now) →
    (s.samples.filter fun sample => now - windowSeconds ≤ sample.1) =
      (inWindow windowSeconds now (history past)).map sampleOf
  fills : ∀ id, (s.orderFills.lookup id).getD 0 = filled id (history past)
  keys : ∀ id, (s.orderFills.lookup id).isSome ↔
    ∃ entry ∈ history past, entry.2.buyOrderId = id ∨ entry.2.sellOrderId = id
  totalEvents : s.totalEvents = (history past).length

theorem tracks_new (windowSeconds : Rat) : Tracks windowSeconds [] (.new windowSeconds) where
  width := rfl
  ordered := List.Pairwise.nil
  before _ _ _ h := by cases h
  window _ _ := rfl
  fills _ := rfl
  keys id := by simp [ContestantState.new, history]
  totalEvents := rfl

theorem prune_samples {s : ContestantState} (h : OrderedBy Prod.fst s.samples) (t : Rat) :
    (s.prune t).samples = s.samples.filter fun sample => t - s.windowSeconds ≤ sample.1 :=
  dropWhile_eq_filter h _

/-- `accept` before it prunes. -/
def ContestantState.record (s : ContestantState) (now : Rat) (event : TradeEvent) :
    ContestantState :=
  { s with
    lastMatchId := some event.matchId
    lastT2Ns := event.t2Ns
    prevEvent := some event
    orderFills :=
      addFill event.sellOrderId event.qty (addFill event.buyOrderId event.qty s.orderFills)
    samples := s.samples ++ [(now, event.engineLatencyNs)]
    totalEvents := s.totalEvents + 1 }

theorem accept_eq (s : ContestantState) (now : Rat) (event : TradeEvent) :
    s.accept now event = (s.record now event).prune now := rfl

theorem lookup_record (s : ContestantState) (now : Rat) (event : TradeEvent) (id : Nat) :
    ((s.record now event).orderFills.lookup id).getD 0 =
        (s.orderFills.lookup id).getD 0 + filledBy id (now, event) ∧
      (((s.record now event).orderFills.lookup id).isSome ↔
        (s.orderFills.lookup id).isSome ∨ event.buyOrderId = id ∨ event.sellOrderId = id) := by
  constructor
  · rw [ContestantState.record, getD_addFill, getD_addFill, filledBy, Nat.add_assoc]
  · rw [ContestantState.record, isSome_addFill, isSome_addFill, or_assoc]

namespace Tracks
variable {windowSeconds : Rat} {past : List (Rat × Call)} {s : ContestantState}

/-- A call that accepts nothing adds its reading. -/
theorem extend (h : Tracks windowSeconds past s) {entry : Rat × Call}
    (hentry : Call.accepted entry = none) : Tracks windowSeconds (past ++ [entry]) s := by
  have hhistory : history (past ++ [entry]) = history past := by
    rw [history_append]
    simp [history, hentry]
  have hpast : ∀ now, (∀ reading ∈ (past ++ [entry]).map Prod.fst, reading ≤ now) →
      ∀ reading ∈ past.map Prod.fst, reading ≤ now := by
    intro now hnow reading hreading
    rw [List.map_append] at hnow
    exact hnow reading (List.mem_append_left _ hreading)
  refine ⟨h.width, h.ordered, fun now hnow => h.before now (hpast now hnow), fun now hnow => ?_,
    fun id => ?_, fun id => ?_, ?_⟩
  · rw [hhistory]
    exact h.window now (hpast now hnow)
  · rw [hhistory]
    exact h.fills id
  · rw [hhistory]
    exact h.keys id
  · rw [hhistory]
    exact h.totalEvents

/-- Pruning at a reading of the past keeps the window at every later reading. -/
theorem prune (h : Tracks windowSeconds past s) {t : Rat} (ht : t ∈ past.map Prod.fst) :
    Tracks windowSeconds past (s.prune t) := by
  have hsamples := prune_samples h.ordered t
  refine ⟨h.width, ?_, fun now hnow sample hsample => ?_, fun now hnow => ?_, h.fills, h.keys,
    h.totalEvents⟩
  · rw [hsamples]
    exact h.ordered.filter _
  · rw [hsamples] at hsample
    exact h.before now hnow sample (List.mem_filter.mp hsample).1
  · have hcutoff : t - windowSeconds ≤ now - windowSeconds := sub_le_sub_right (hnow t ht) _
    rw [hsamples, h.width, filter_filter_of_le hcutoff]
    exact h.window now hnow

/-- A recorded event is the last of the history and of the samples. -/
theorem record (h : Tracks windowSeconds past s) {t : Rat} (event : TradeEvent)
    (ht : ∀ reading ∈ past.map Prod.fst, reading ≤ t) :
    Tracks windowSeconds (past ++ [(t, .accept event)]) (s.record t event) := by
  have hhistory : history (past ++ [(t, .accept event)]) = history past ++ [(t, event)] :=
    history_append past _
  have hpast : ∀ now, (∀ reading ∈ (past ++ [(t, Call.accept event)]).map Prod.fst, reading ≤ now) →
      (∀ reading ∈ past.map Prod.fst, reading ≤ now) ∧ t ≤ now := by
    intro now hnow
    simp only [List.map_append, List.map_cons, List.map_nil, List.mem_append,
      List.mem_singleton] at hnow
    exact ⟨fun reading hreading => hnow reading (.inl hreading), hnow t (.inr rfl)⟩
  refine ⟨h.width, h.ordered.concat (h.before t ht), fun now hnow sample hsample => ?_,
    fun now hnow => ?_, fun id => ?_, fun id => ?_, ?_⟩
  · rcases List.mem_append.mp hsample with hold | hnew
    · exact h.before now (hpast now hnow).1 sample hold
    · rw [List.mem_singleton.mp hnew]
      exact (hpast now hnow).2
  · have hold := h.window now (hpast now hnow).1
    rw [hhistory, inWindow, List.filter_append, List.map_append, ← inWindow, ← hold,
      ← filter_map_sampleOf]
    exact List.filter_append ..
  · rw [hhistory, filled, List.map_append, List.sum_append, ← filled, ← h.fills id,
      (lookup_record s t event id).1]
    simp
  · rw [hhistory, (lookup_record s t event id).2, h.keys id]
    simp [or_and_right, exists_or]
  · rw [hhistory, List.length_append, ← h.totalEvents]
    rfl

/-- **Every call keeps track.** -/
theorem step (h : Tracks windowSeconds past s) {entry : Rat × Call}
    (ht : ∀ reading ∈ past.map Prod.fst, reading ≤ entry.1) :
    Tracks windowSeconds (past ++ [entry]) (call s entry).1 := by
  obtain ⟨t, c⟩ := entry
  have hreading : t ∈ (past ++ [(t, c)]).map Prod.fst := by simp
  cases c with
  | accept event =>
    have hcall : (call s (t, .accept event)).1 = (s.record t event).prune t := accept_eq s t event
    rw [hcall]
    exact (h.record event ht).prune hreading
  | prune => exact (h.extend rfl).prune hreading
  | metrics => exact (h.extend rfl).prune hreading
  | disqualify reason =>
    have hextend := h.extend (show Call.accepted (t, .disqualify reason) = none from rfl)
    exact ⟨hextend.width, hextend.ordered, hextend.before, hextend.window, hextend.fills,
      hextend.keys, hextend.totalEvents⟩

end Tracks

theorem run_tracks {windowSeconds : Rat} {calls : List (Rat × Call)}
    (hclock : Clock (calls.map Prod.fst)) :
    Tracks windowSeconds calls (run call (.new windowSeconds) calls).1 := by
  have hguard : Guarded call (fun past _ entry => ∀ reading ∈ past.map Prod.fst, reading ≤ entry.1)
      [] (.new windowSeconds) calls := by
    rw [guarded_iff_forall]
    rintro before entry after rfl reading hreading
    rw [List.map_append] at hclock
    exact (List.pairwise_append.mp hclock).2.2 reading hreading entry.1 (by simp)
  exact invariant_run (fun past _ s => Tracks windowSeconds past s)
    (fun _ _ _ _ h ht => h.step ht) (tracks_new windowSeconds) hguard

/-! ## Percentiles -/

/-- The rank of the percentile `p` among `n` values. -/
def percentileRank (n : Nat) (p : Rat) : Nat := ⌊((n : Rat) - 1) * p⌋.toNat

theorem percentileRank_lt {n : Nat} (hn : 0 < n) {p : Rat} (hp : 0 ≤ p) (hp' : p ≤ 1) :
    percentileRank n p < n := by
  have hone : (1 : Rat) ≤ n := by exact_mod_cast hn
  have hfloor : ⌊((n : Rat) - 1) * p⌋ ≤ (n - 1 : Int) := by
    have hrank := floor_mul_le (show (0 : Int) ≤ n - 1 by omega) hp'
    push_cast at hrank
    exact hrank
  have hnonneg : 0 ≤ ⌊((n : Rat) - 1) * p⌋ :=
    Int.floor_nonneg.mpr (mul_nonneg (by linarith) hp)
  unfold percentileRank
  omega

theorem percentileRank_mono {n : Nat} (hn : 0 < n) {p q : Rat} (h : p ≤ q) :
    percentileRank n p ≤ percentileRank n q := by
  have hone : (1 : Rat) ≤ n := by exact_mod_cast hn
  exact Int.toNat_le_toNat (floor_mul_mono (sub_nonneg.mpr hone) h)

/-- The index of `percentile` is in range. -/
theorem percentile_eq {values : List Nat} {p : Rat} (hp : 0 ≤ p) (hp' : p ≤ 1) :
    percentile values p =
      some ((values.mergeSort (· ≤ ·)).getD (percentileRank values.length p) 0) := by
  by_cases hempty : values = []
  · subst hempty
    simp [percentile]
  · have hpos : 0 < values.length := List.length_pos_iff.mpr hempty
    have hrank : percentileRank values.length p < (values.mergeSort (· ≤ ·)).length := by
      rw [List.length_mergeSort]
      exact percentileRank_lt hpos hp hp'
    have hindex : percentile values p =
        (values.mergeSort (· ≤ ·))[percentileRank values.length p]? := by
      simp only [percentile, if_neg hempty, List.length_mergeSort, percentileRank]
    rw [hindex, List.getD_eq_getElem?_getD, List.getElem?_eq_getElem hrank, Option.getD_some]

/-- The percentile of the latencies, in microseconds. -/
def latencyAt (latencies : List Nat) (p : Rat) : Rat :=
  ((latencies.mergeSort (· ≤ ·)).getD (percentileRank latencies.length p) 0 : Nat) / 1000

theorem latencyUs_eq {latencies : List Nat} {p : Rat} (hp : 0 ≤ p) (hp' : p ≤ 1) :
    latencyUs latencies p = some (latencyAt latencies p) := by
  unfold latencyUs
  by_cases hempty : latencies = []
  · subst hempty
    rw [if_pos rfl]
    simp [latencyAt]
  · rw [if_neg hempty, percentile_eq hp hp']
    rfl

theorem latencyAt_mono (latencies : List Nat) {p q : Rat} (hp : 0 ≤ p) (hpq : p ≤ q) (hq : q ≤ 1) :
    latencyAt latencies p ≤ latencyAt latencies q := by
  by_cases hempty : latencies = []
  · subst hempty
    simp [latencyAt]
  · have hpos : 0 < latencies.length := List.length_pos_iff.mpr hempty
    have hsorted := List.pairwise_mergeSort' (· ≤ ·) latencies
    have hrank : percentileRank latencies.length q < (latencies.mergeSort (· ≤ ·)).length := by
      rw [List.length_mergeSort]
      exact percentileRank_lt hpos (hp.trans hpq) hq
    have hmono := getD_mono hsorted (percentileRank_mono hpos hpq) hrank 0
    exact div_le_div_of_nonneg_right (by exact_mod_cast hmono) (by norm_num)

/-- Any sorted list of the latencies gives the percentile. -/
theorem latencyAt_eq {latencies sorted : List Nat} (hperm : sorted.Perm latencies)
    (hsorted : sorted.Pairwise (· ≤ ·)) (p : Rat) :
    latencyAt latencies p = (sorted.getD (percentileRank sorted.length p) 0 : Nat) / 1000 := by
  rw [latencyAt, sorted_perm hperm hsorted, List.length_mergeSort]

/-! ## The specification -/

theorem metrics_eq {s : ContestantState} (hwindow : 0 < s.windowSeconds) (now : Rat) :
    (s.metrics now).2 = some
      ⟨(s.prune now).samples.length / s.windowSeconds,
        latencyAt ((s.prune now).samples.map Prod.snd) (1 / 2),
        latencyAt ((s.prune now).samples.map Prod.snd) (9 / 10),
        latencyAt ((s.prune now).samples.map Prod.snd) (99 / 100),
        if s.correctness ≠ "PASSED" then 0
        else (s.prune now).samples.length / s.windowSeconds /
          max (latencyAt ((s.prune now).samples.map Prod.snd) (99 / 100)) (1 / 10),
        s.correctness, s.totalEvents, s.orderFills.length, s.lastMatchId.getD 0⟩ := by
  have hwidth : (s.prune now).windowSeconds > 0 := hwindow
  simp only [ContestantState.metrics]
  rw [latencyUs_eq (by norm_num) (by norm_num), latencyUs_eq (by norm_num) (by norm_num),
    latencyUs_eq (by norm_num) (by norm_num), if_pos hwidth]
  rfl

/-- **The window is the specification's.** At every call of `metrics` with readings that
never decrease: the samples are those of the accepted events of the last
`window_seconds`; the percentiles are the elements of their ranks in any sorted list of
the latencies, and are in order; the totals are those of everything accepted. -/
theorem metrics_eq_spec {windowSeconds : Rat} (hwindow : 0 < windowSeconds)
    {past : List (Rat × Call)} {now : Rat} (hclock : Clock (past.map Prod.fst ++ [now])) :
    let s := (run call (.new windowSeconds) past).1
    let kept := inWindow windowSeconds now (history past)
    ∃ m : Metrics, call s (now, .metrics) = ((s.metrics now).1, [some m]) ∧
      (s.metrics now).1.samples = kept.map sampleOf ∧
      m.tps = kept.length / windowSeconds ∧
      (∀ sorted : List Nat, sorted.Perm (kept.map fun entry => entry.2.engineLatencyNs) →
        sorted.Pairwise (· ≤ ·) →
        m.p50LatUs = (sorted.getD ⌊((sorted.length : Rat) - 1) * (1 / 2)⌋.toNat 0 : Nat) / 1000 ∧
        m.p90LatUs = (sorted.getD ⌊((sorted.length : Rat) - 1) * (9 / 10)⌋.toNat 0 : Nat) / 1000 ∧
        m.p99LatUs =
          (sorted.getD ⌊((sorted.length : Rat) - 1) * (99 / 100)⌋.toNat 0 : Nat) / 1000) ∧
      m.p50LatUs ≤ m.p90LatUs ∧ m.p90LatUs ≤ m.p99LatUs ∧
      m.correctness = s.correctness ∧
      (s.correctness = "PASSED" → m.score = m.tps / max m.p99LatUs (1 / 10)) ∧
      m.totalEvents = (history past).length ∧
      ∀ id, (s.orderFills.lookup id).getD 0 = filled id (history past) ∧
        ((s.orderFills.lookup id).isSome ↔
          ∃ entry ∈ history past, entry.2.buyOrderId = id ∨ entry.2.sellOrderId = id) := by
  intro s kept
  have hpast : Clock (past.map Prod.fst) := (List.pairwise_append.mp hclock).1
  have hnow : ∀ reading ∈ past.map Prod.fst, reading ≤ now := fun reading hreading =>
    (List.pairwise_append.mp hclock).2.2 reading hreading now (by simp)
  have htracks : Tracks windowSeconds past s := run_tracks hpast
  have hsamples : (s.prune now).samples = kept.map sampleOf := by
    rw [prune_samples htracks.ordered, htracks.width]
    exact htracks.window now hnow
  have hlatencies : (s.prune now).samples.map Prod.snd =
      kept.map fun entry => entry.2.engineLatencyNs := by
    rw [hsamples, List.map_map]
    rfl
  have hmetrics := metrics_eq (htracks.width.symm ▸ hwindow) now
  rw [hlatencies, hsamples, List.length_map, htracks.width] at hmetrics
  have hmedian : latencyAt (kept.map fun entry => entry.2.engineLatencyNs) (1 / 2) ≤
      latencyAt (kept.map fun entry => entry.2.engineLatencyNs) (9 / 10) :=
    latencyAt_mono _ (by norm_num) (by norm_num) (by norm_num)
  have htail : latencyAt (kept.map fun entry => entry.2.engineLatencyNs) (9 / 10) ≤
      latencyAt (kept.map fun entry => entry.2.engineLatencyNs) (99 / 100) :=
    latencyAt_mono _ (by norm_num) (by norm_num) (by norm_num)
  refine ⟨_, by rw [call, hmetrics], hsamples, ?_⟩
  refine ⟨rfl, fun sorted hperm hsorted => ?_, hmedian, htail, rfl, fun hpassed => ?_,
    htracks.totalEvents, fun id => ⟨htracks.fills id, htracks.keys id⟩⟩
  · exact ⟨latencyAt_eq hperm hsorted _, latencyAt_eq hperm hsorted _,
      latencyAt_eq hperm hsorted _⟩
  · exact if_neg (not_not.mpr hpassed)

/-- Two trades half a second apart; the second is at the cutoff of a window of one second
that ends at 3/2. -/
def windowCalls : List (Rat × Call) :=
  [(0, .accept ⟨1, 10, 20, 1, 2, 900, Double.zero, 3⟩),
    (1 / 2, .accept ⟨2, 10, 30, 1, 2, 5002, Double.zero, 4⟩), (1, .prune)]

theorem windowCalls_scored :
    let s := (run call (.new 1) windowCalls).1
    ∃ m : Metrics, call s (3 / 2, .metrics) = ((s.metrics (3 / 2)).1, [some m]) ∧
      m.tps = 1 ∧ m.p99LatUs = 5 ∧ m.totalEvents = 2 ∧ (s.orderFills.lookup 10).getD 0 = 7 := by
  have hclock : Clock (windowCalls.map Prod.fst ++ [3 / 2]) := by decide +kernel
  have hkept : (inWindow 1 (3 / 2) (history windowCalls)).map
      (fun entry => entry.2.engineLatencyNs) = [5000] := by decide +kernel
  obtain ⟨m, hcall, -, htps, hsorted, -, -, -, -, htotal, hfills⟩ :=
    metrics_eq_spec (show (0 : Rat) < 1 by norm_num) hclock
  have hlength := congrArg List.length hkept
  rw [List.length_map] at hlength
  obtain ⟨-, -, hp99⟩ := hsorted [5000] (by rw [hkept]) (List.pairwise_singleton _ _)
  refine ⟨m, hcall, ?_, ?_, htotal.trans rfl, (hfills 10).1.trans rfl⟩
  · rw [htps, hlength]
    norm_num
  · rw [hp99]
    norm_num

end TradePlat.Scorer
