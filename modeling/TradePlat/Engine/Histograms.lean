import Mathlib.Algebra.BigOperators.Group.List.Basic
import Mathlib.Algebra.GroupWithZero.Nat
import Mathlib.Logic.Function.Basic
import TradePlat.Lib.Runs

/-!
# Latency histograms (`MatchingEngine.cpp`)

The matching thread counts latencies in histograms of its own, and adds them to the
shared ones every 65,536 orders; the metrics thread takes the shared ones away every
second. Both hold `latency_mutex` for that, so a flush and a snapshot are one step
each; the thread is at its flush between the order that makes one due and the flush.

No count is lost or doubled: what the code counts in a bucket is in the snapshots, the
shared and the local histogram together (`Tracks.account`). What it counts is the
latency rounded toward zero, so the bucket of 0 µs also takes latencies between
-1 µs and 0 (`bucketOf_eq_some`).
-/

namespace TradePlat.Histograms
open Runs

/-! ## The threads -/

/-- `LATENCY_BUCKETS`. -/
def latencyBuckets : Nat := 100000

abbrev Bucket := Fin latencyBuckets

inductive Histogram where
  | engine
  | network
  deriving DecidableEq, Repr

/-- The timestamps of a processed order, and the clock behind `addOrder`. -/
structure Processed where
  t0 : Int
  t1 : Int
  t2 : Int
  deriving DecidableEq, Repr

/-- The latency in nanoseconds, where the timestamps it needs are set. -/
def Processed.latency (order : Processed) : Histogram → Option Int
  | .engine => if order.t1 > 0 then some (order.t2 - order.t1) else none
  | .network => if order.t0 > 0 ∧ order.t1 > 0 then some (order.t1 - order.t0) else none

/-- `ns / 1000` where it is the index of a bucket. -/
def bucketOf (ns : Int) : Option Bucket :=
  let us := ns.tdiv 1000
  if h : us ≥ 0 ∧ us < latencyBuckets then some ⟨us.toNat, by omega⟩ else none

/-- `hist[us]++`. -/
def countLatency (hist : Bucket → UInt32) (latency : Option Int) : Bucket → UInt32 :=
  match latency.bind bucketOf with
  | none => hist
  | some i => Function.update hist i (hist i + 1)

structure Telemetry where
  localHist : Histogram → Bucket → UInt32
  sharedHist : Histogram → Bucket → Nat
  loopCounter : Nat
  /-- The matching thread is at its flush. -/
  flushDue : Bool

def Telemetry.start : Telemetry := ⟨fun _ _ => 0, fun _ _ => 0, 0, false⟩

inductive Event where
  | process (order : Processed)
  | flush
  | snapshot
  deriving DecidableEq, Repr

abbrev Snapshot := Histogram → Bucket → Nat

/-- One step of either thread. A snapshot is an output. -/
def step (s : Telemetry) : Event → Telemetry × List Snapshot
  | .process order =>
    ({ s with
        localHist := fun k => countLatency (s.localHist k) (order.latency k)
        loopCounter := s.loopCounter + 1
        flushDue := (s.loopCounter + 1) % 65536 = 0 }, [])
  | .flush =>
    ({ s with
        sharedHist := fun k i => s.sharedHist k i + (s.localHist k i).toNat
        localHist := fun _ _ => 0
        flushDue := false }, [])
  | .snapshot => ({ s with sharedHist := fun _ _ => 0 }, [s.sharedHist])

/-- The matching thread flushes where it is at its flush, and only there. -/
def Enabled (s : Telemetry) : Event → Prop
  | .process _ => s.flushDue = false
  | .flush => s.flushDue = true
  | .snapshot => True

instance (s : Telemetry) (event : Event) : Decidable (Enabled s event) := by
  cases event <;> unfold Enabled <;> infer_instance

/-- A run of the two threads. -/
def IsRun (events : List Event) : Prop :=
  Guarded step (fun _ s event => Enabled s event) [] .start events

instance (events : List Event) : Decidable (IsRun events) :=
  inferInstanceAs (Decidable (Guarded _ _ _ _ _))

/-! ## What the code counts -/

def Event.processed : Event → Option Processed
  | .process order => some order
  | _ => none

/-- The orders processed so far. -/
def orders (events : List Event) : List Processed := events.filterMap Event.processed

/-- The number of orders processed since the last flush. -/
def unflushed (events : List Event) : Nat :=
  events.foldl (fun n event => match event with
    | .process _ => n + 1
    | .flush => 0
    | .snapshot => n) 0

/-- The number of orders that the code counts in the bucket. -/
def counted (k : Histogram) (i : Bucket) (processed : List Processed) : Nat :=
  processed.countP fun order => (order.latency k).bind bucketOf = some i

theorem orders_append (events events' : List Event) :
    orders (events ++ events') = orders events ++ orders events' := List.filterMap_append

theorem unflushed_concat (events : List Event) (event : Event) :
    unflushed (events ++ [event]) =
      match event with
      | .process _ => unflushed events + 1
      | .flush => 0
      | .snapshot => unflushed events := by
  simp only [unflushed, List.foldl_append, List.foldl_cons, List.foldl_nil]

theorem counted_concat (k : Histogram) (i : Bucket) (processed : List Processed)
    (order : Processed) :
    counted k i (processed ++ [order]) =
      counted k i processed + if (order.latency k).bind bucketOf = some i then 1 else 0 := by
  rw [counted, List.countP_append, List.countP_singleton]
  simp only [decide_eq_true_eq]
  rfl

/-- What the code counts is what it keeps. -/
structure Tracks (past : List Event) (windows : List Snapshot) (s : Telemetry) : Prop where
  account : ∀ k i, (windows.map fun w => w k i).sum + s.sharedHist k i + (s.localHist k i).toNat =
    counted k i (orders past)
  small : ∀ k i, (s.localHist k i).toNat ≤ unflushed past
  counter : unflushed past < 65536 ∧ s.flushDue = false ∧
      s.loopCounter % 65536 = unflushed past ∨
    unflushed past = 65536 ∧ s.flushDue = true ∧ s.loopCounter % 65536 = 0

theorem tracks_start : Tracks [] [] .start where
  account _ _ := rfl
  small _ _ := Nat.le_refl _
  counter := .inl ⟨by decide, rfl, rfl⟩

theorem countLatency_toNat {hist : Bucket → UInt32} {latency : Option Int} {i : Bucket}
    (h : (hist i).toNat < 65536) :
    (countLatency hist latency i).toNat =
      (hist i).toNat + if latency.bind bucketOf = some i then 1 else 0 := by
  unfold countLatency
  cases hbucket : latency.bind bucketOf with
  | none => simp
  | some j =>
    by_cases hij : i = j
    · subst hij
      have hone : (1 : UInt32).toNat = 1 := rfl
      simp only [Function.update_self, if_true, UInt32.toNat_add, hone]
      omega
    · have hji : ¬some j = some i := fun heq => hij (Option.some.inj heq).symm
      simp only [Function.update_of_ne hij, if_neg hji, Nat.add_zero]

namespace Tracks
variable {past : List Event} {windows : List Snapshot} {s : Telemetry}

theorem process (h : Tracks past windows s) (hdue : s.flushDue = false) (order : Processed) :
    Tracks (past ++ [.process order]) windows (step s (.process order)).1 := by
  obtain ⟨hless, -, hcounter⟩ | ⟨-, htrue, -⟩ := h.counter
  · have hsmall : ∀ k i, (s.localHist k i).toNat < 65536 := fun k i =>
      Nat.lt_of_le_of_lt (h.small k i) hless
    have hcount : ∀ k i, (countLatency (s.localHist k) (order.latency k) i).toNat =
        (s.localHist k i).toNat + if (order.latency k).bind bucketOf = some i then 1 else 0 :=
      fun k i => countLatency_toNat (hsmall k i)
    refine ⟨fun k i => ?_, fun k i => ?_, ?_⟩
    · have haccount := h.account k i
      have horders : orders (past ++ [.process order]) = orders past ++ [order] :=
        orders_append past _
      rw [horders, counted_concat, ← haccount]
      show _ + _ + (countLatency (s.localHist k) (order.latency k) i).toNat = _
      rw [hcount k i, Nat.add_assoc, Nat.add_assoc, Nat.add_assoc]
      rfl
    · rw [unflushed_concat]
      show (countLatency (s.localHist k) (order.latency k) i).toNat ≤ unflushed past + 1
      have hbound := h.small k i
      rw [hcount k i]
      split <;> omega
    · rw [unflushed_concat]
      simp only [step, decide_eq_true_eq, decide_eq_false_iff_not]
      omega
  · rw [hdue] at htrue
    cases htrue

theorem flush (h : Tracks past windows s) (hdue : s.flushDue = true) :
    Tracks (past ++ [.flush]) windows (step s .flush).1 := by
  have horders : orders (past ++ [.flush]) = orders past := by
    rw [orders_append]
    exact List.append_nil _
  refine ⟨fun k i => ?_, fun _ _ => Nat.zero_le _, ?_⟩
  · rw [horders, ← h.account k i]
    show _ + (s.sharedHist k i + (s.localHist k i).toNat) + 0 = _
    omega
  · obtain ⟨-, hfalse, -⟩ | ⟨-, -, hcounter⟩ := h.counter
    · rw [hdue] at hfalse
      cases hfalse
    · rw [unflushed_concat]
      exact .inl ⟨Nat.zero_lt_succ _, rfl, hcounter⟩

theorem snapshot (h : Tracks past windows s) :
    Tracks (past ++ [.snapshot]) (windows ++ [s.sharedHist]) (step s .snapshot).1 := by
  have horders : orders (past ++ [.snapshot]) = orders past := by
    rw [orders_append]
    exact List.append_nil _
  refine ⟨fun k i => ?_, fun k i => ?_, ?_⟩
  · rw [horders, ← h.account k i, List.map_append, List.sum_append]
    show _ + ([s.sharedHist].map fun w => w k i).sum + 0 + (s.localHist k i).toNat = _
    simp
  · rw [unflushed_concat]
    exact h.small k i
  · rw [unflushed_concat]
    exact h.counter

end Tracks

theorem run_tracks {events : List Event} (hrun : IsRun events) :
    Tracks events (outputs step .start events) (run step .start events).1 := by
  refine invariant_run Tracks (fun past windows s event h henabled => ?_) tracks_start hrun
  cases event with
  | process order =>
    have hstep := h.process henabled order
    rwa [← List.append_nil windows] at hstep
  | flush =>
    have hstep := h.flush henabled
    rwa [← List.append_nil windows] at hstep
  | snapshot => exact h.snapshot

/-! ## What the buckets say -/

/-- The latency falls in the bucket. -/
def FellIn (latency : Option Int) (i : Bucket) : Prop :=
  ∃ ns, latency = some ns ∧ 1000 * (i : Int) ≤ ns ∧ ns < 1000 * ((i : Int) + 1)

/-- The latency is less than a microsecond below 0. -/
def JustBelowZero (latency : Option Int) : Prop :=
  ∃ ns, latency = some ns ∧ -1000 < ns ∧ ns < 0

instance (latency : Option Int) (i : Bucket) : Decidable (FellIn latency i) :=
  match latency with
  | none => .isFalse fun ⟨_, h, _⟩ => by cases h
  | some ns =>
    decidable_of_iff (1000 * (i : Int) ≤ ns ∧ ns < 1000 * ((i : Int) + 1))
      ⟨fun h => ⟨ns, rfl, h⟩, fun ⟨_, h, h'⟩ => Option.some.inj h ▸ h'⟩

instance (latency : Option Int) : Decidable (JustBelowZero latency) :=
  match latency with
  | none => .isFalse fun ⟨_, h, _⟩ => by cases h
  | some ns =>
    decidable_of_iff (-1000 < ns ∧ ns < 0)
      ⟨fun h => ⟨ns, rfl, h⟩, fun ⟨_, h, h'⟩ => Option.some.inj h ▸ h'⟩

theorem bucketOf_eq_some_iff {ns : Int} {i : Bucket} :
    bucketOf ns = some i ↔ ns.tdiv 1000 = (i : Int) := by
  have hi : i.val < latencyBuckets := i.isLt
  unfold bucketOf
  dsimp only
  constructor
  · intro h
    split at h
    · have hval := congrArg Fin.val (Option.some.inj h)
      dsimp only at hval
      omega
    · cases h
  · intro h
    rw [dif_pos (by omega)]
    congr 1
    apply Fin.ext
    dsimp only
    omega

/-- The division rounds toward zero: the first bucket takes what is just below zero too. -/
theorem bucketOf_eq_some {ns : Int} {i : Bucket} :
    bucketOf ns = some i ↔
      1000 * (i : Int) ≤ ns ∧ ns < 1000 * ((i : Int) + 1) ∨ (-1000 < ns ∧ ns < 0) ∧ i.val = 0 := by
  rw [bucketOf_eq_some_iff]
  rcases Int.lt_or_le ns 0 with hnegative | hnonnegative
  · have hneg : (-ns).tdiv 1000 = -ns / 1000 := Int.tdiv_eq_ediv_of_nonneg (by omega)
    rw [Int.neg_tdiv] at hneg
    omega
  · rw [Int.tdiv_eq_ediv_of_nonneg hnonnegative]
    omega

theorem bind_bucketOf_eq_some {latency : Option Int} {i : Bucket} :
    latency.bind bucketOf = some i ↔ FellIn latency i ∨ JustBelowZero latency ∧ i.val = 0 := by
  cases latency with
  | none => simp [FellIn, JustBelowZero]
  | some ns =>
    rw [Option.bind_some, bucketOf_eq_some]
    simp [FellIn, JustBelowZero]

/-- Apart from latencies just below zero, the code counts where the latency falls. -/
theorem counted_eq {k : Histogram} {processed : List Processed}
    (h : ∀ order ∈ processed, ¬JustBelowZero (order.latency k)) (i : Bucket) :
    counted k i processed = processed.countP fun order => FellIn (order.latency k) i := by
  apply List.countP_congr
  intro order horder
  simp only [decide_eq_true_eq, bind_bucketOf_eq_some]
  have hnot := h order horder
  tauto

/-- The counts that are taken, shared and local are those of the orders whose latency
falls in the bucket; between two orders fewer than 65,536 orders are not flushed, and a
local count is at most their number. -/
def Accounted (past : List Event) : Prop :=
  let s := (run step .start past).1
  (∀ k i, ((outputs step .start past).map fun w => w k i).sum + s.sharedHist k i +
      (s.localHist k i).toNat =
    (orders past).countP fun order => FellIn (order.latency k) i) ∧
  (s.flushDue = false → unflushed past < 65536) ∧
  unflushed past ≤ 65536 ∧ ∀ k i, (s.localHist k i).toNat ≤ unflushed past

/-- A latency that is negative or over range changes nothing. -/
def IgnoresOutside (events : List Event) : Prop :=
  ∀ before order after, events = before ++ .process order :: after →
    ∀ k ns, order.latency k = some ns → ns < 0 ∨ 1000 * (latencyBuckets : Int) ≤ ns →
      let s := (run step .start before).1
      (step s (.process order)).1.localHist k = s.localHist k

theorem mem_orders {order : Processed} {events : List Event} (h : order ∈ orders events) :
    .process order ∈ events := by
  obtain ⟨event, hmem, hevent⟩ := List.mem_filterMap.mp h
  cases event with
  | process order' =>
    cases hevent
    exact hmem
  | flush => cases hevent
  | snapshot => cases hevent

theorem accounted_of {past : List Event} (hrun : IsRun past)
    (h : ∀ order ∈ orders past, ∀ k, ¬JustBelowZero (order.latency k)) : Accounted past := by
  have htracks := run_tracks hrun
  refine ⟨fun k i => ?_, fun hdue => ?_, ?_, htracks.small⟩
  · rw [htracks.account k i]
    exact counted_eq (fun order horder => h order horder k) i
  · obtain ⟨hless, -, -⟩ | ⟨-, htrue, -⟩ := htracks.counter
    · exact hless
    · rw [hdue] at htrue
      cases htrue
  · obtain ⟨hless, -, -⟩ | ⟨hall, -, -⟩ := htracks.counter
    · exact Nat.le_of_lt hless
    · exact Nat.le_of_eq hall

/-- A latency that is counted changes the histogram. -/
theorem countLatency_ne {hist : Bucket → UInt32} {latency : Option Int} {i : Bucket}
    (h : latency.bind bucketOf = some i) : countLatency hist latency ≠ hist := by
  intro hsame
  have hcount := congrArg UInt32.toNat (congrFun hsame i)
  have hlt := (hist i).toNat_lt
  have hone : (1 : UInt32).toNat = 1 := rfl
  simp only [countLatency, h, Function.update_self, UInt32.toNat_add, hone] at hcount
  omega

theorem bucketOf_outside {latency : Option Int} {ns : Int} (hlatency : latency = some ns)
    (houtside : ns < 0 ∨ 1000 * (latencyBuckets : Int) ≤ ns) (hnot : ¬JustBelowZero latency) :
    latency.bind bucketOf = none := by
  cases hbucket : latency.bind bucketOf with
  | none => rfl
  | some i =>
    rcases bind_bucketOf_eq_some.mp hbucket with ⟨ns', hlatency', hlow, hhigh⟩ | ⟨hbelow, -⟩
    · rw [hlatency] at hlatency'
      cases hlatency'
      have hi : i.val < latencyBuckets := i.isLt
      omega
    · exact absurd hbelow hnot

/-- **The histograms are exact where no latency is just below zero, and nowhere else.** -/
theorem accounted_iff {events : List Event} (hrun : IsRun events) :
    ((∀ before after, events = before ++ after → Accounted before) ∧ IgnoresOutside events) ↔
      ∀ order ∈ orders events, ∀ k, ¬JustBelowZero (order.latency k) := by
  constructor
  · rintro ⟨-, hignores⟩ order horder k ⟨ns, hlatency, hlow, hnegative⟩
    obtain ⟨before, after, rfl⟩ := List.append_of_mem (mem_orders horder)
    have hsame := hignores before order after rfl k ns hlatency (.inl hnegative)
    have hbucket : (order.latency k).bind bucketOf = some ⟨0, by decide⟩ :=
      bind_bucketOf_eq_some.mpr (.inr ⟨⟨ns, hlatency, hlow, hnegative⟩, rfl⟩)
    exact countLatency_ne hbucket hsame
  · intro h
    refine ⟨fun before after hsplit => ?_, fun before order after hsplit k ns hlatency houtside => ?_⟩
    · subst hsplit
      have hprefix : IsRun before := ((guarded_append step .start _ [] before after).mp hrun).1
      refine accounted_of hprefix fun order horder => h order ?_
      rw [orders_append]
      exact List.mem_append_left _ horder
    · subst hsplit
      have hmem : order ∈ orders (before ++ .process order :: after) :=
        List.mem_filterMap.mpr ⟨_, List.mem_append_right _ List.mem_cons_self, rfl⟩
      have hnone := bucketOf_outside hlatency houtside (h order hmem k)
      simp only [step, countLatency, hnone]

/-- Up to 65,536 orders are processed without a flush. -/
theorem orders_run (order : Processed) (n : Nat) (hn : n ≤ 65536) :
    IsRun (List.replicate n (.process order)) ∧
      unflushed (List.replicate n (.process order)) = n := by
  induction n with
  | zero => exact ⟨trivial, rfl⟩
  | succ n ih =>
    obtain ⟨hrun, hcount⟩ := ih (Nat.le_of_succ_le hn)
    rw [List.replicate_succ']
    refine ⟨(guarded_append step .start _ [] _ _).mpr ⟨hrun, ?_, trivial⟩, ?_⟩
    · obtain ⟨-, hdue, -⟩ | ⟨hfull, -, -⟩ := (run_tracks hrun).counter
      · exact hdue
      · omega
    · rw [unflushed_concat, hcount]

/-- A flush with a snapshot on either side, and two orders behind it. -/
def aroundFlush : List Event :=
  [.snapshot, .flush, .process ⟨1000, 3000, 4500⟩, .snapshot, .process ⟨2000, 4000, 6000⟩]

/-- Orders of 2 µs until a flush is due, and it. -/
def accountedRun : List Event :=
  List.replicate 65536 (.process ⟨1000, 3000, 5000⟩) ++ aroundFlush

theorem aroundFlush_guarded {s : Telemetry} (hdue : s.flushDue = true)
    (hcounter : s.loopCounter % 65536 = 0) (past : List Event) :
    Guarded step (fun _ s event => Enabled s event) past s aroundFlush := by
  refine ⟨trivial, hdue, rfl, trivial, ?_, trivial⟩
  have hnext : ¬ (s.loopCounter + 1) % 65536 = 0 := by omega
  exact decide_eq_false hnext

theorem accountedRun_run : IsRun accountedRun := by
  obtain ⟨hrun, hcount⟩ := orders_run ⟨1000, 3000, 5000⟩ 65536 (Nat.le_refl _)
  refine (guarded_append step .start _ [] _ _).mpr ⟨hrun, ?_⟩
  obtain ⟨hless, -, -⟩ | ⟨-, hdue, hcounter⟩ := (run_tracks hrun).counter
  · omega
  · exact aroundFlush_guarded hdue hcounter _

/-- The snapshots have the 65,536 counts of 2 µs that were flushed; that of the last
order is still local. -/
theorem accountedRun_exact :
    IsRun accountedRun ∧ Accounted accountedRun ∧ IgnoresOutside accountedRun ∧
      ((outputs step .start accountedRun).map fun w => w .engine ⟨2, by decide⟩).sum = 65536 ∧
      ((run step .start accountedRun).1.localHist .engine ⟨2, by decide⟩).toNat = 1 := by
  have hrun := accountedRun_run
  have hnone : ∀ order ∈ orders accountedRun, ∀ k, ¬JustBelowZero (order.latency k) := by
    intro order horder k
    rcases List.mem_append.mp (mem_orders horder) with hmem | hmem
    · cases List.eq_of_mem_replicate hmem
      cases k <;> decide
    · have hlast : order = ⟨1000, 3000, 4500⟩ ∨ order = ⟨2000, 4000, 6000⟩ := by
        simpa [aroundFlush] using hmem
      rcases hlast with rfl | rfl <;> cases k <;> decide
  obtain ⟨haccounted, hignores⟩ := (accounted_iff hrun).mpr hnone
  have hexact := haccounted accountedRun [] (List.append_nil _).symm
  have hlocal : ((run step .start accountedRun).1.localHist .engine ⟨2, by decide⟩).toNat = 1 := by
    rw [accountedRun, run_append]
    rfl
  refine ⟨hrun, hexact, hignores, ?_, hlocal⟩
  have hsum := hexact.1 .engine ⟨2, by decide⟩
  have hshared : (run step .start accountedRun).1.sharedHist .engine ⟨2, by decide⟩ = 0 := by
    rw [accountedRun, run_append]
    rfl
  have hcount : ((orders accountedRun).countP fun order =>
      FellIn (order.latency .engine) ⟨2, by decide⟩) = 65537 := by
    have horders : ∀ n (order : Processed), orders (List.replicate n (.process order)) =
        List.replicate n order := fun n order => List.filterMap_replicate_of_some rfl
    rw [accountedRun, orders_append, horders, List.countP_append, List.countP_replicate]
    decide
  rw [hshared, hlocal, hcount] at hsum
  omega

/-- An order whose client clock is 500 ns ahead of the gateway's. -/
def clockAhead : Processed :=
  ⟨1700000000000000500, 1700000000000000000, 1700000000000005000⟩

/-- Its network latency of -500 ns is counted in the bucket of 0 µs. -/
theorem clockAhead_counted :
    IsRun [.process clockAhead] ∧ clockAhead.latency .network = some (-500) ∧
      ((run step .start [.process clockAhead]).1.localHist .network ⟨0, by decide⟩).toNat = 1 ∧
      ((orders [.process clockAhead]).countP fun order =>
        FellIn (order.latency .network) ⟨0, by decide⟩) = 0 ∧
      ¬((∀ before after, [.process clockAhead] = before ++ after → Accounted before) ∧
        IgnoresOutside [.process clockAhead]) := by
  have hcounted : ((run step .start [.process clockAhead]).1.localHist .network
      ⟨0, by decide⟩).toNat = 1 := by decide
  have hfell : ((orders [.process clockAhead]).countP fun order =>
      FellIn (order.latency .network) ⟨0, by decide⟩) = 0 := by decide
  refine ⟨by decide, by decide, hcounted, hfell, fun h => ?_⟩
  have haccount := (h.1 [.process clockAhead] [] rfl).1 .network ⟨0, by decide⟩
  rw [hfell, hcounted] at haccount
  omega

end TradePlat.Histograms
