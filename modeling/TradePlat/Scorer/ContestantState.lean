import Mathlib.Data.List.Chain
import TradePlat.Lib.Binary64

/-!
# The scorer's validation (`scoring_engine.py`)

`ContestantState.validate` and `accept`, on events as they are unpacked from the
wire. Python's integers are natural numbers here: every field is unpacked as an
unsigned one. The readings of the monotonic clock are rationals, and the text a
float is printed as is a parameter of `Violation.message`.

The validator keeps the event before and nothing older, so a stream passes
exactly where every event is well formed and each one may follow the one before
it (`feed_eq_none`).
-/

namespace TradePlat.Scorer
open Binary64

/-- `TradeEvent`. -/
structure TradeEvent where
  matchId : Nat
  buyOrderId : Nat
  sellOrderId : Nat
  t0Ns : Nat
  t1Ns : Nat
  t2Ns : Nat
  price : Double
  qty : Nat
  deriving DecidableEq, Repr

/-- `max(0, t2_ns - t1_ns)`. -/
def TradeEvent.engineLatencyNs (event : TradeEvent) : Nat := event.t2Ns - event.t1Ns

/-- `PRICE_EPSILON`, the double nearest to `1e-9`. -/
def priceEpsilon : Double := ⟨0x3E112E0BE826D695⟩

/-- A violation with what its message shows. -/
inductive Violation where
  | matchSequence (expected got : Nat)
  | t2Retrograde
  | zeroOrderId
  | selfMatch
  | missingTimestamp
  | timestampOrder
  | invalidPrice
  | invalidQty
  | pricePriorityBuy (buyOrder : Nat) (traded now : Double)
  | pricePrioritySell (sellOrder : Nat) (traded now : Double)
  deriving DecidableEq, Repr

/-- The reason a contestant is disqualified for. -/
def Violation.message (str : Double → String) : Violation → String
  | matchSequence expected got =>
    "CRITICAL_ERR: MATCH_SEQUENCE expected=" ++ toString expected ++ " got=" ++ toString got
  | t2Retrograde => "CRITICAL_ERR: T2_RETROGRADE"
  | zeroOrderId => "CRITICAL_ERR: ZERO_ORDER_ID"
  | selfMatch => "CRITICAL_ERR: SELF_MATCH"
  | missingTimestamp => "CRITICAL_ERR: MISSING_TIMESTAMP"
  | timestampOrder => "CRITICAL_ERR: TIMESTAMP_ORDER"
  | invalidPrice => "CRITICAL_ERR: INVALID_PRICE"
  | invalidQty => "CRITICAL_ERR: INVALID_QTY"
  | pricePriorityBuy buyOrder traded now =>
    "CRITICAL_ERR: PRICE_PRIORITY buy_order=" ++ toString buyOrder ++ " traded " ++ str traded ++
      " then " ++ str now ++ "; a cheaper ask was available"
  | pricePrioritySell sellOrder traded now =>
    "CRITICAL_ERR: PRICE_PRIORITY sell_order=" ++ toString sellOrder ++ " traded " ++ str traded ++
      " then " ++ str now ++ "; a higher bid was available"

/-- The `PRICE_PRIORITY` messages. -/
def Violation.isPricePriority : Violation → Bool
  | pricePriorityBuy _ _ _ | pricePrioritySell _ _ _ => true
  | _ => false

structure ContestantState where
  lastMatchId : Option Nat
  lastT2Ns : Nat
  orderFills : List (Nat × Nat)
  windowSeconds : Rat
  samples : List (Rat × Nat)
  correctness : String
  totalEvents : Nat
  prevEvent : Option TradeEvent
  deriving DecidableEq

/-- `d[key] = d.get(key, 0) + qty`, on a dict in its order of insertion. -/
def addFill (key qty : Nat) : List (Nat × Nat) → List (Nat × Nat)
  | [] => [(key, qty)]
  | (k, v) :: rest => if k = key then (k, v + qty) :: rest else (k, v) :: addFill key qty rest

namespace ContestantState

/-- `ContestantState(window_seconds)`. -/
def new (windowSeconds : Rat) : ContestantState :=
  ⟨none, 0, [], windowSeconds, [], "PASSED", 0, none⟩

def checkPricePriority (s : ContestantState) (event : TradeEvent) : Option Violation :=
  match s.prevEvent with
  | none => none
  | some prev =>
    let sameBuy := event.buyOrderId = prev.buyOrderId
    let sameSell := event.sellOrderId = prev.sellOrderId
    if sameBuy ∧ ¬ sameSell ∧ event.price < prev.price.sub priceEpsilon then
      some (.pricePriorityBuy event.buyOrderId prev.price event.price)
    else if sameSell ∧ ¬ sameBuy ∧ prev.price.add priceEpsilon < event.price then
      some (.pricePrioritySell event.sellOrderId prev.price event.price)
    else none

def validate (s : ContestantState) (event : TradeEvent) : Option Violation :=
  if s.lastMatchId.any (event.matchId ≠ · + 1) then
    some (.matchSequence (s.lastMatchId.getD 0 + 1) event.matchId)
  else if event.t2Ns < s.lastT2Ns then some .t2Retrograde
  else if event.buyOrderId = 0 ∨ event.sellOrderId = 0 then some .zeroOrderId
  else if event.buyOrderId = event.sellOrderId then some .selfMatch
  else if event.t0Ns = 0 ∨ event.t1Ns = 0 ∨ event.t2Ns = 0 then some .missingTimestamp
  else if event.t1Ns < event.t0Ns ∨ event.t2Ns < event.t1Ns then some .timestampOrder
  else if ¬ event.price.IsFinite ∨ event.price ≤ Double.zero then some .invalidPrice
  else if event.qty = 0 then some .invalidQty
  else s.checkPricePriority event

/-- `prune(now)`. -/
def prune (s : ContestantState) (now : Rat) : ContestantState :=
  { s with samples := s.samples.dropWhile fun sample => sample.1 < now - s.windowSeconds }

/-- `accept(event)` at the clock reading `now`. -/
def accept (s : ContestantState) (now : Rat) (event : TradeEvent) : ContestantState :=
  { s with
    lastMatchId := some event.matchId
    lastT2Ns := event.t2Ns
    prevEvent := some event
    orderFills :=
      addFill event.sellOrderId event.qty (addFill event.buyOrderId event.qty s.orderFills)
    samples := s.samples ++ [(now, event.engineLatencyNs)]
    totalEvents := s.totalEvents + 1 }.prune now

/-- Validate each event and accept it, up to the first violation. -/
def feed (s : ContestantState) : List (Rat × TradeEvent) → Option Violation
  | [] => none
  | (now, event) :: stream =>
    match s.validate event with
    | some violation => some violation
    | none => (s.accept now event).feed stream

end ContestantState

/-! ## What the validator accepts -/

/-- What `validate` asks of an event on its own. -/
structure TradeEvent.WellFormed (event : TradeEvent) : Prop where
  buyOrderId : event.buyOrderId ≠ 0
  sellOrderId : event.sellOrderId ≠ 0
  distinct : event.buyOrderId ≠ event.sellOrderId
  timestamp : 0 < event.t0Ns
  received : event.t0Ns ≤ event.t1Ns
  traded : event.t1Ns ≤ event.t2Ns
  finite : event.price.IsFinite
  positive : Double.zero < event.price
  qty : 0 < event.qty

/-- A buy order that trades twice in a row, with two sells, does not pay less the
second time, and a sell order does not get more, up to `PRICE_EPSILON`. -/
def TradeEvent.InPriority (prev event : TradeEvent) : Prop :=
  (event.buyOrderId = prev.buyOrderId → event.sellOrderId ≠ prev.sellOrderId →
      ¬ event.price < prev.price.sub priceEpsilon) ∧
    (event.sellOrderId = prev.sellOrderId → event.buyOrderId ≠ prev.buyOrderId →
      ¬ prev.price.add priceEpsilon < event.price)

/-- The order on the buy side or on the sell side. -/
def TradeEvent.party (event : TradeEvent) : Bool → Nat
  | true => event.buyOrderId
  | false => event.sellOrderId

/-- The second price is better for an order of the side. -/
def Improves (isBuy : Bool) (prev now : Double) : Prop :=
  if isBuy then now < prev else prev < now

/-- It is better by more than `PRICE_EPSILON`. -/
def ImprovesClearly (isBuy : Bool) (prev now : Double) : Prop :=
  if isBuy then now < prev.sub priceEpsilon else prev.add priceEpsilon < now

instance (isBuy : Bool) (prev now : Double) : Decidable (Improves isBuy prev now) :=
  inferInstanceAs (Decidable (if isBuy then now < prev else prev < now))

instance (isBuy : Bool) (prev now : Double) : Decidable (ImprovesClearly isBuy prev now) :=
  inferInstanceAs (Decidable (if isBuy then _ else _))

theorem priceEpsilon_finite : priceEpsilon.IsFinite ∧ 0 ≤ priceEpsilon.value := by decide +kernel

theorem not_lt_sub_epsilon {a b : Double} (ha : a.IsFinite) (h : a ≤ b) :
    ¬ b < a.sub priceEpsilon := by
  intro hlt
  have hsub := Double.sub_le ha priceEpsilon_finite.1 priceEpsilon_finite.2
  have h₁ := hlt.2.2
  have h₂ := hsub.2.2
  have h₃ := h.2.2
  omega

theorem not_add_epsilon_lt {a b : Double} (ha : a.IsFinite) (h : b ≤ a) :
    ¬ a.add priceEpsilon < b := by
  intro hlt
  have hadd := Double.le_add ha priceEpsilon_finite.1 priceEpsilon_finite.2
  have h₁ := hlt.2.2
  have h₂ := hadd.2.2
  have h₃ := h.2.2
  omega

/-- Prices in the order in which they improve for a side. -/
def rank (isBuy : Bool) (a : Double) : Int := if isBuy then -a.key else a.key

theorem improves_iff {isBuy : Bool} {prev now : Double} (hprev : prev.IsFinite)
    (hnow : now.IsFinite) : Improves isBuy prev now ↔ rank isBuy prev < rank isBuy now := by
  have h₁ := hprev.not_nan
  have h₂ := hnow.not_nan
  cases isBuy
  · simp [Improves, rank, Double.lt_def, h₁, h₂]
  · simp [Improves, rank, Double.lt_def, h₁, h₂]

/-- Rounding never makes an improvement of a price that did not improve. -/
theorem ImprovesClearly.improves {isBuy : Bool} {prev now : Double} (hprev : prev.IsFinite)
    (h : ImprovesClearly isBuy prev now) : Improves isBuy prev now := by
  have hnan := hprev.not_nan
  cases isBuy
  · have hadd := Double.le_add hprev priceEpsilon_finite.1 priceEpsilon_finite.2
    have h' : prev.add priceEpsilon < now := h
    exact ⟨hnan, h'.2.1, lt_of_le_of_lt hadd.2.2 h'.2.2⟩
  · have hsub := Double.sub_le hprev priceEpsilon_finite.1 priceEpsilon_finite.2
    have h' : now < prev.sub priceEpsilon := h
    exact ⟨h'.1, hnan, lt_of_lt_of_le h'.2.2 hsub.2.2⟩

theorem inPriority_iff {prev event : TradeEvent} : prev.InPriority event ↔
    ∀ b, event.party b = prev.party b → event.party (!b) ≠ prev.party (!b) →
      ¬ ImprovesClearly b prev.price event.price := by
  simp [TradeEvent.InPriority, TradeEvent.party, ImprovesClearly, and_comm]

/-- The match id and the time are in sequence. -/
def TradeEvent.InSequence (prev event : TradeEvent) : Prop :=
  event.matchId = prev.matchId + 1 ∧ prev.t2Ns ≤ event.t2Ns

/-- What `validate` asks of an event behind the event `prev`. -/
structure TradeEvent.Follows (prev event : TradeEvent) : Prop where
  sequence : prev.InSequence event
  priority : prev.InPriority event

namespace ContestantState
variable {s : ContestantState} {event : TradeEvent}

/-- What the state remembers is that of the event before. -/
structure Synced (s : ContestantState) : Prop where
  lastMatchId : s.lastMatchId = s.prevEvent.map TradeEvent.matchId
  lastT2Ns : s.lastT2Ns = (s.prevEvent.map TradeEvent.t2Ns).getD 0

theorem synced_new (windowSeconds : Rat) : (new windowSeconds).Synced := ⟨rfl, rfl⟩

theorem synced_accept (s : ContestantState) (now : Rat) (event : TradeEvent) :
    (s.accept now event).Synced := ⟨rfl, rfl⟩

theorem checkPricePriority_eq_none :
    s.checkPricePriority event = none ↔ ∀ prev ∈ s.prevEvent, prev.InPriority event := by
  unfold checkPricePriority TradeEvent.InPriority
  cases s.prevEvent with
  | none => simp
  | some prev =>
    simp only [Option.mem_some_iff, forall_eq']
    split_ifs with h₁ h₂
    · simp only [false_iff]
      intro h
      exact h.1 h₁.1 h₁.2.1 h₁.2.2
    · simp only [false_iff]
      intro h
      exact h.2 h₂.1 h₂.2.1 h₂.2.2
    · simp only [true_iff]
      exact ⟨fun hb hs hp => h₁ ⟨hb, hs, hp⟩, fun hs hb hp => h₂ ⟨hs, hb, hp⟩⟩

theorem positive_iff {a : Double} (h : a.IsFinite) : Double.zero < a ↔ ¬ a ≤ Double.zero := by
  have hzero : ¬ Double.zero.IsNaN := by decide
  rw [Double.lt_def, Double.le_def]
  have hnan := h.not_nan
  constructor
  · rintro ⟨-, -, hlt⟩ ⟨-, -, hle⟩
    omega
  · intro hle
    refine ⟨hzero, hnan, ?_⟩
    by_contra hlt
    exact hle ⟨hnan, hzero, Int.not_lt.mp hlt⟩

theorem any_matchId (hs : s.Synced) : ¬ s.lastMatchId.any (event.matchId ≠ · + 1) ↔
    ∀ prev ∈ s.prevEvent, event.matchId = prev.matchId + 1 := by
  rw [hs.lastMatchId]
  cases s.prevEvent <;> simp

theorem not_lt_lastT2Ns (hs : s.Synced) : ¬ event.t2Ns < s.lastT2Ns ↔
    ∀ prev ∈ s.prevEvent, prev.t2Ns ≤ event.t2Ns := by
  rw [hs.lastT2Ns]
  cases s.prevEvent <;> simp

/-- Of a well-formed event in sequence only the price is in question. -/
theorem validate_eq_check (hs : s.Synced) (hw : event.WellFormed)
    (hseq : ∀ prev ∈ s.prevEvent, prev.InSequence event) :
    s.validate event = s.checkPricePriority event := by
  have h₁ := (any_matchId hs).mpr fun prev hprev => (hseq prev hprev).1
  have h₂ := (not_lt_lastT2Ns hs).mpr fun prev hprev => (hseq prev hprev).2
  have h₅ := hw.timestamp
  have h₆ := hw.received
  have h₇ := hw.traded
  have h₈ := hw.qty
  unfold validate
  rw [if_neg h₁, if_neg h₂, if_neg (by simp [hw.buyOrderId, hw.sellOrderId]), if_neg hw.distinct,
    if_neg (by omega), if_neg (by omega),
    if_neg (by simp [hw.finite, (positive_iff hw.finite).mp hw.positive]), if_neg (by omega)]

/-- **What `validate` accepts.** -/
theorem validate_eq_none (hs : s.Synced) :
    s.validate event = none ↔ event.WellFormed ∧ ∀ prev ∈ s.prevEvent, prev.Follows event := by
  constructor
  · intro h
    unfold validate at h
    split_ifs at h with h₁ h₂ h₃ h₄ h₅ h₆ h₇ h₈
    have hmatch := (any_matchId hs).mp h₁
    have ht2 := (not_lt_lastT2Ns hs).mp h₂
    have hprice := checkPricePriority_eq_none.mp h
    have hfinite : event.price.IsFinite := not_not.mp fun hf => h₇ (Or.inl hf)
    refine ⟨⟨by tauto, by tauto, h₄, by omega, by omega, by omega, hfinite, ?_, by omega⟩,
      fun prev hprev => ⟨⟨hmatch prev hprev, ht2 prev hprev⟩, hprice prev hprev⟩⟩
    exact (positive_iff hfinite).mpr fun hle => h₇ (Or.inr hle)
  · rintro ⟨hw, hf⟩
    rw [validate_eq_check hs hw fun prev hprev => (hf prev hprev).sequence]
    exact checkPricePriority_eq_none.mpr fun prev hprev => (hf prev hprev).priority

theorem checkPricePriority_isPricePriority {violation : Violation}
    (h : s.checkPricePriority event = some violation) : violation.isPricePriority := by
  unfold checkPricePriority at h
  split at h
  · cases h
  · dsimp only at h
    split_ifs at h
    · cases h
      rfl
    · cases h
      rfl

/-- **A stream passes exactly where every event is well formed and follows the
one before it.** -/
theorem feed_eq_none (hs : s.Synced) (stream : List (Rat × TradeEvent)) :
    s.feed stream = none ↔ (∀ entry ∈ stream, entry.2.WellFormed) ∧
      (s.prevEvent.toList ++ stream.map Prod.snd).IsChain TradeEvent.Follows := by
  induction stream generalizing s with
  | nil => cases s.prevEvent <;> simp [feed]
  | cons entry stream ih =>
    obtain ⟨now, event⟩ := entry
    have hvalid : s.validate event = none ↔
        event.WellFormed ∧ ∀ prev ∈ s.prevEvent, prev.Follows event := validate_eq_none hs
    have hrest := ih (synced_accept s now event)
    have hchain : (s.prevEvent.toList ++ event :: stream.map Prod.snd).IsChain TradeEvent.Follows ↔
        (∀ prev ∈ s.prevEvent, prev.Follows event) ∧
          (event :: stream.map Prod.snd).IsChain TradeEvent.Follows := by
      cases s.prevEvent <;> simp [List.isChain_cons_cons]
    rw [List.map_cons, hchain, List.forall_mem_cons]
    cases hv : s.validate event with
    | some violation =>
      have hnot : ¬ (event.WellFormed ∧ ∀ prev ∈ s.prevEvent, prev.Follows event) := by
        rw [← hvalid, hv]
        simp
      simp only [feed, hv]
      tauto
    | none =>
      obtain ⟨hw, hf⟩ := hvalid.mp hv
      simp only [feed, hv]
      rw [hrest]
      change _ ∧ (event :: stream.map Prod.snd).IsChain _ ↔ _
      tauto

/-- A stream of well-formed events in sequence is rejected for a price, if at all. -/
theorem feed_isPricePriority (hs : s.Synced) {stream : List (Rat × TradeEvent)}
    (hw : ∀ entry ∈ stream, entry.2.WellFormed)
    (hseq : (s.prevEvent.toList ++ stream.map Prod.snd).IsChain TradeEvent.InSequence)
    {violation : Violation} (hv : s.feed stream = some violation) : violation.isPricePriority := by
  induction stream generalizing s with
  | nil => cases hv
  | cons entry stream ih =>
    obtain ⟨now, event⟩ := entry
    have hprev : ∀ prev ∈ s.prevEvent, prev.InSequence event := by
      intro prev hprev
      rw [Option.mem_def.mp hprev] at hseq
      exact (List.isChain_cons_cons.mp hseq).1
    unfold feed at hv
    cases hval : s.validate event with
    | some violation' =>
      rw [hval] at hv
      cases hv
      rw [validate_eq_check hs (hw _ List.mem_cons_self) hprev] at hval
      exact checkPricePriority_isPricePriority hval
    | none =>
      rw [hval] at hv
      refine ih (synced_accept s now event) (fun entry hentry => hw _ (by simp [hentry])) ?_ hv
      exact hseq.suffix (List.suffix_append _ _)

/-- A stream of well-formed events in sequence is reported where a price is out of
priority. -/
theorem feed_reports {windowSeconds : Rat} {stream : List (Rat × TradeEvent)}
    (hw : ∀ entry ∈ stream, entry.2.WellFormed)
    (hseq : (stream.map Prod.snd).IsChain TradeEvent.InSequence)
    (hprice : ¬ (stream.map Prod.snd).IsChain TradeEvent.InPriority) :
    ∃ violation, (new windowSeconds).feed stream = some violation ∧ violation.isPricePriority := by
  cases hv : (new windowSeconds).feed stream with
  | none =>
    have hchain := ((feed_eq_none (synced_new windowSeconds) stream).mp hv).2
    exact absurd (hchain.imp fun _ _ h => h.priority) hprice
  | some violation =>
    exact ⟨violation, rfl, feed_isPricePriority (synced_new windowSeconds) hw hseq hv⟩

/-- A scorer may start at any event of a stream that passes. -/
theorem feed_suffix {windowSeconds : Rat} {events : List TradeEvent}
    (hw : ∀ event ∈ events, event.WellFormed) (hc : events.IsChain TradeEvent.Follows)
    {stream : List (Rat × TradeEvent)} (h : stream.map Prod.snd <:+ events) :
    (new windowSeconds).feed stream = none := by
  refine (feed_eq_none (synced_new _) stream).mpr ⟨fun entry hentry => ?_, ?_⟩
  · exact hw _ (h.subset (List.mem_map_of_mem hentry))
  · exact hc.suffix h

/-- Behind a stream that passes, the next event is judged by the event before it. -/
theorem feed_concat {s' : ContestantState} {stream : List (Rat × TradeEvent)} {now : Rat}
    (hs : s.Synced) (hpass : s.feed stream = none) (hs' : s'.Synced)
    (hprev : s'.prevEvent = (s.prevEvent.toList ++ stream.map Prod.snd).getLast?) :
    s.feed (stream ++ [(now, event)]) = s'.validate event := by
  induction stream generalizing s with
  | nil =>
    have hsame : s.prevEvent = s'.prevEvent := by
      rw [hprev]
      cases s.prevEvent <;> rfl
    have hvalid : s.validate event = s'.validate event := by
      unfold validate checkPricePriority
      rw [hs.lastMatchId, hs.lastT2Ns, hs'.lastMatchId, hs'.lastT2Ns, hsame]
    rw [List.nil_append, feed, ← hvalid]
    cases s.validate event <;> rfl
  | cons entry stream ih =>
    obtain ⟨now', first⟩ := entry
    rw [List.cons_append, feed]
    rw [feed] at hpass
    cases hv : s.validate first with
    | some violation =>
      rw [hv] at hpass
      cases hpass
    | none =>
      rw [hv] at hpass
      refine ih (synced_accept s now' first) hpass ?_
      have haccept : (s.accept now' first).prevEvent = some first := rfl
      rw [hprev, List.map_cons, haccept, Option.toList_some, List.getLast?_append,
        List.singleton_append, List.getLast?_cons, Option.some_or]

/-! ## Gaps -/

theorem validate_matchSequence {expected got : Nat}
    (h : s.validate event = some (.matchSequence expected got)) :
    s.lastMatchId.any (event.matchId ≠ · + 1) := by
  unfold validate at h
  split_ifs at h with h₁
  · exact h₁
  all_goals first
    | cases h
    | exact absurd (checkPricePriority_isPricePriority h) nofun

/-- Consecutive match ids are never reported as a gap. -/
theorem feed_ne_matchSequence {stream : List (Rat × TradeEvent)}
    (h : (s.lastMatchId.toList ++ stream.map fun entry => entry.2.matchId).IsChain
      fun prev id => id = prev + 1) (expected got : Nat) :
    s.feed stream ≠ some (.matchSequence expected got) := by
  induction stream generalizing s with
  | nil => nofun
  | cons entry stream ih =>
    obtain ⟨now, event⟩ := entry
    rw [List.map_cons] at h
    unfold feed
    cases hv : s.validate event with
    | none => exact ih h.right_of_append
    | some violation =>
      intro hgap
      rw [Option.some.inj hgap] at hv
      have hany := validate_matchSequence hv
      cases hlast : s.lastMatchId with
      | none =>
        rw [hlast] at hany
        cases hany
      | some last =>
        rw [hlast] at hany h
        exact absurd (List.isChain_cons_cons.mp h).1 (by simpa using hany)

/-- A gap behind a stream that passes is reported. -/
theorem feed_gap {stream : List (Rat × TradeEvent)} {prev : TradeEvent} {now now' : Rat}
    (hpass : s.feed (stream ++ [(now, prev)]) = none) (hgap : event.matchId ≠ prev.matchId + 1) :
    s.feed (stream ++ [(now, prev), (now', event)]) =
      some (.matchSequence (prev.matchId + 1) event.matchId) := by
  induction stream generalizing s with
  | nil =>
    have hany : (some prev.matchId).any (event.matchId ≠ · + 1) := by simpa using hgap
    rw [List.nil_append, feed] at hpass ⊢
    cases hv : s.validate prev with
    | some violation =>
      rw [hv] at hpass
      cases hpass
    | none =>
      have hgap' : (s.accept now prev).validate event =
          some (.matchSequence (prev.matchId + 1) event.matchId) := by
        unfold validate
        exact if_pos hany
      simp only [feed, hgap']
  | cons entry stream ih =>
    obtain ⟨now, first⟩ := entry
    rw [List.cons_append, feed] at hpass ⊢
    cases hv : s.validate first with
    | some violation =>
      rw [hv] at hpass
      cases hpass
    | none =>
      rw [hv] at hpass
      exact ih hpass

end ContestantState

end TradePlat.Scorer
