import TradePlat.Engine.Priority
import TradePlat.Scorer.ContestantState

/-!
# The scorer passes the engine

The events of a run of the engine, unpacked by the scorer, are well formed, and
each follows the one before it. So a scorer that starts at any event of the
stream reports nothing (`engine_passes`). Prices are doubles on both sides: the
engine compares them exactly, and rounding in `prev.price - PRICE_EPSILON` goes
down, never above the price it started from.
-/

namespace TradePlat.Scorer
open Runs Binary64 Engine

/-! ## The wire -/

/-- The event as the scorer unpacks it. -/
def unpacked (event : Engine.TradeEvent Double) : TradeEvent where
  matchId := event.matchId
  buyOrderId := event.buyOrderId.toNat
  sellOrderId := event.sellOrderId.toNat
  t0Ns := event.t0Ns.toNat
  t1Ns := event.t1Ns.toNat
  t2Ns := event.t2Ns.toNat
  price := event.price
  qty := event.qty.toNat

/-- The order id of an event, a 32-bit id extended to 64 bits with its sign. -/
def wireId (id : Int32) : Nat := id.toInt64.toUInt64.toNat

theorem wireId_inj {id id' : Int32} : wireId id = wireId id' ↔ id = id' := by
  constructor
  · intro h
    have h64 : id.toInt64 = id'.toInt64 := by
      simpa using congrArg UInt64.toInt64 (UInt64.toNat_inj.mp h)
    have hint := congrArg Int64.toInt h64
    rw [Int32.toInt_toInt64, Int32.toInt_toInt64] at hint
    exact Int32.toInt_inj.mp hint
  · rintro rfl
    rfl

theorem wireId_ne_zero {id : Int32} (h : id ≠ 0) : wireId id ≠ 0 := fun hzero =>
  h (wireId_inj.mp (hzero.trans (show 0 = wireId 0 by decide)))

/-- A reading that is not negative keeps its value on the wire. -/
theorem toUInt64_toNat {x : Int64} (h : 0 ≤ x.toInt) : (x.toUInt64.toNat : Int) = x.toInt := by
  have hlt := x.toInt_lt
  have hb : x.toInt = x.toBitVec.toInt := rfl
  have hn : x.toUInt64.toNat = x.toBitVec.toNat := rfl
  rw [hb] at h ⊢
  rw [hn, BitVec.toInt_eq_toNat_cond] at *
  split at h <;> omega

/-- A small id is its own wire id. -/
theorem wireId_ofNat {n : Nat} (h : n < 2 ^ 31) : wireId (Int32.ofNat n) = n := by
  have hint : (Int32.ofNat n).toInt64.toInt = n := by
    rw [Int32.toInt_toInt64, Int32.toInt_ofNat_of_lt h]
  have hwire : (wireId (Int32.ofNat n) : Int) = (Int32.ofNat n).toInt64.toInt :=
    toUInt64_toNat (by omega)
  omega

/-! ## What a run is given -/

/-- An order as the engine may take it while its next match is `n + 1`. -/
structure Eligible (clock : Nat → Int64) (n : Nat) (o : Order Double) : Prop where
  orderId : o.orderId ≠ 0
  quantity : 0 < o.quantity
  finite : o.price.IsFinite
  positive : Double.zero < o.price
  sent : 0 < o.t0
  received : o.t0 ≤ o.t1
  processed : o.t1 ≤ clock (n + 1)

instance (clock : Nat → Int64) (n : Nat) (o : Order Double) : Decidable (Eligible clock n o) :=
  decidable_of_iff (o.orderId ≠ 0 ∧ 0 < o.quantity ∧ o.price.IsFinite ∧ Double.zero < o.price ∧
      0 < o.t0 ∧ o.t0 ≤ o.t1 ∧ o.t1 ≤ clock (n + 1))
    ⟨fun ⟨h₁, h₂, h₃, h₄, h₅, h₆, h₇⟩ => ⟨h₁, h₂, h₃, h₄, h₅, h₆, h₇⟩,
      fun ⟨h₁, h₂, h₃, h₄, h₅, h₆, h₇⟩ => ⟨h₁, h₂, h₃, h₄, h₅, h₆, h₇⟩⟩

/-- An eligible order with a new id. Sequence numbers are those `Order` counts up. -/
def Scorable (clock : Nat → Int64) (past : List (Call Double)) (e : MatchingEngine Double) :
    Call Double → Prop
  | .addOrder o => Eligible clock e.nextMatchId o ∧
      ∀ r ∈ added past, r.orderId ≠ o.orderId ∧ r.seqNo < o.seqNo
  | .cancelOrder _ => True

instance (clock : Nat → Int64) (past : List (Call Double)) (e : MatchingEngine Double) :
    DecidablePred (Scorable clock past e)
  | .addOrder o => inferInstanceAs (Decidable (Eligible clock e.nextMatchId o ∧
      ∀ r ∈ added past, r.orderId ≠ o.orderId ∧ r.seqNo < o.seqNo))
  | .cancelOrder _ => inferInstanceAs (Decidable True)

variable {clock : Nat → Int64}

theorem kept_eligible (hclock : ∀ n, clock n ≤ clock (n + 1)) : Kept (Eligible clock) where
  later n o h := { h with processed := Int64.le_trans h.processed (hclock (n + 1)) }
  filled n o r hv hpos h := by
    rw [show r = { o with quantity := r.quantity } from hv] at hpos ⊢
    exact ⟨h.orderId, hpos, h.finite, h.positive, h.sent, h.received, h.processed⟩
  positive n o h := h.quantity

theorem Scorable.brings {past : List (Call Double)} {e : MatchingEngine Double}
    {c : Call Double} (h : Scorable clock past e c) : Brings (Eligible clock) past e c := by
  cases c with
  | addOrder o => exact h.1
  | cancelOrder id => trivial

theorem Scorable.distinct {past : List (Call Double)} {e : MatchingEngine Double}
    {c : Call Double} (h : Scorable clock past e c) : Distinct past e c := by
  cases c with
  | addOrder o => exact ⟨h.1.quantity, h.2⟩
  | cancelOrder id => trivial

theorem Scorable.comparablePrice {past : List (Call Double)} {e : MatchingEngine Double}
    {c : Call Double} (h : Scorable clock past e c) : ComparablePrice c := by
  cases c with
  | addOrder o => exact h.1.finite.not_nan
  | cancelOrder id => trivial

/-! ## Events -/

/-- **A match between two eligible orders makes a well-formed event.** -/
theorem wellFormed_of_made {f : Fill Double} {n : Nat} (h : f.Made clock (Eligible clock) n)
    (hne : f.buy.orderId ≠ f.sell.orderId) : (unpacked f.event).WellFormed := by
  obtain ⟨hevent, hbuy, hsell, hqty⟩ := h
  have htaker : Eligible clock n (taker f.buy f.sell) := by
    unfold taker
    split
    · exact hbuy
    · exact hsell
  have hprice : f.event.price = f.buy.price ∨ f.event.price = f.sell.price := by
    rw [hevent]
    exact executionPrice_eq f.buy f.sell
  have h₀ := Int64.lt_iff_toInt_lt.mp htaker.sent
  have h₁ := Int64.le_iff_toInt_le.mp htaker.received
  have h₂ := Int64.le_iff_toInt_le.mp htaker.processed
  have hzero : (0 : Int64).toInt = 0 := rfl
  rw [hzero] at h₀
  have ht₀ := toUInt64_toNat (x := (taker f.buy f.sell).t0) (by omega)
  have ht₁ := toUInt64_toNat (x := (taker f.buy f.sell).t1) (by omega)
  have ht₂ := toUInt64_toNat (x := clock (n + 1)) (by omega)
  have e₀ : (unpacked f.event).t0Ns = (taker f.buy f.sell).t0.toUInt64.toNat := by rw [hevent]; rfl
  have e₁ : (unpacked f.event).t1Ns = (taker f.buy f.sell).t1.toUInt64.toNat := by rw [hevent]; rfl
  have e₂ : (unpacked f.event).t2Ns = (clock (n + 1)).toUInt64.toNat := by rw [hevent]; rfl
  have eb : (unpacked f.event).buyOrderId = wireId f.buy.orderId := by rw [hevent]; rfl
  have es : (unpacked f.event).sellOrderId = wireId f.sell.orderId := by rw [hevent]; rfl
  refine ⟨?_, ?_, ?_, by omega, by omega, by omega, ?_, ?_, hqty⟩
  · rw [eb]
    exact wireId_ne_zero hbuy.orderId
  · rw [es]
    exact wireId_ne_zero hsell.orderId
  · rw [eb, es]
    exact fun hid => hne (wireId_inj.mp hid)
  · change f.event.price.IsFinite
    rcases hprice with hp | hp <;> rw [hp]
    · exact hbuy.finite
    · exact hsell.finite
  · change Double.zero < f.event.price
    rcases hprice with hp | hp <;> rw [hp]
    · exact hbuy.positive
    · exact hsell.positive

/-- **The next event of the engine follows for the scorer.** -/
theorem follows_unpacked (hclock : ∀ n, clock n ≤ clock (n + 1)) {f g : Fill Double} {m n : Nat}
    (hf : f.Made clock (Eligible clock) m) (hg : g.Made clock (Eligible clock) n)
    (hfin : (unpacked f.event).price.IsFinite) (h : f.Follows g) :
    (unpacked f.event).Follows (unpacked g.event) := by
  have hn : n = m + 1 := by
    have := h.matchId
    rw [hf.event, hg.event] at this
    exact Nat.succ.inj this
  subst hn
  have eid : ∀ {f : Fill Double} {n : Nat}, f.Made clock (Eligible clock) n →
      (unpacked f.event).buyOrderId = wireId f.buy.orderId ∧
        (unpacked f.event).sellOrderId = wireId f.sell.orderId := fun hm => by
    rw [hm.event]
    exact ⟨rfl, rfl⟩
  refine ⟨⟨h.matchId, ?_⟩, fun hid _ => ?_, fun hid _ => ?_⟩
  · have h₁ := Int64.le_iff_toInt_le.mp hf.buy.processed
    have h₂ := Int64.le_iff_toInt_le.mp (hclock (m + 1))
    have h₃ := Int64.lt_iff_toInt_lt.mp hf.buy.sent
    have h₄ := Int64.le_iff_toInt_le.mp hf.buy.received
    have hzero : (0 : Int64).toInt = 0 := rfl
    rw [hzero] at h₃
    have ht := toUInt64_toNat (x := clock (m + 1)) (by omega)
    have ht' := toUInt64_toNat (x := clock (m + 1 + 1)) (by omega)
    have e : (unpacked f.event).t2Ns = (clock (m + 1)).toUInt64.toNat := by rw [hf.event]; rfl
    have e' : (unpacked g.event).t2Ns = (clock (m + 1 + 1)).toUInt64.toNat := by rw [hg.event]; rfl
    omega
  · rw [(eid hf).1, (eid hg).1, wireId_inj] at hid
    exact not_lt_sub_epsilon hfin (h.buy hid)
  · rw [(eid hf).2, (eid hg).2, wireId_inj] at hid
    exact not_add_epsilon_lt hfin (h.sell hid)

/-! ## Runs -/

/-- The events of a run, as the scorer unpacks them. -/
def events (clock : Nat → Int64) (calls : List (Call Double)) : List TradeEvent :=
  (outputs (call clock) MatchingEngine.init calls).map fun f => unpacked f.event

theorem events_pass (hclock : ∀ n, clock n ≤ clock (n + 1)) {calls : List (Call Double)}
    (h : Guarded (call clock) (Scorable clock) [] MatchingEngine.init calls) :
    (∀ event ∈ events clock calls, event.WellFormed) ∧
      (events clock calls).IsChain TradeEvent.Follows := by
  have hmade := made_run (kept_eligible hclock) (h.mono fun _ _ _ hok => hok.brings)
  obtain ⟨hchain, hparties⟩ := priority_run_double clock calls
    (h.mono fun _ _ _ hok => hok.distinct)
    (h.forall_mem fun _ _ _ hok => hok.comparablePrice)
  have hwell : ∀ f ∈ outputs (call clock) MatchingEngine.init calls,
      (unpacked f.event).WellFormed := by
    intro f hf
    obtain ⟨n, hn⟩ := hmade f hf
    exact wellFormed_of_made hn (hparties f hf)
  constructor
  · exact List.forall_mem_map.mpr hwell
  · rw [events, List.isChain_map]
    apply hchain.imp_of_mem_imp
    intro f g hf hg hfg
    obtain ⟨m, hm⟩ := hmade f hf
    obtain ⟨n, hn⟩ := hmade g hg
    exact follows_unpacked hclock hm hn (hwell f hf).finite hfg

/-- **No false positives.** A scorer that reads the events of the engine in order,
from any event on, finds no violation. -/
theorem engine_passes (clock : Nat → Int64) (hclock : ∀ n, clock n ≤ clock (n + 1))
    (calls : List (Call Double))
    (h : Guarded (call clock) (Scorable clock) [] MatchingEngine.init calls)
    (windowSeconds : Rat) (stream : List (Rat × TradeEvent))
    (hstream : stream.map Prod.snd <:+ events clock calls) :
    (ContestantState.new windowSeconds).feed stream = none := by
  obtain ⟨hwell, hchain⟩ := events_pass hclock h
  exact ContestantState.feed_suffix hwell hchain hstream

/-- A buy that sweeps two levels and rests, and a sell that then hits it. -/
def takerThenMaker : List (Call Double) :=
  [.addOrder ⟨1, 5, false, ⟨0x4024000000000000⟩, 1, 2, 0⟩,
    .addOrder ⟨2, 5, false, ⟨0x4025000000000000⟩, 1, 2, 1⟩,
    .addOrder ⟨3, 12, true, ⟨0x4026000000000000⟩, 3, 4, 2⟩,
    .addOrder ⟨4, 1, false, ⟨0x4022000000000000⟩, 3, 4, 3⟩, .cancelOrder 3]

theorem takerThenMaker_passes :
    (ContestantState.new 1).feed
      (((events (fun _ => 9) takerThenMaker).drop 1).map fun event => (0, event)) = none :=
  engine_passes (fun _ => 9) (fun _ => by decide) takerThenMaker (by decide) 1 _ (by
    rw [List.map_map]
    exact List.map_id _ ▸ List.drop_suffix 1 _)

end TradePlat.Scorer
