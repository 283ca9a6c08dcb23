import TradePlat.Scorer.NoFalsePositives
import TradePlat.Scorer.SlidingWindow
import TradePlat.Telemetry.Delivery

/-!
# The scorer's books and the engine's (`scoring_engine.py`, `MatchingEngine.cpp`)

`order_fills` adds up what the events fill of every id; the engine takes the same off
the orders in its book. For orders the scorer has nothing to object to, whatever they
trade, the two books agree: what `order_fills` has of an id and what rests of its order
are together what was submitted (`books_balance`).
-/

namespace TradePlat.Telemetry
open Runs Binary64 Engine Scorer

/-- The quantity that the events fill of the order `id`, on either side. -/
def filledIn (id : Nat) (events : List Scorer.TradeEvent) : Nat :=
  (events.map fun event => filledBy id (0, event)).sum

/-- The quantity in `order_fills`. -/
def fillsOf (state : ContestantState) (id : Nat) : Nat := (state.orderFills.lookup id).getD 0

/-! ## The state behind a stream that passes -/

theorem process_accepted (str : Double → String) (now : Nat → Rat) {state : ContestantState}
    {events : List Scorer.TradeEvent} (h : (process str now state events).2 = none) :
    (process str now state events).1.correctness = state.correctness ∧
      (process str now state events).1.totalEvents = state.totalEvents + events.length ∧
      ∀ id, fillsOf (process str now state events).1 id = fillsOf state id + filledIn id events := by
  induction events generalizing state with
  | nil => exact ⟨rfl, rfl, fun _ => rfl⟩
  | cons event events ih =>
    rw [process] at h ⊢
    cases hv : state.validate event with
    | some violation =>
      rw [hv] at h
      cases h
    | none =>
      rw [hv] at h
      obtain ⟨hcorrectness, htotal, hfills⟩ := ih h
      refine ⟨hcorrectness, ?_, fun id => ?_⟩
      · rw [htotal, List.length_cons]
        change state.totalEvents + 1 + _ = _
        omega
      · have hrecord := (lookup_record state (now state.totalEvents) event id).1
        have haccept : fillsOf (state.accept (now state.totalEvents) event) id =
            fillsOf state id + filledBy id (0, event) := hrecord
        rw [hfills, haccept, Nat.add_assoc]
        rfl

/-! ## The orders of a run -/

section Orders
variable {clock : Nat → Int64}

/-- Ids and sequence numbers of orders the scorer has nothing to object to. -/
theorem scorable_orders {past : List (Engine.Call Double)} {e : MatchingEngine Double}
    {orders : List (Order Double)}
    (h : Guarded (call clock) (Scorable clock) past e (orders.map .addOrder)) :
    (∀ o ∈ orders, 0 < o.quantity ∧
        ∀ r ∈ added past, r.orderId ≠ o.orderId ∧ r.seqNo < o.seqNo) ∧
      orders.Pairwise fun r o => r.orderId ≠ o.orderId ∧ r.seqNo < o.seqNo := by
  induction orders generalizing past e with
  | nil => exact ⟨by simp, .nil⟩
  | cons o orders ih =>
    obtain ⟨hlater, hpairs⟩ := ih h.2
    refine ⟨fun o' ho' => ?_, List.pairwise_cons.mpr ⟨fun o' ho' => ?_, hpairs⟩⟩
    · rcases List.mem_cons.mp ho' with rfl | ho'
      · exact ⟨h.1.1.quantity, h.1.2⟩
      · exact ⟨(hlater o' ho').1, fun r hr => (hlater o' ho').2 r (by simp [hr])⟩
    · exact (hlater o' ho').2 o (by simp)

/-- Among such orders the ids and the sequence numbers name the same. -/
theorem orderId_eq_iff {orders : List (Order Double)}
    (h : orders.Pairwise fun r o => r.orderId ≠ o.orderId ∧ r.seqNo < o.seqNo)
    {o o' : Order Double} (ho : o ∈ orders) (ho' : o' ∈ orders) :
    o.orderId = o'.orderId ↔ o.seqNo = o'.seqNo := by
  have hdiffer : ∀ {r r' : Order Double}, r.orderId ≠ r'.orderId ∧ r.seqNo < r'.seqNo →
      (r.orderId = r'.orderId ↔ r.seqNo = r'.seqNo) := fun hro =>
    ⟨fun hid => absurd hid hro.1, fun hseq => absurd hseq (Nat.ne_of_lt hro.2)⟩
  refine List.Pairwise.forall_of_forall_of_flip
    (R := fun r r' : Order Double => r.orderId = r'.orderId ↔ r.seqNo = r'.seqNo)
    (fun _ _ => ⟨fun _ => rfl, fun _ => rfl⟩) (h.imp hdiffer) (h.imp fun hro => ?_) ho ho'
  exact ⟨fun hid => ((hdiffer hro).mp hid.symm).symm, fun hseq => ((hdiffer hro).mpr hseq.symm).symm⟩

end Orders

/-! ## Fills and events -/

/-- The events have of an order what the fills have. -/
theorem filledIn_events {o : Order Double} {fs : List (Fill Double)}
    (hbuy : ∀ f ∈ fs, f.event.buyOrderId = f.buy.orderId.toInt64.toUInt64 ∧
      (f.buy.orderId = o.orderId ↔ f.buy.seqNo = o.seqNo))
    (hsell : ∀ f ∈ fs, f.event.sellOrderId = f.sell.orderId.toInt64.toUInt64 ∧
      (f.sell.orderId = o.orderId ↔ f.sell.seqNo = o.seqNo))
    (hparties : ∀ f ∈ fs, f.buy.orderId ≠ f.sell.orderId) :
    (filledIn (wireId o.orderId) (fs.map fun f => unpacked f.event) : Int) =
      Engine.filled fs o.seqNo := by
  induction fs with
  | nil => rfl
  | cons f fs ih =>
    have hrest := ih (fun g hg => hbuy g (List.mem_cons_of_mem _ hg))
      (fun g hg => hsell g (List.mem_cons_of_mem _ hg))
      fun g hg => hparties g (List.mem_cons_of_mem _ hg)
    obtain ⟨hbid, hbseq⟩ := hbuy f List.mem_cons_self
    obtain ⟨hsid, hsseq⟩ := hsell f List.mem_cons_self
    have hne := hparties f List.mem_cons_self
    have hb : (unpacked f.event).buyOrderId = wireId f.buy.orderId := by
      change f.event.buyOrderId.toNat = _
      rw [hbid]
      rfl
    have hs : (unpacked f.event).sellOrderId = wireId f.sell.orderId := by
      change f.event.sellOrderId.toNat = _
      rw [hsid]
      rfl
    -- an event counts once, since its parties differ
    have hone : (filledBy (wireId o.orderId) (0, unpacked f.event) : Int) =
        if f.buy.seqNo = o.seqNo ∨ f.sell.seqNo = o.seqNo then (f.event.qty.toNat : Int) else 0 := by
      simp only [filledBy, hb, hs, wireId_inj, hbseq, hsseq]
      change (((if _ then f.event.qty.toNat else 0) + if _ then f.event.qty.toNat else 0 : Nat) : Int)
        = _
      by_cases h₁ : f.buy.seqNo = o.seqNo
      · have h₂ : ¬ f.sell.seqNo = o.seqNo := fun h₂ =>
          hne ((hbseq.mpr h₁).trans (hsseq.mpr h₂).symm)
        rw [if_pos h₁, if_neg h₂, if_pos (Or.inl h₁), Nat.add_zero]
      · by_cases h₂ : f.sell.seqNo = o.seqNo
        · rw [if_neg h₁, if_pos h₂, if_pos (Or.inr h₂), Nat.zero_add]
        · rw [if_neg h₁, if_neg h₂, if_neg (not_or.mpr ⟨h₁, h₂⟩)]
          rfl
    rw [Engine.filled_cons, ← hrest, ← hone, List.map_cons, filledIn, List.map_cons, List.sum_cons,
      Int.natCast_add]
    rfl

/-! ## The books -/

/-- What the scorer says of a run of the engine, and what is in the book behind it. -/
structure Balanced (clock : Nat → Int64) (orders : List (Order Double))
    (final : ContestantState × Option Violation) : Prop where
  passed : final.2 = none ∧ final.1.correctness = "PASSED"
  totalEvents : final.1.totalEvents =
    (outputs (call clock) .init (orders.map .addOrder)).length
  account : ∀ o ∈ orders, (fillsOf final.1 (wireId o.orderId) : Int) +
    remaining (run (call clock) .init (orders.map .addOrder)).1.book o.seqNo = o.quantity.toInt

theorem process_balanced {clock : Nat → Int64} (hclock : ∀ n, clock n ≤ clock (n + 1))
    {orders : List (Order Double)}
    (h : Guarded (call clock) (Scorable clock) [] .init (orders.map .addOrder))
    (str : Double → String) (now : Nat → Rat) (windowSeconds : Rat) :
    Balanced clock orders
      (process str now (.new windowSeconds) (events clock (orders.map .addOrder))) := by
  obtain ⟨horders, hpairs⟩ := scorable_orders h
  obtain ⟨hwell, hchain⟩ := events_pass hclock h
  have hpos : ∀ o ∈ orders, 0 < o.quantity := fun o ho => (horders o ho).1
  have hpassed : (process str now (.new windowSeconds)
      (events clock (orders.map .addOrder))).2 = none := by
    rw [process_violation]
    refine ContestantState.feed_suffix hwell hchain ?_
    have hevents : ∀ l : List Scorer.TradeEvent, (l.mapIdx fun i event =>
        (now ((ContestantState.new windowSeconds).totalEvents + i), event)).map Prod.snd = l := by
      intro l
      exact List.ext_getElem (by simp) (by simp)
    exact ⟨[], by rw [hevents, List.nil_append]⟩
  obtain ⟨hcorrectness, htotal, hfills⟩ := process_accepted str now hpassed
  refine ⟨⟨hpassed, hcorrectness⟩, ?_, fun o ho => ?_⟩
  · rw [htotal, events, List.length_map]
    exact Nat.zero_add _
  · have hparties := (priority_run_double clock (orders.map .addOrder)
      (h.mono fun _ _ _ hok => hok.distinct)
      (h.forall_mem fun _ _ _ hok => hok.comparablePrice)).2
    have hsubmitted := parties_submitted clock orders
    have hsame : ∀ {r : Order Double}, (∃ o' ∈ orders, o'.Version r) →
        (r.orderId = o.orderId ↔ r.seqNo = o.seqNo) := by
      rintro r ⟨o', ho', hv⟩
      rw [hv.orderId, hv.seqNo]
      exact orderId_eq_iff hpairs ho' ho
    have hfilled := filledIn_events (o := o)
      (fun f hf => by
        obtain ⟨hbuy, -, n, hevent⟩ := hsubmitted f hf
        exact ⟨by rw [hevent]; rfl, hsame hbuy⟩)
      (fun f hf => by
        obtain ⟨-, hsell, n, hevent⟩ := hsubmitted f hf
        exact ⟨by rw [hevent]; rfl, hsame hsell⟩) hparties
    have hconserved : Conserved orders (outputs (addOrder clock) .init orders)
        (run (addOrder clock) .init orders).1 :=
      invariant_run Conserved
        (fun past out e o hc hok => conserved_addOrder hc hok.1 hok.2) conserved_init
        (guarded_newOrder hpos (List.pairwise_map.mpr (hpairs.imp fun hro => Nat.ne_of_lt hro.2)))
    have haccount := hconserved.account o ho
    obtain ⟨hrun, hout⟩ := run_addOrder clock orders
    rw [← hrun, ← hout] at haccount
    rw [hfills, haccount, events, Int.natCast_add, hfilled]
    change (0 : Int) + _ + _ = _
    omega

end TradePlat.Telemetry
