import Mathlib.Data.List.Chain
import TradePlat.Engine.Reachable
import TradePlat.Engine.Stream

/-!
# The prices of consecutive trades

Where one order takes part in two trades in a row, a buy order does not pay less
the second time and a sell order does not get more (`priority_run`). The reason
is what the book looks like behind a trade (`Fill.Bounds`): an order older than
the buyer asks at least the price of the trade, since the seller was the best of
them or the buyer had been waiting below them. Orders added later are not older,
and cancels and fills only take orders away, so the bounds last until the next
trade, whether the buyer is the taker of it or the maker.
-/

namespace TradePlat.Engine
open Runs Binary64

variable {P : Type}

/-- The second of two trades in a row: a common buy order does not pay less, a
common sell order does not get more. -/
structure Fill.Follows [LE P] (f g : Fill P) : Prop where
  matchId : g.event.matchId = f.event.matchId + 1
  buy : g.buy.orderId = f.buy.orderId → f.event.price ≤ g.event.price
  sell : g.sell.orderId = f.sell.orderId → g.event.price ≤ f.event.price

/-- The added order is new in its id and the latest by its sequence number. -/
def Distinct (past : List (Call P)) (_ : MatchingEngine P) : Call P → Prop
  | .addOrder o => 0 < o.quantity ∧ ∀ r ∈ added past, r.orderId ≠ o.orderId ∧ r.seqNo < o.seqNo
  | .cancelOrder _ => True

instance (past : List (Call P)) (e : MatchingEngine P) : DecidablePred (Distinct past e)
  | .addOrder o => inferInstanceAs (Decidable (0 < o.quantity ∧
      ∀ r ∈ added past, r.orderId ≠ o.orderId ∧ r.seqNo < o.seqNo))
  | .cancelOrder _ => inferInstanceAs (Decidable True)

/-- Ids and sequence numbers tell the submitted orders apart. -/
structure Apart (past : List (Call P)) : Prop where
  orderId : ((added past).map Order.orderId).Nodup
  seqNo : ((added past).map Order.seqNo).Nodup

theorem Apart.add {past : List (Call P)} (h : Apart past) {o : Order P}
    (hnew : ∀ r ∈ added past, r.orderId ≠ o.orderId ∧ r.seqNo < o.seqNo) :
    Apart (past ++ [.addOrder o]) := by
  have hadd : added (past ++ [.addOrder o]) = added past ++ [o] := by simp
  constructor
  · rw [hadd, List.map_append, List.nodup_append]
    refine ⟨h.orderId, by simp, fun id hid id' hid' => ?_⟩
    obtain ⟨r, hr, rfl⟩ := List.mem_map.mp hid
    rw [List.map_singleton, List.mem_singleton] at hid'
    rw [hid']
    exact (hnew r hr).1
  · rw [hadd, List.map_append, List.nodup_append]
    refine ⟨h.seqNo, by simp, fun n hn n' hn' => ?_⟩
    obtain ⟨r, hr, rfl⟩ := List.mem_map.mp hn
    rw [List.map_singleton, List.mem_singleton] at hn'
    rw [hn']
    exact (hnew r hr).2.ne

theorem Apart.call {past : List (Call P)} {e : MatchingEngine P} (ha : Apart past) {c : Call P}
    (hok : Distinct past e c) : Apart (past ++ [c]) := by
  cases c with
  | addOrder o => exact ha.add hok.2
  | cancelOrder id => exact ⟨by simpa using ha.orderId, by simpa using ha.seqNo⟩

/-- `r` is a submitted order, up to what was filled of it. -/
def Submitted (past : List (Call P)) (r : Order P) : Prop := ∃ o ∈ added past, o.Version r

theorem Submitted.append {past more : List (Call P)} {r : Order P} (h : Submitted past r) :
    Submitted (past ++ more) r := by
  obtain ⟨o, ho, hv⟩ := h
  exact ⟨o, by simp [ho], hv⟩

/-- Two versions of one submitted order. -/
theorem Apart.same_price {past : List (Call P)} (h : Apart past) {r s : Order P}
    (hr : Submitted past r) (hs : Submitted past s) (hid : r.orderId = s.orderId) :
    r.price = s.price ∧ r.seqNo = s.seqNo := by
  obtain ⟨o, ho, hv⟩ := hr
  obtain ⟨o', ho', hv'⟩ := hs
  rw [hv.orderId, hv'.orderId] at hid
  obtain rfl := List.inj_on_of_nodup_map h.orderId ho ho' hid
  exact ⟨by rw [hv.price, hv'.price], by rw [hv.seqNo, hv'.seqNo]⟩

section LinearOrder
variable [LinearOrder P] {clock : Nat → Int64} {e e' : MatchingEngine P} {f g : Fill P}
  {past : List (Call P)} {n : Nat}

/-! ## Bounds behind a trade -/

/-- The orders that are older than a party of the trade are priced away from it. -/
structure Fill.Bounds (f : Fill P) (book : OrderBook P) : Prop where
  asks : ∀ r ∈ book.resting false, r.seqNo < f.buy.seqNo → f.event.price ≤ r.price
  bids : ∀ r ∈ book.resting true, r.seqNo < f.sell.seqNo → r.price ≤ f.event.price

/-- What holds at the head of every iteration, `n` being the number of the order
that is coming in: the others do not cross. -/
structure Sweeping (past : List (Call P)) (n : Nat) (book : OrderBook P) : Prop where
  head : AtHead book
  submitted : ∀ r ∈ book.orders, Submitted past r
  newest : ∀ r ∈ book.orders, r.seqNo ≤ n
  older : ∀ b ∈ book.resting true, ∀ s ∈ book.resting false, b.seqNo < n → s.seqNo < n →
    b.price < s.price

theorem TradeStep.sweeping (h : TradeStep clock e e' f) (hs : Sweeping past n e.book) :
    Sweeping past n e'.book where
  head := h.atHead hs.head
  submitted r hr := by
    obtain ⟨o, ho, hv⟩ := h.origin hr
    obtain ⟨s, hmem, hv'⟩ := hs.submitted o ho
    exact ⟨s, hmem, hv'.trans hv⟩
  newest r hr := by
    obtain ⟨o, ho, hv⟩ := h.origin hr
    rw [hv.seqNo]
    exact hs.newest o ho
  older b hb s hs' hbn hsn := by
    obtain ⟨b', hb', hvb⟩ := h.origin_side hb
    obtain ⟨s', hs'', hvs⟩ := h.origin_side hs'
    rw [hvb.seqNo] at hbn
    rw [hvs.seqNo] at hsn
    rw [hvb.price, hvs.price]
    exact hs.older b' hb' s' hs'' hbn hsn

theorem TradeStep.sides (h : TradeStep clock e e' f) (hl : e.book.Levelled) :
    f.buy.isBuy = true ∧ f.sell.isBuy = false := by
  cases h with
  | @intro bid ask buy sell buyRest sellRest buys sells m n crosses =>
    exact ⟨(hl.own true (bid, buy :: buyRest) List.mem_cons_self buy List.mem_cons_self).2,
      (hl.own false (ask, sell :: sellRest) List.mem_cons_self sell List.mem_cons_self).2⟩

/-- The buyer and the seller are the best of their sides. -/
theorem TradeStep.best (h : TradeStep clock e e' f) (hl : e.book.Levelled) :
    (∀ r ∈ e.book.resting true, r.price ≤ f.buy.price) ∧
      ∀ r ∈ e.book.resting false, f.sell.price ≤ r.price := by
  cases h with
  | @intro bid ask buy sell buyRest sellRest buys sells m n crosses =>
    have hbid := (hl.own true (bid, buy :: buyRest) List.mem_cons_self buy List.mem_cons_self).1
    have hask := (hl.own false (ask, sell :: sellRest) List.mem_cons_self sell List.mem_cons_self).1
    constructor
    · intro r hr
      rw [hbid]
      rcases hl.best (b := true) rfl hr with h | h
      · exact h.le
      · exact (before_true.mp h).le
    · intro r hr
      rw [hask]
      rcases hl.best (b := false) rfl hr with h | h
      · exact h.ge
      · exact (before_false.mp h).le

theorem TradeStep.seqNo_ne (h : TradeStep clock e e' f) (hs : Sweeping past n e.book)
    (ha : Apart past) : f.buy.seqNo ≠ f.sell.seqNo := by
  intro heq
  obtain ⟨o, ho, hv⟩ := hs.submitted _ h.mem_orders.1
  obtain ⟨o', ho', hv'⟩ := hs.submitted _ h.mem_orders.2
  rw [hv.seqNo, hv'.seqNo] at heq
  obtain rfl := List.inj_on_of_nodup_map ha.seqNo ho ho' heq
  obtain ⟨hbuy, hsell⟩ := h.sides hs.head.consistent.toLevelled
  rw [hv.isBuy] at hbuy
  rw [hv'.isBuy, hbuy] at hsell
  cases hsell

theorem TradeStep.bounds (h : TradeStep clock e e' f) (hs : Sweeping past n e.book)
    (ha : Apart past) : f.Bounds e'.book := by
  have hl := hs.head.consistent.toLevelled
  have hcross := h.crosses hl
  obtain ⟨hbestBuy, hbestSell⟩ := h.best hl
  have hprice : f.event.price = executionPrice f.buy f.sell := by rw [h.event_eq.1]; rfl
  obtain ⟨bs, hb, -⟩ := h.resting_buy
  obtain ⟨ss, hss, -⟩ := h.resting_sell
  have hbuy : f.buy ∈ e.book.resting true := by simp [hb]
  have hsell : f.sell ∈ e.book.resting false := by simp [hss]
  have hbn := hs.newest _ h.mem_orders.1
  have hsn := hs.newest _ h.mem_orders.2
  have hne := h.seqNo_ne hs ha
  constructor
  · intro r hr hlt
    obtain ⟨o, ho, hv⟩ := h.origin_side hr
    rw [hv.seqNo] at hlt
    rw [hprice, hv.price, executionPrice]
    split
    · -- the buyer was waiting, and the older asks above it
      exact (hs.older _ hbuy o ho (by omega) (by omega)).le
    · exact hbestSell o ho
  · intro r hr hlt
    obtain ⟨o, ho, hv⟩ := h.origin_side hr
    rw [hv.seqNo] at hlt
    rw [hprice, hv.price, executionPrice]
    split
    · exact hbestBuy o ho
    · exact (hs.older o ho _ hsell (by omega) (by omega)).le

/-! ## The latest trade -/

/-- What is known of the latest trade while `past` are the calls so far. -/
structure Fill.Latest (past : List (Call P)) (f : Fill P) (e : MatchingEngine P) : Prop where
  matchId : f.event.matchId = e.nextMatchId
  bounds : f.Bounds e.book
  buy : Submitted past f.buy
  sell : Submitted past f.sell
  floor : f.sell.price ≤ f.event.price
  ceiling : f.event.price ≤ f.buy.price

theorem TradeStep.latest (h : TradeStep clock e e' f) (hs : Sweeping past n e.book)
    (ha : Apart past) : f.Latest past e' where
  matchId := by
    rw [h.event_eq.1, h.event_eq.2]
    rfl
  bounds := h.bounds hs ha
  buy := hs.submitted _ h.mem_orders.1
  sell := hs.submitted _ h.mem_orders.2
  floor := (h.within_limits hs.head.consistent.toLevelled).1
  ceiling := (h.within_limits hs.head.consistent.toLevelled).2

/-- **The next trade follows the latest one.** -/
theorem TradeStep.follows (h : TradeStep clock e e' g) (hs : Sweeping past n e.book)
    (ha : Apart past) (hf : f.Latest past e) : f.Follows g := by
  have hprice : g.event.price = executionPrice g.buy g.sell := by rw [h.event_eq.1]; rfl
  obtain ⟨bs, hb, -⟩ := h.resting_buy
  obtain ⟨ss, hss, -⟩ := h.resting_sell
  have hne := h.seqNo_ne hs ha
  refine ⟨?_, fun hid => ?_, fun hid => ?_⟩
  · rw [h.event_eq.1, hf.matchId]
    rfl
  · obtain ⟨hp, hseq⟩ := ha.same_price (hs.submitted _ h.mem_orders.1) hf.buy hid
    rw [hprice, executionPrice]
    split
    · rw [hp]
      exact hf.ceiling
    · exact hf.bounds.asks g.sell (by simp [hss]) (by omega)
  · obtain ⟨hp, hseq⟩ := ha.same_price (hs.submitted _ h.mem_orders.2) hf.sell hid
    rw [hprice, executionPrice]
    split
    · exact hf.bounds.bids g.buy (by simp [hb]) (by omega)
    · rw [hp]
      exact hf.floor

/-- The trades so far, and the book behind them. -/
structure History (past : List (Call P)) (out : List (Fill P)) (e : MatchingEngine P) : Prop where
  chain : out.IsChain Fill.Follows
  parties : ∀ f ∈ out, f.buy.orderId ≠ f.sell.orderId
  latest : ∀ f ∈ out.getLast?, f.Latest past e

theorem TradeStep.history {out : List (Fill P)} (h : TradeStep clock e e' g)
    (hs : Sweeping past n e.book) (ha : Apart past) (hh : History past out e) :
    History past (out ++ [g]) e' where
  chain := List.isChain_append.mpr ⟨hh.chain, List.isChain_singleton g, fun f hf g' hg' => by
    obtain rfl : g = g' := by simpa using hg'
    exact h.follows hs ha (hh.latest f hf)⟩
  parties f hf := by
    rcases List.mem_append.mp hf with hf | hf
    · exact hh.parties f hf
    · obtain rfl : f = g := List.mem_singleton.mp hf
      intro hid
      exact h.seqNo_ne hs ha
        (ha.same_price (hs.submitted _ h.mem_orders.1) (hs.submitted _ h.mem_orders.2) hid).2
  latest f hf := by
    obtain rfl : g = f := by simpa using hf
    exact h.latest hs ha

theorem Matches.history {fs out : List (Fill P)} (h : Matches clock e fs e')
    (hs : Sweeping past n e.book) (ha : Apart past) (hh : History past out e) :
    History past (out ++ fs) e' := by
  induction h generalizing out with
  | exit _ => rwa [List.append_nil]
  | emptyLevel hstep _ _ =>
    exact absurd hstep (NoEmptyLevel.not_emptyLevel hs.head.consistent.nonempty _)
  | trade ht _ ih =>
    have := ih (ht.sweeping hs) (ht.history hs ha hh)
    rwa [List.append_assoc] at this

/-! ## Whole runs -/

/-- The orders that rest come from those before, or are newer than all of them. -/
theorem History.mono {out : List (Fill P)} {past' : List (Call P)} (hh : History past out e)
    (hpast : ∀ r, Submitted past r → Submitted past' r) (hnext : e'.nextMatchId = e.nextMatchId)
    (hrest : ∀ b, ∀ r ∈ e'.book.resting b, r ∈ e.book.resting b ∨
      ∀ s, Submitted past s → s.seqNo < r.seqNo) :
    History past' out e' where
  chain := hh.chain
  parties := hh.parties
  latest f hf := by
    have hl := hh.latest f hf
    refine ⟨hl.matchId.trans hnext.symm, ⟨fun r hr hlt => ?_, fun r hr hlt => ?_⟩,
      hpast _ hl.buy, hpast _ hl.sell, hl.floor, hl.ceiling⟩
    · rcases hrest _ r hr with hr | hr
      · exact hl.bounds.asks r hr hlt
      · exact absurd (hr _ hl.buy) (by omega)
    · rcases hrest _ r hr with hr | hr
      · exact hl.bounds.bids r hr hlt
      · exact absurd (hr _ hl.sell) (by omega)

theorem Reached.admissible (h : Reached past e) {c : Call P} (hok : Distinct past e c) :
    Admissible past e c := by
  cases c with
  | addOrder o =>
    refine ⟨hok.1, fun r hr => ?_, fun r hr => (hok.2 r hr).2⟩
    obtain ⟨o', ho', hv⟩ := h.submitted r hr
    rw [hv.orderId]
    exact (hok.2 o' ho').1
  | cancelOrder id => trivial

/-- The book that `matching` starts on. -/
theorem Reached.sweeping_push (h : Reached past e) {o : Order P}
    (hok : Admissible past e (.addOrder o)) :
    Sweeping (past ++ [.addOrder o]) o.seqNo (e.book.push o) := by
  have hmem : ∀ r ∈ (e.book.push o).orders, r = o ∨ r ∈ e.book.orders := fun r hr =>
    List.mem_cons.mp ((push_orders e.book o).mem_iff.mp hr)
  have hold : ∀ {b r}, r ∈ (e.book.push o).resting b → r.seqNo < o.seqNo →
      r ∈ e.book.resting b := by
    intro b r hr hlt
    rcases Bool.eq_or_eq_not b o.isBuy with rfl | rfl
    · rcases List.mem_cons.mp ((push_resting_own e.book o).mem_iff.mp hr) with rfl | hr
      · omega
      · exact hr
    · rwa [push_resting_other] at hr
  refine ⟨h.atHead_push hok, fun r hr => ?_, fun r hr => ?_, fun b hb s hs hbn hsn => ?_⟩
  · rcases hmem r hr with rfl | hr
    · exact ⟨r, by simp, .refl r⟩
    · exact Submitted.append (h.submitted r hr)
  · rcases hmem r hr with rfl | hr
    · exact le_refl _
    · exact (h.last hok r hr).le
  · exact h.consistent.uncrossed_iff.mp h.uncrossed b (hold hb hbn) s (hold hs hsn)

theorem history_call {out : List (Fill P)} (h : Reached past e) (ha : Apart past)
    (hh : History past out e) {c : Call P} (hok : Distinct past e c) :
    History (past ++ [c]) (out ++ (call clock e c).2) (call clock e c).1 := by
  cases c with
  | addOrder o =>
    have hadm := h.admissible hok
    refine (matching_matches clock { e with book := e.book.push o }).history
      (h.sweeping_push hadm) (ha.add hok.2) (hh.mono (fun r hr => hr.append) rfl fun b r hr => ?_)
    rcases Bool.eq_or_eq_not b o.isBuy with rfl | rfl
    · rcases List.mem_cons.mp ((push_resting_own e.book o).mem_iff.mp hr) with rfl | hr
      · apply Or.inr
        rintro s ⟨o', ho', hv⟩
        rw [hv.seqNo]
        exact (hok.2 o' ho').2
      · exact Or.inl hr
    · rw [push_resting_other] at hr
      exact Or.inl hr
  | cancelOrder id =>
    rw [show (call clock e (.cancelOrder id)).2 = [] from rfl, List.append_nil]
    exact hh.mono (fun r hr => hr.append) rfl fun b r hr => Or.inl (mem_of_mem_cancelOrder hr)

/-- **Each trade of a run follows the one before it**, and is between two orders. -/
theorem priority_run {calls : List (Call P)}
    (h : Guarded (call clock) Distinct [] MatchingEngine.init calls) :
    (outputs (call clock) MatchingEngine.init calls).IsChain Fill.Follows ∧
      ∀ f ∈ outputs (call clock) MatchingEngine.init calls, f.buy.orderId ≠ f.sell.orderId := by
  have hrun := invariant_run (fun past out e => Reached past e ∧ Apart past ∧ History past out e)
    (fun past out e c hinv hok => by
      obtain ⟨hr, ha, hh⟩ := hinv
      exact ⟨hr.call clock c (hr.admissible hok), ha.call hok, history_call hr ha hh hok⟩)
    ⟨reached_init, ⟨by simp [added], by simp [added]⟩, ⟨List.isChain_nil, by simp, by simp⟩⟩ h
  exact ⟨hrun.2.2.chain, hrun.2.2.parties⟩

end LinearOrder

/-! ## Doubles -/

theorem added_map {Q : Type} (r : P → Q) (calls : List (Call P)) :
    added (calls.map (Call.map r)) = (added calls).map (Order.map r) := by
  induction calls with
  | nil => rfl
  | cons c calls ih =>
    cases c with
    | addOrder o => exact congrArg (o.map r :: ·) ih
    | cancelOrder id => exact ih

theorem distinct_call_map {Q : Type} (r : P → Q) (past : List (Call P)) (e : MatchingEngine P)
    (c : Call P) : Distinct (past.map (Call.map r)) (e.map r) (c.map r) ↔ Distinct past e c := by
  cases c with
  | addOrder o =>
    change (_ ∧ ∀ s ∈ added (past.map (Call.map r)), _) ↔ (_ ∧ _)
    rw [added_map]
    exact and_congr_right fun _ => List.forall_mem_map
  | cancelOrder id => exact Iff.rfl

/-- The same for doubles that are not NaN. -/
theorem priority_run_double (clock : Nat → Int64) (calls : List (Call Double))
    (h : Guarded (call clock) Distinct [] MatchingEngine.init calls)
    (hprice : ∀ c ∈ calls, ComparablePrice c) :
    (outputs (call clock) MatchingEngine.init calls).IsChain Fill.Follows ∧
      ∀ f ∈ outputs (call clock) MatchingEngine.init calls, f.buy.orderId ≠ f.sell.orderId := by
  lift calls to List (Call Comparable) using hprice
  have hdouble := call_run_map Comparable.double_lt clock calls
  have hkey := call_run_map Comparable.key_lt clock calls
  have hguard : Guarded (call clock) Distinct [] MatchingEngine.init calls :=
    (guarded_map (call_map Comparable.double_lt clock) (distinct_call_map _) [] _ calls).mp h
  have hguard' : Guarded (call clock) Distinct [] MatchingEngine.init
      (calls.map (Call.map Comparable.key)) :=
    (guarded_map (call_map Comparable.key_lt clock) (distinct_call_map _) [] _ calls).mpr hguard
  obtain ⟨hchain, hparties⟩ := priority_run hguard'
  rw [outputs, hkey, ← List.map_flatten] at hchain hparties
  rw [outputs, hdouble, ← List.map_flatten]
  constructor
  · rw [List.isChain_map] at hchain ⊢
    refine hchain.imp fun f g hfg => ⟨hfg.matchId, fun hid => ?_, fun hid => ?_⟩
    · exact (Comparable.le_iff _ _).mpr (hfg.buy hid)
    · exact (Comparable.le_iff _ _).mpr (hfg.sell hid)
  · rw [List.forall_mem_map] at hparties ⊢
    exact hparties

end TradePlat.Engine
