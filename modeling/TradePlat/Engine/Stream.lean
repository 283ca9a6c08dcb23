import TradePlat.Engine.Conservation
import TradePlat.Engine.DuplicateIds

/-!
# The stream of events

What can be said of the events of a run whatever its prices are. A property `Q`
of orders that a call establishes, and that neither time nor fills undo, holds
of both orders of every trade (`made_run`); and the event is built from the two
orders, which were added before, and from the clock alone (`parties_submitted`).
-/

namespace TradePlat.Engine
open Runs

variable {P : Type}

/-- A property of the resting orders of an engine that has made `n` matches. -/
structure Kept (Q : Nat → Order P → Prop) : Prop where
  later : ∀ n o, Q n o → Q (n + 1) o
  filled : ∀ n o r, o.Version r → 0 < r.quantity → Q n o → Q n r
  positive : ∀ n o, Q n o → 0 < o.quantity

/-- The fill is match `n + 1`, between a buy and a sell with `Q`. -/
structure Fill.Made (clock : Nat → Int64) (Q : Nat → Order P → Prop) (n : Nat) (f : Fill P) :
    Prop where
  event : f.event = tradeEvent (n + 1) (clock (n + 1)) f.buy f.sell
  buy : Q n f.buy
  sell : Q n f.sell
  qty : 1 ≤ f.event.qty.toNat

variable [LT P] {clock : Nat → Int64} {e e' : MatchingEngine P} {f : Fill P}
  {Q : Nat → Order P → Prop}

/-- Every order left on a side was there before the trade, up to its fill. -/
theorem TradeStep.origin_side (h : TradeStep clock e e' f) {b : Bool} {r : Order P}
    (hr : r ∈ e'.book.resting b) : ∃ o ∈ e.book.resting b, o.Version r := by
  obtain ⟨bs, hb, hb'⟩ := h.resting_buy
  obtain ⟨ss, hs, hs'⟩ := h.resting_sell
  cases b
  · rw [hs'] at hr
    rw [hs]
    rcases mem_afterFill hr with rfl | hr
    · exact ⟨f.sell, by simp, version_reduce _ _⟩
    · exact ⟨r, by simp [hr], .refl r⟩
  · rw [hb'] at hr
    rw [hb]
    rcases mem_afterFill hr with rfl | hr
    · exact ⟨f.buy, by simp, version_reduce _ _⟩
    · exact ⟨r, by simp [hr], .refl r⟩

theorem TradeStep.made (h : TradeStep clock e e' f) (hQ : Kept Q)
    (hr : ∀ r ∈ e.book.orders, Q e.nextMatchId r) :
    (∀ r ∈ e'.book.orders, Q e'.nextMatchId r) ∧ f.Made clock Q e.nextMatchId := by
  obtain ⟨hpos, hsound⟩ := h.positive fun r hmem => hQ.positive _ r (hr r hmem)
  obtain ⟨hevent, hnext⟩ := h.event_eq
  obtain ⟨hbuy, hsell⟩ := h.mem_orders
  refine ⟨fun r hmem => ?_, ⟨hevent, hr _ hbuy, hr _ hsell, hsound.qty_pos⟩⟩
  obtain ⟨o, ho, hv⟩ := h.origin hmem
  rw [hnext]
  exact hQ.later _ _ (hQ.filled _ o r hv (hpos r hmem) (hr o ho))

variable [DecidableLT P]

theorem Matches.made {fs : List (Fill P)} (h : Matches clock e fs e') (hQ : Kept Q)
    (hr : ∀ r ∈ e.book.orders, Q e.nextMatchId r) :
    (∀ r ∈ e'.book.orders, Q e'.nextMatchId r) ∧ ∀ f ∈ fs, ∃ n, f.Made clock Q n := by
  induction h with
  | exit _ => exact ⟨hr, by simp⟩
  | emptyLevel hs _ ih =>
    apply ih
    intro r hmem
    rw [orders_emptyLevel hs] at hmem
    obtain ⟨bid, buyVec, buys, ask, sellVec, sells, -, -, -, rfl⟩ := matchStep_emptyLevel hs
    exact hr r hmem
  | trade ht _ ih =>
    obtain ⟨hr', hmade⟩ := ht.made hQ hr
    obtain ⟨hr'', hall⟩ := ih hr'
    exact ⟨hr'', by simpa using ⟨⟨_, hmade⟩, hall⟩⟩

/-- The added order has `Q`. -/
def Brings (Q : Nat → Order P → Prop) (_ : List (Call P)) (e : MatchingEngine P) :
    Call P → Prop
  | .addOrder o => Q e.nextMatchId o
  | .cancelOrder _ => True

theorem made_call (hQ : Kept Q) {past : List (Call P)} {c : Call P}
    (hr : ∀ r ∈ e.book.orders, Q e.nextMatchId r) (hok : Brings Q past e c) :
    (∀ r ∈ (call clock e c).1.book.orders, Q (call clock e c).1.nextMatchId r) ∧
      ∀ f ∈ (call clock e c).2, ∃ n, f.Made clock Q n := by
  cases c with
  | addOrder o =>
    refine (matching_matches clock { e with book := e.book.push o }).made hQ fun r hmem => ?_
    rcases List.mem_cons.mp ((push_orders e.book o).mem_iff.mp hmem) with rfl | hmem
    · exact hok
    · exact hr r hmem
  | cancelOrder id =>
    refine ⟨fun r hmem => hr r ?_, by simp [call]⟩
    obtain ⟨b, hb⟩ := OrderBook.mem_orders.mp hmem
    exact OrderBook.mem_orders.mpr ⟨b, mem_of_mem_cancelOrder hb⟩

/-- **Every event of a run is made of two orders the run was given.** -/
theorem made_run (hQ : Kept Q) {calls : List (Call P)}
    (h : Guarded (call clock) (Brings Q) [] MatchingEngine.init calls) :
    ∀ f ∈ outputs (call clock) MatchingEngine.init calls, ∃ n, f.Made clock Q n :=
  (invariant_run
    (fun _ out e => (∀ r ∈ e.book.orders, Q e.nextMatchId r) ∧ ∀ f ∈ out, ∃ n, f.Made clock Q n)
    (fun _ out e c hinv hok => by
      obtain ⟨hr, hall⟩ := made_call hQ hinv.1 hok
      refine ⟨hr, fun f hf => ?_⟩
      rcases List.mem_append.mp hf with hf | hf
      · exact hinv.2 f hf
      · exact hall f hf)
    ⟨by simp, by simp⟩ h).2

variable (clock) in
/-- The calls of a run without cancels. -/
theorem run_addOrder (orders : List (Order P)) :
    (run (call clock) .init (orders.map .addOrder)).1 = (run (addOrder clock) .init orders).1 ∧
      outputs (call clock) .init (orders.map .addOrder) =
        outputs (addOrder clock) .init orders := by
  have hcall : ∀ (e : MatchingEngine P) o, call clock (id e) (.addOrder o) =
      (id (addOrder clock e o).1, (addOrder clock e o).2.map id) := fun e o => by simp [call]
  have hrun := run_map hcall MatchingEngine.init orders
  simp only [id_eq, List.map_id_fun, List.map_id] at hrun
  rw [outputs, outputs, hrun]
  exact ⟨rfl, rfl⟩

theorem Matches.event {fs : List (Fill P)} (h : Matches clock e fs e') :
    ∀ f ∈ fs, ∃ n, f.event = tradeEvent (n + 1) (clock (n + 1)) f.buy f.sell := by
  induction h with
  | exit _ => simp
  | emptyLevel _ _ ih => exact ih
  | trade ht _ ih => exact List.forall_mem_cons.mpr ⟨⟨_, ht.event_eq.1⟩, ih⟩

variable (clock) in
/-- Every party of a fill is one of the orders, up to its quantity. -/
theorem parties_submitted (orders : List (Order P)) :
    ∀ f ∈ outputs (call clock) .init (orders.map .addOrder),
      (∃ o ∈ orders, o.Version f.buy) ∧ (∃ o ∈ orders, o.Version f.sell) ∧
        ∃ n, f.event = tradeEvent (n + 1) (clock (n + 1)) f.buy f.sell := by
  rw [(run_addOrder clock orders).2]
  -- what rests and what was filled goes back to the orders so far
  refine (invariant_run (fun past out (e : MatchingEngine P) =>
    (∀ r ∈ e.book.orders, ∃ o ∈ past, o.Version r) ∧
      ∀ f ∈ out, (∃ o ∈ past, o.Version f.buy) ∧ (∃ o ∈ past, o.Version f.sell) ∧
        ∃ n, f.event = tradeEvent (n + 1) (clock (n + 1)) f.buy f.sell)
    (fun past out e o hinv _ => ?_) ⟨by simp, by simp⟩
    (guarded_true (addOrder clock) _ MatchingEngine.init orders)).2
  have hm := matching_matches clock { e with book := e.book.push o }
  have hback : ∀ {r : Order P}, (∃ r' ∈ (e.book.push o).orders, r'.Version r) →
      ∃ o' ∈ past ++ [o], o'.Version r := by
    rintro r ⟨r', hr', hv⟩
    rcases List.mem_cons.mp ((push_orders e.book o).mem_iff.mp hr') with rfl | hr'
    · exact ⟨r', by simp, hv⟩
    · obtain ⟨o', ho', hv'⟩ := hinv.1 r' hr'
      exact ⟨o', by simp [ho'], hv'.trans hv⟩
  refine ⟨fun r hr => hback (hm.origin.1 r hr), fun f hf => ?_⟩
  rcases List.mem_append.mp hf with hf | hf
  · obtain ⟨⟨buy, hbuy, hvbuy⟩, ⟨sell, hsell, hvsell⟩, hevent⟩ := hinv.2 f hf
    exact ⟨⟨buy, by simp [hbuy], hvbuy⟩, ⟨sell, by simp [hsell], hvsell⟩, hevent⟩
  · obtain ⟨hbuy, hsell⟩ := hm.origin.2 f hf
    exact ⟨hback hbuy, hback hsell, hm.event f hf⟩

end TradePlat.Engine
