import Mathlib.Data.Set.List
import TradePlat.Lib.Binary64
import TradePlat.Engine.Invariant
import TradePlat.Engine.Prices

/-!
# Limit prices of arbitrary doubles

The gateway passes on whatever 64 bits a client sends as a price. Doubles that
are not NaN compare like the integers `Double.key`, so on them the engine is the
engine on integers, prices renamed: orders rest in the levels of their prices and
trades respect both limits. A NaN breaks both, and what is more it breaks them
in every run in which it occurs (`limits_respected_iff`): the order rests in a
level whose key is not its price, or it takes part in a trade.
-/

namespace TradePlat.Engine
open SortedMap Runs Binary64

/-! ## Comparable doubles -/

/-- The doubles on which the comparators are those of a linear order. -/
abbrev Comparable := { a : Double // ¬ a.IsNaN }

instance : DecidableLT Comparable := fun a b => inferInstanceAs (Decidable (a.1 < b.1))

namespace Comparable

def double (a : Comparable) : Double := a.1
def key (a : Comparable) : Int := a.1.key

theorem double_lt (a b : Comparable) : a.double < b.double ↔ a < b := Iff.rfl

theorem key_lt (a b : Comparable) : a.key < b.key ↔ a < b :=
  ⟨fun h => ⟨a.2, b.2, h⟩, fun h => h.2.2⟩

theorem eqv_iff (a b : Comparable) : a.double.Eqv b.double ↔ a.key = b.key :=
  ⟨fun h => h.2.2, fun h => ⟨a.2, b.2, h⟩⟩

theorem le_iff (a b : Comparable) : a.double ≤ b.double ↔ a.key ≤ b.key :=
  ⟨fun h => h.2.2, fun h => ⟨a.2, b.2, h⟩⟩

end Comparable

instance : CanLift (Order Double) (Order Comparable) (Order.map Comparable.double)
    (fun o => ¬ o.price.IsNaN) where
  prf o h := ⟨⟨o.orderId, o.quantity, o.isBuy, ⟨o.price, h⟩, o.t0, o.t1, o.seqNo⟩, rfl⟩

/-! ## Limits -/

/-- Every order rests in a level whose key equals its price, and every trade is
within the limits of both its orders. -/
def LimitsRespected (book : OrderBook Double) (fills : List (Fill Double)) : Prop :=
  (∀ b, ∀ l ∈ book.side b, ∀ o ∈ l.2, o.price.Eqv l.1) ∧
    ∀ f ∈ fills, f.sell.price ≤ f.event.price ∧ f.event.price ≤ f.buy.price

instance (book : OrderBook Double) (fills : List (Fill Double)) :
    Decidable (LimitsRespected book fills) := inferInstanceAs (Decidable (_ ∧ _))

theorem executionPrice_eq {P : Type} (buy sell : Order P) :
    executionPrice buy sell = buy.price ∨ executionPrice buy sell = sell.price := by
  unfold executionPrice
  split
  · exact Or.inl rfl
  · exact Or.inr rfl

section LinearOrder
variable {P : Type} [LinearOrder P] {clock : Nat → Int64} {e e' : MatchingEngine P} {f : Fill P}

/-- A trade is made within the limits of both orders. -/
theorem TradeStep.within_limits (h : TradeStep clock e e' f) (hl : e.book.Levelled) :
    f.sell.price ≤ f.event.price ∧ f.event.price ≤ f.buy.price := by
  have hc := h.crosses hl
  have hp : f.event.price = executionPrice f.buy f.sell := by rw [h.event_eq.1]; rfl
  rw [hp]
  rcases executionPrice_eq f.buy f.sell with heq | heq
  · rw [heq]
    exact ⟨hc, le_refl _⟩
  · rw [heq]
    exact ⟨le_refl _, hc⟩

theorem addOrder_levelled (clock : Nat → Int64) (hl : e.book.Levelled) (o : Order P) :
    (addOrder clock e o).1.book.Levelled ∧
      ∀ f ∈ (addOrder clock e o).2, f.sell.price ≤ f.event.price ∧ f.event.price ≤ f.buy.price := by
  have hp := hl.push o
  obtain ⟨hl', -, hall⟩ := (matching_matches clock { e with book := e.book.push o }).invariant
    (fun e => e.book.Levelled)
    (fun f => f.sell.price ≤ f.event.price ∧ f.event.price ≤ f.buy.price)
    (fun _ _ _ hl _ ht => ⟨ht.levelled hl, ht.within_limits hl⟩) hp.nonempty hp
  exact ⟨hl', hall⟩

/-- With comparable prices every run respects the limits. -/
theorem levelled_run (clock : Nat → Int64) (orders : List (Order P)) :
    (run (addOrder clock) MatchingEngine.init orders).1.book.Levelled ∧
      ∀ f ∈ outputs (addOrder clock) MatchingEngine.init orders,
        f.sell.price ≤ f.event.price ∧ f.event.price ≤ f.buy.price := by
  have hg : Guarded (addOrder clock) (fun _ _ _ => True) [] (MatchingEngine.init (P := P))
      orders := guarded_true _ _ _ _
  exact invariant_run (fun _ out e => e.book.Levelled ∧
      ∀ f ∈ out, f.sell.price ≤ f.event.price ∧ f.event.price ≤ f.buy.price)
    (fun _ out e o h _ => by
      obtain ⟨hl, hall⟩ := addOrder_levelled clock h.1 o
      refine ⟨hl, fun f hf => ?_⟩
      rcases List.mem_append.mp hf with hf | hf
      · exact h.2 f hf
      · exact hall f hf)
    ⟨OrderBook.Levelled.empty, by simp⟩ hg

end LinearOrder

/-! ## No order is lost -/

section Fate
variable {P : Type}

/-- The order rests, up to what was filled of it, or took part in a fill. -/
def RestsOrFilled (book : OrderBook P) (fills : List (Fill P)) (o : Order P) : Prop :=
  (∃ r ∈ book.orders, o.Version r) ∨ ∃ f ∈ fills, o.Version f.buy ∨ o.Version f.sell

variable [LT P] [DecidableLT P]

theorem addOrder_fate (clock : Nat → Int64) {e : MatchingEngine P} {fills : List (Fill P)}
    {o r : Order P} (h : RestsOrFilled e.book fills r ∨ r = o) :
    RestsOrFilled (addOrder clock e o).1.book (fills ++ (addOrder clock e o).2) r := by
  have hm := matching_matches clock { e with book := e.book.push o }
  have hloop : ∀ r' ∈ (e.book.push o).orders, r.Version r' →
      RestsOrFilled (addOrder clock e o).1.book (fills ++ (addOrder clock e o).2) r := by
    intro r' hr' hv
    rcases hm.fate hr' with hr' | ⟨f, hf, rfl | rfl⟩
    · exact Or.inl ⟨r', hr', hv⟩
    · exact Or.inr ⟨f, List.mem_append_right _ hf, Or.inl hv⟩
    · exact Or.inr ⟨f, List.mem_append_right _ hf, Or.inr hv⟩
  have hpush : ∀ r', r' = o ∨ r' ∈ e.book.orders → r' ∈ (e.book.push o).orders := fun r' hr' =>
    (push_orders e.book o).mem_iff.mpr (List.mem_cons.mpr hr')
  rcases h with (⟨r', hr', hv⟩ | ⟨f, hf, hv⟩) | rfl
  · exact hloop r' (hpush r' (Or.inr hr')) hv
  · exact Or.inr ⟨f, List.mem_append_left _ hf, hv⟩
  · exact hloop r (hpush r (Or.inl rfl)) (.refl r)

theorem submitted_fate (clock : Nat → Int64) (orders : List (Order P)) :
    ∀ o ∈ orders, RestsOrFilled (run (addOrder clock) MatchingEngine.init orders).1.book
      (outputs (addOrder clock) MatchingEngine.init orders) o := by
  exact invariant_run (fun past out e => ∀ o ∈ past, RestsOrFilled e.book out o)
    (fun past out e o h _ r hr => addOrder_fate clock (by
      rcases List.mem_append.mp hr with hr | hr
      · exact Or.inl (h r hr)
      · exact Or.inr (List.mem_singleton.mp hr)))
    (by simp) (guarded_true (addOrder clock) [] MatchingEngine.init orders)

end Fate

/-! ## One iteration on comparable doubles -/

/-- No price of the engine is a NaN, and every order rests in the level of its price. -/
def Compared (e : MatchingEngine Double) : Prop :=
  ∃ e₀ : MatchingEngine Comparable,
    e = e₀.map Comparable.double ∧ (e₀.map Comparable.key).book.Levelled

theorem compared_init : Compared .init :=
  ⟨.init, (init_map _).symm, by rw [init_map]; exact OrderBook.Levelled.empty⟩

theorem Compared.push {e : MatchingEngine Double} (h : Compared e) {o : Order Double}
    (ho : ¬ o.price.IsNaN) : Compared { e with book := e.book.push o } := by
  obtain ⟨e₀, rfl, hl⟩ := h
  lift o to Order Comparable using ho
  have hdouble := push_map Comparable.double_lt e₀.book o
  have hkey := push_map Comparable.key_lt e₀.book o
  refine ⟨{ e₀ with book := e₀.book.push o }, ?_, ?_⟩
  · rw [MatchingEngine.map, MatchingEngine.map, hdouble]
  · rw [MatchingEngine.map, ← hkey]
    exact hl.push _

/-- An iteration that trades, of an engine without NaN, trades within the limits. -/
theorem Compared.trade {clock : Nat → Int64} {e e' : MatchingEngine Double} {f : Fill Double}
    (h : Compared e) (hm : matchStep clock e = .trade e' f) :
    Compared e' ∧ f.sell.price ≤ f.buy.price := by
  obtain ⟨e₀, rfl, hl⟩ := h
  have hkey := matchStep_map Comparable.key_lt clock e₀
  rw [matchStep_map Comparable.double_lt] at hm
  cases hm₀ : matchStep clock e₀ with
  | exit =>
    rw [hm₀] at hm
    cases hm
  | emptyLevel e₁ =>
    rw [hm₀] at hm
    cases hm
  | trade e₁ f₁ =>
    rw [hm₀] at hm hkey
    cases hm
    have ht := matchStep_trade hkey
    exact ⟨⟨e₁, rfl, ht.levelled hl⟩, (Comparable.le_iff _ _).mpr (ht.crosses hl)⟩

/-! ## NaN is the only exception -/

theorem limits_of_comparable (clock : Nat → Int64) (orders : List (Order Comparable)) :
    LimitsRespected
      (run (addOrder clock) MatchingEngine.init
        (orders.map (Order.map Comparable.double))).1.book
      (outputs (addOrder clock) MatchingEngine.init
        (orders.map (Order.map Comparable.double))) := by
  have hdouble := run_map (addOrder_map Comparable.double_lt clock) MatchingEngine.init orders
  have hkey := run_map (addOrder_map Comparable.key_lt clock) MatchingEngine.init orders
  obtain ⟨hl, hf⟩ := levelled_run clock (orders.map (Order.map Comparable.key))
  rw [init_map] at hdouble hkey
  unfold outputs at hf ⊢
  rw [hkey] at hl hf
  rw [hdouble]
  rw [← List.map_flatten] at hf ⊢
  constructor
  · intro b l hmem o ho
    rw [show (MatchingEngine.map Comparable.double _).book = OrderBook.map _ _ from rfl,
      side_map] at hmem
    obtain ⟨l, hl', rfl⟩ := List.mem_map.mp hmem
    obtain ⟨o, ho', rfl⟩ := List.mem_map.mp ho
    refine (Comparable.eqv_iff _ _).mpr (hl.own b
      (Prod.map Comparable.key (List.map (Order.map Comparable.key)) l) ?_
      (o.map Comparable.key) (List.mem_map_of_mem ho')).1
    rw [show (MatchingEngine.map Comparable.key _).book = OrderBook.map _ _ from rfl, side_map]
    exact List.mem_map_of_mem hl'
  · intro f hmem
    obtain ⟨f, hf', rfl⟩ := List.mem_map.mp hmem
    obtain ⟨h₁, h₂⟩ := hf _ (List.mem_map_of_mem hf')
    exact ⟨(Comparable.le_iff _ _).mpr h₁, (Comparable.le_iff _ _).mpr h₂⟩

/-- **Limit prices are respected exactly where no price is a NaN.** -/
theorem limits_respected_iff (clock : Nat → Int64) (orders : List (Order Double)) :
    LimitsRespected (run (addOrder clock) MatchingEngine.init orders).1.book
        (outputs (addOrder clock) MatchingEngine.init orders) ↔
      ∀ o ∈ orders, ¬ o.price.IsNaN := by
  constructor
  · intro h o ho hnan
    rcases submitted_fate clock orders o ho with ⟨r, hr, hv⟩ | ⟨f, hf, hv⟩
    · obtain ⟨b, hb⟩ := OrderBook.mem_orders.mp hr
      obtain ⟨l, hl, hrl⟩ := OrderBook.mem_resting.mp hb
      exact (h.1 b l hl r hrl).1 (hv.price ▸ hnan)
    · obtain ⟨h₁, h₂⟩ := h.2 f hf
      rcases hv with hv | hv
      · exact h₂.2.1 (hv.price ▸ hnan)
      · exact h₁.1 (hv.price ▸ hnan)
  · intro h
    lift orders to List (Order Comparable) using h
    exact limits_of_comparable clock orders

/-- A sell at NaN, a sell at 10 that lands in its level, and a buy at 5. -/
def nanOrders : List (Order Double) :=
  [⟨1, 1, false, ⟨0x7FF8000000000000⟩, 1, 2, 0⟩, ⟨2, 5, false, ⟨0x4024000000000000⟩, 1, 2, 1⟩,
    ⟨3, 3, true, ⟨0x4014000000000000⟩, 1, 2, 2⟩]

/-- The buy at 5 trades at 10. -/
theorem nanOrders_trade_outside_limits :
    ¬ LimitsRespected (run (addOrder fun _ => 9) MatchingEngine.init nanOrders).1.book
        (outputs (addOrder fun _ => 9) MatchingEngine.init nanOrders) ∧
      ∃ f ∈ outputs (addOrder fun _ => 9) MatchingEngine.init nanOrders,
        f.buy.price < f.sell.price := by
  decide

end TradePlat.Engine
