import TradePlat.Lib.Runs
import TradePlat.Engine.MatchLoop

/-!
# Renaming prices

The engine compares prices and copies them, and does nothing else with them. So
a map of prices that keeps the comparisons commutes with every call
(`call_map`). With it, what is proved for linearly ordered prices holds for the
doubles that such an order describes.
-/

namespace TradePlat.Engine
open SortedMap Runs

variable {P Q : Type}

section Map
variable (r : P → Q)

def Order.map (o : Order P) : Order Q where
  orderId := o.orderId
  quantity := o.quantity
  isBuy := o.isBuy
  price := r o.price
  t0 := o.t0
  t1 := o.t1
  seqNo := o.seqNo

def OrderLocation.map (loc : OrderLocation P) : OrderLocation Q :=
  ⟨loc.isBuy, r loc.price, loc.vectorIndex⟩

def mapLevels (levels : Levels P) : Levels Q :=
  List.map (Prod.map r (List.map (Order.map r))) levels

def mapLocator (m : OrderMap P) : OrderMap Q := fun id => (m id).map (OrderLocation.map r)

def OrderBook.map (book : OrderBook P) : OrderBook Q :=
  ⟨mapLevels r book.buyOrders, mapLevels r book.sellOrders, mapLocator r book.orderMap⟩

def MatchingEngine.map (e : MatchingEngine P) : MatchingEngine Q := ⟨e.book.map r, e.nextMatchId⟩

def TradeEvent.map (e : TradeEvent P) : TradeEvent Q where
  matchId := e.matchId
  buyOrderId := e.buyOrderId
  sellOrderId := e.sellOrderId
  t0Ns := e.t0Ns
  t1Ns := e.t1Ns
  t2Ns := e.t2Ns
  price := r e.price
  qty := e.qty

def Fill.map (f : Fill P) : Fill Q := ⟨f.event.map r, f.buy.map r, f.sell.map r⟩

def Iteration.map : Iteration P → Iteration Q
  | .exit => .exit
  | .emptyLevel e => .emptyLevel (e.map r)
  | .trade e f => .trade (e.map r) (f.map r)

def Call.map : Call P → Call Q
  | .addOrder o => .addOrder (o.map r)
  | .cancelOrder id => .cancelOrder id

/-! ## The parts that read no price -/

theorem side_map (book : OrderBook P) (b : Bool) :
    (book.map r).side b = mapLevels r (book.side b) := by cases b <;> rfl

theorem resting_map (book : OrderBook P) (b : Bool) :
    (book.map r).resting b = (book.resting b).map (Order.map r) := by
  rw [OrderBook.resting, OrderBook.resting, side_map, mapLevels, List.flatMap_map,
    List.map_flatMap]
  rfl

theorem orders_map (book : OrderBook P) :
    (book.map r).orders = book.orders.map (Order.map r) := by
  simp [OrderBook.orders, resting_map]

theorem init_map : (MatchingEngine.init : MatchingEngine P).map r = MatchingEngine.init := rfl

theorem size_map (book : OrderBook P) : (book.map r).size = book.size := by
  unfold OrderBook.size
  rw [orders_map, List.length_map]
  simp [OrderBook.map, mapLevels]

theorem reduce_map (o : Order P) (q : Int32) : (o.reduce q).map r = (o.map r).reduce q := rfl

theorem tradeEvent_map (n : Nat) (t2 : Int64) (buy sell : Order P) :
    tradeEvent n t2 (buy.map r) (sell.map r) = (tradeEvent n t2 buy sell).map r := by
  have hprice : executionPrice (buy.map r) (sell.map r) = r (executionPrice buy sell) :=
    (apply_ite r _ _ _).symm
  have htaker : taker (buy.map r) (sell.map r) = (taker buy sell).map r :=
    (apply_ite (Order.map r) _ _ _).symm
  simp only [tradeEvent, TradeEvent.map, hprice, htaker]
  rfl

theorem update_mapLocator (m : OrderMap P) (id : Int32) (loc : Option (OrderLocation P)) :
    Function.update (mapLocator r m) id (loc.map (OrderLocation.map r)) =
      mapLocator r (Function.update m id loc) := by
  funext id'
  by_cases h : id' = id
  · subst h
    simp [mapLocator]
  · simp [mapLocator, Function.update_of_ne h]

theorem refresh_map (m : OrderMap P) (i : Nat) (level : Level P) :
    refresh (mapLocator r m) i (level.map (Order.map r)) = mapLocator r (refresh m i level) := by
  induction level generalizing m i with
  | nil => rfl
  | cons o level ih =>
    rw [List.map_cons, refresh, refresh, ← ih, show (o.map r).orderId = o.orderId from rfl]
    congr 1
    rw [mapLocator]
    cases m o.orderId with
    | none => rfl
    | some loc => exact update_mapLocator r m o.orderId (some { loc with vectorIndex := i })

theorem eraseAt_map (m : OrderMap P) (level : Level P) (index : Nat) :
    eraseAt (mapLocator r m) (level.map (Order.map r)) index =
      (mapLocator r (eraseAt m level index).1, (eraseAt m level index).2.map (Order.map r)) := by
  unfold eraseAt
  rw [List.length_map]
  split
  · rfl
  · have herase : (level.map (Order.map r)).eraseIdx index =
        (level.eraseIdx index).map (Order.map r) := by
      simp [List.eraseIdx_eq_take_drop_succ]
    rw [herase, ← List.map_drop, refresh_map]

theorem consumeFront_map (m : OrderMap P) (front : Order P) (level : Level P) :
    consumeFront (mapLocator r m) (front.map r) (level.map (Order.map r)) =
      (mapLocator r (consumeFront m front level).1,
        (consumeFront m front level).2.map (Order.map r)) := by
  unfold consumeFront
  change (if front.quantity = 0 then _ else _) = _
  split
  · rw [← eraseAt_map, ← update_mapLocator]
    rfl
  · rfl

theorem putLevel_map (key : P) (level : Level P) (levels : Levels P) :
    putLevel (r key) (level.map (Order.map r)) (mapLevels r levels) =
      mapLevels r (putLevel key level levels) := by
  unfold putLevel
  cases level <;> rfl

end Map

/-! ## The calls -/

section Calls
variable [LT P] [DecidableLT P] [LT Q] [DecidableLT Q] {r : P → Q}
  (hr : ∀ a b, r a < r b ↔ a < b)
include hr

omit [DecidableLT P] [DecidableLT Q] in
theorem before_map (isBuy : Bool) (a b : P) : Before isBuy (r a) (r b) ↔ Before isBuy a b := by
  cases isBuy <;> simp [hr]

theorem matchStep_map (clock : Nat → Int64) (e : MatchingEngine P) :
    matchStep clock (e.map r) = (matchStep clock e).map r := by
  obtain ⟨⟨buyOrders, sellOrders, m⟩, n⟩ := e
  rcases buyOrders with _ | ⟨⟨bid, buyVec⟩, buys⟩
  · rfl
  rcases sellOrders with _ | ⟨⟨ask, sellVec⟩, sells⟩
  · rfl
  simp only [matchStep, MatchingEngine.map, OrderBook.map, mapLevels, List.map_cons, Prod.map, hr]
  split
  · rfl
  · rcases buyVec with _ | ⟨buy, buyRest⟩
    · simp only [List.map_nil, Iteration.map, MatchingEngine.map, OrderBook.map, ← putLevel_map]
      rfl
    rcases sellVec with _ | ⟨sell, sellRest⟩
    · simp only [List.map_nil, Iteration.map, MatchingEngine.map, OrderBook.map, ← putLevel_map]
      rfl
    · simp only [List.map_cons, Iteration.map, MatchingEngine.map, OrderBook.map, ← putLevel_map,
        Fill.map, ← tradeEvent_map]
      have hq : tradedQty (buy.map r) (sell.map r) = tradedQty buy sell := rfl
      simp only [hq, ← reduce_map, ← List.map_cons, consumeFront_map]
      rfl

theorem matchLoop_map (clock : Nat → Int64) (fuel : Nat) (e : MatchingEngine P) :
    matchLoop clock fuel (e.map r) =
      ((matchLoop clock fuel e).1.map r, (matchLoop clock fuel e).2.map (Fill.map r)) := by
  induction fuel generalizing e with
  | zero => rfl
  | succ fuel ih =>
    rw [matchLoop, matchLoop, matchStep_map hr]
    cases matchStep clock e with
    | exit => rfl
    | emptyLevel e' => exact ih e'
    | trade e' f =>
      simp only [Iteration.map, ih e']
      rfl

theorem push_map (book : OrderBook P) (o : Order P) :
    (book.map r).push (o.map r) = (book.push o).map r := by
  have hb := before_map hr o.isBuy
  refine OrderBook.ext_side (fun b => ?_) ?_
  · rcases Bool.eq_or_eq_not b o.isBuy with rfl | rfl
    · rw [side_map, push_side_own, mapLevels,
        ← update_map hb (· ++ [o]) (· ++ [o.map r]) (by simp) o.price []]
      exact (push_side_own (book.map r) (o.map r)).trans (by rw [side_map]; rfl)
    · rw [side_map, push_side_other, ← side_map]
      exact push_side_other (book.map r) (o.map r)
  · have hfind : find (Before o.isBuy) (r o.price) ((book.map r).side o.isBuy) =
        (find (Before o.isBuy) o.price (book.side o.isBuy)).map (List.map (Order.map r)) := by
      rw [side_map, mapLevels, find_map hb]
    have hlength : ((find (Before o.isBuy) (r o.price) ((book.map r).side o.isBuy)).getD [] ++
        [o.map r]).length =
          ((find (Before o.isBuy) o.price (book.side o.isBuy)).getD [] ++ [o]).length := by
      rw [hfind]
      cases find (Before o.isBuy) o.price (book.side o.isBuy) <;> simp
    have hloc : (some ⟨o.isBuy, r o.price,
        ((find (Before o.isBuy) (r o.price) ((book.map r).side o.isBuy)).getD [] ++
          [o.map r]).length - 1⟩ : Option (OrderLocation Q)) =
        Option.map (OrderLocation.map r) (some ⟨o.isBuy, o.price,
          ((find (Before o.isBuy) o.price (book.side o.isBuy)).getD [] ++ [o]).length - 1⟩) := by
      rw [hlength]
      rfl
    exact (congrArg (Function.update (mapLocator r book.orderMap) o.orderId) hloc).trans
      (update_mapLocator r book.orderMap o.orderId _)

theorem addOrder_map (clock : Nat → Int64) (e : MatchingEngine P) (o : Order P) :
    addOrder clock (e.map r) (o.map r) =
      ((addOrder clock e o).1.map r, (addOrder clock e o).2.map (Fill.map r)) := by
  have hpush : ({ e.map r with book := (e.map r).book.push (o.map r) } : MatchingEngine Q) =
      MatchingEngine.map r { e with book := e.book.push o } := by
    rw [MatchingEngine.map, MatchingEngine.map, push_map hr]
  unfold addOrder matching
  rw [hpush, matchLoop_map hr]
  have hsize := size_map r (e.book.push o)
  exact congrArg (fun n => ((matchLoop clock (n + 1) { e with book := e.book.push o }).1.map r,
    (matchLoop clock (n + 1) { e with book := e.book.push o }).2.map (Fill.map r))) hsize

theorem cancelOrder_map (book : OrderBook P) (id : Int32) :
    (book.map r).cancelOrder id = (book.cancelOrder id).map r := by
  have hm : (book.map r).orderMap id = (book.orderMap id).map (OrderLocation.map r) := rfl
  unfold OrderBook.cancelOrder
  rw [hm]
  cases book.orderMap id with
  | none => rfl
  | some loc =>
    have hb := before_map hr loc.isBuy
    have hfind : find (Before loc.isBuy) (r loc.price) ((book.map r).side loc.isBuy) =
        (find (Before loc.isBuy) loc.price (book.side loc.isBuy)).map
          (List.map (Order.map r)) := by
      rw [side_map, mapLevels, find_map hb]
    have hdrop : Function.update (mapLocator r book.orderMap) id none =
        mapLocator r (Function.update book.orderMap id none) :=
      update_mapLocator r book.orderMap id none
    dsimp only [Option.map_some, OrderLocation.map]
    rw [hfind]
    cases find (Before loc.isBuy) loc.price (book.side loc.isBuy) with
    | none => exact OrderBook.ext_side (fun b => by cases b <;> rfl) hdrop
    | some level =>
      have hlevel := eraseAt_map r (Function.update book.orderMap id none) level loc.vectorIndex
      dsimp only [Option.map_some]
      rw [show (book.map r).orderMap = mapLocator r book.orderMap from rfl, hdrop, hlevel]
      refine OrderBook.ext_side (fun b => ?_) rfl
      rcases Bool.eq_or_eq_not b loc.isBuy with rfl | rfl
      · simp only [OrderBook.side_with_orderMap, OrderBook.side_setSide, side_map, mapLevels,
          List.isEmpty_map]
        refine alter_map hb (fun _ => ?_) _ _
        split <;> rfl
      · simp only [OrderBook.side_with_orderMap, OrderBook.side_setSide_not, side_map]

/-- **Calls commute with a renaming of prices that keeps the comparisons.** -/
theorem call_map (clock : Nat → Int64) (e : MatchingEngine P) (c : Call P) :
    call clock (e.map r) (c.map r) =
      ((call clock e c).1.map r, (call clock e c).2.map (Fill.map r)) := by
  cases c with
  | addOrder o => exact addOrder_map hr clock e o
  | cancelOrder id =>
    simp only [call, Call.map, cancelOrder, List.map_nil, MatchingEngine.map, cancelOrder_map hr]

theorem call_run_map (clock : Nat → Int64) (calls : List (Call P)) :
    run (call clock) MatchingEngine.init (calls.map (Call.map r)) =
      ((run (call clock) MatchingEngine.init calls).1.map r,
        (run (call clock) MatchingEngine.init calls).2.map (List.map (Fill.map r))) :=
  run_map (call_map hr clock) MatchingEngine.init calls

end Calls

end TradePlat.Engine
