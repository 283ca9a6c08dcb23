import TradePlat.Engine.OrderBook

/-!
# The matching engine (`MatchingEngine.cpp`, `MarketEvents.h`)

`addOrder`, `matching` and `cancelOrder`. One iteration of the loop of
`matching` is `matchStep`; the loop is `matchLoop`, which runs on fuel, and
`matching_exits` shows that the fuel `matching` gives it is always enough.

The clock is a parameter: `clock n` is the reading of `system_clock` taken for
match `n`. Match ids and sequence numbers are counters that no run can wrap, so
they are natural numbers. An iteration also reports, as `Fill`, the two orders
its event was made from, as they were before the fill.
-/

namespace TradePlat.Engine
open SortedMap

/-- `TradeEvent` of `MarketEvents.h`. -/
structure TradeEvent (P : Type) where
  matchId : Nat
  buyOrderId : UInt64
  sellOrderId : UInt64
  t0Ns : UInt64
  t1Ns : UInt64
  t2Ns : UInt64
  price : P
  qty : UInt32
  deriving DecidableEq, Repr

/-- A published event with the two orders it was made from. -/
structure Fill (P : Type) where
  event : TradeEvent P
  buy : Order P
  sell : Order P
  deriving DecidableEq, Repr

structure MatchingEngine (P : Type) where
  book : OrderBook P
  nextMatchId : Nat

/-- How one iteration of the loop of `matching` ends. -/
inductive Iteration (P : Type) where
  | exit
  | emptyLevel (e : MatchingEngine P)
  | trade (e : MatchingEngine P) (f : Fill P)

section Iteration
variable {P : Type}

def tradedQty (buy sell : Order P) : Int32 := min buy.quantity sell.quantity

def executionPrice (buy sell : Order P) : P :=
  if buy.seqNo < sell.seqNo then buy.price else sell.price

def taker (buy sell : Order P) : Order P := if buy.seqNo > sell.seqNo then buy else sell

def tradeEvent (matchId : Nat) (t2 : Int64) (buy sell : Order P) : TradeEvent P where
  matchId := matchId
  buyOrderId := buy.orderId.toInt64.toUInt64
  sellOrderId := sell.orderId.toInt64.toUInt64
  t0Ns := (taker buy sell).t0.toUInt64
  t1Ns := (taker buy sell).t1.toUInt64
  t2Ns := t2.toUInt64
  price := executionPrice buy sell
  qty := (tradedQty buy sell).toUInt32

def Order.reduce (o : Order P) (q : Int32) : Order P := { o with quantity := o.quantity - q }

/-- Consume the front order of a level where it is filled. -/
def consumeFront (orderMap : OrderMap P) (front : Order P) (level : Level P) :
    OrderMap P × Level P :=
  if front.quantity = 0 then eraseAt (Function.update orderMap front.orderId none) level 0
  else (orderMap, level)

/-- The side map after its best level became `level`: an empty level goes. -/
def putLevel (key : P) (level : Level P) (levels : Levels P) : Levels P :=
  if level.isEmpty then levels else (key, level) :: levels

variable [LT P] [DecidableLT P]

/-- One iteration of the loop of `matching`. -/
def matchStep (clock : Nat → Int64) (e : MatchingEngine P) : Iteration P :=
  match e.book.buyOrders, e.book.sellOrders with
  | (bestBid, buyVec) :: buys, (bestAsk, sellVec) :: sells =>
    if bestBid < bestAsk then .exit
    else match buyVec, sellVec with
      | buy :: buyRest, sell :: sellRest =>
        let q := tradedQty buy sell
        let matchId := e.nextMatchId + 1
        let buys' := consumeFront e.book.orderMap (buy.reduce q) (buy.reduce q :: buyRest)
        let sells' := consumeFront buys'.1 (sell.reduce q) (sell.reduce q :: sellRest)
        .trade
          { book :=
              { buyOrders := putLevel bestBid buys'.2 buys
                sellOrders := putLevel bestAsk sells'.2 sells
                orderMap := sells'.1 }
            nextMatchId := matchId }
          ⟨tradeEvent matchId (clock matchId) buy sell, buy, sell⟩
      | _, _ =>
        .emptyLevel
          { e with
            book :=
              { e.book with
                buyOrders := putLevel bestBid buyVec buys
                sellOrders := putLevel bestAsk sellVec sells } }
  | _, _ => .exit

/-- The loop of `matching`, for at most `fuel` iterations. -/
def matchLoop (clock : Nat → Int64) :
    Nat → MatchingEngine P → MatchingEngine P × List (Fill P)
  | 0, e => (e, [])
  | fuel + 1, e =>
    match matchStep clock e with
    | .exit => (e, [])
    | .emptyLevel e' => matchLoop clock fuel e'
    | .trade e' f => ((matchLoop clock fuel e').1, f :: (matchLoop clock fuel e').2)

end Iteration

variable {P : Type}

/-- Levels plus resting orders: every iteration removes one of them. -/
def OrderBook.size (book : OrderBook P) : Nat :=
  book.buyOrders.length + book.sellOrders.length + book.orders.length

def MatchingEngine.init : MatchingEngine P := ⟨.empty, 0⟩

@[simp] theorem init_orders : (MatchingEngine.init : MatchingEngine P).book.orders = [] := rfl

variable [LT P] [DecidableLT P]

/-- `MatchingEngine::matching`. -/
def matching (clock : Nat → Int64) (e : MatchingEngine P) : MatchingEngine P × List (Fill P) :=
  matchLoop clock (e.book.size + 1) e

/-- The push of `addOrder`. The two branches of the source differ in the side only. -/
def OrderBook.push (book : OrderBook P) (order : Order P) : OrderBook P :=
  let levels := book.side order.isBuy
  let vec := (find (Before order.isBuy) order.price levels).getD [] ++ [order]
  { book.setSide order.isBuy
      (update (Before order.isBuy) order.price [] (· ++ [order]) levels) with
    orderMap :=
      Function.update book.orderMap order.orderId
        (some ⟨order.isBuy, order.price, vec.length - 1⟩) }

/-- `MatchingEngine::addOrder`. -/
def addOrder (clock : Nat → Int64) (e : MatchingEngine P) (order : Order P) :
    MatchingEngine P × List (Fill P) :=
  matching clock { e with book := e.book.push order }

/-- `MatchingEngine::cancelOrder`. The two branches of the source differ in the side only. -/
def OrderBook.cancelOrder (book : OrderBook P) (orderid : Int32) : OrderBook P :=
  match book.orderMap orderid with
  | none => book
  | some loc =>
    let orderMap := Function.update book.orderMap orderid none
    match find (Before loc.isBuy) loc.price (book.side loc.isBuy) with
    | none => { book with orderMap := orderMap }
    | some level =>
      let erased := eraseAt orderMap level loc.vectorIndex
      { book.setSide loc.isBuy
          (alter (Before loc.isBuy) loc.price
            (fun _ => if erased.2.isEmpty then none else some erased.2)
            (book.side loc.isBuy)) with
        orderMap := erased.1 }

def cancelOrder (e : MatchingEngine P) (orderid : Int32) : MatchingEngine P :=
  { e with book := e.book.cancelOrder orderid }

/-- A call of the engine's interface. -/
inductive Call (P : Type) where
  | addOrder (order : Order P)
  | cancelOrder (orderid : Int32)
  deriving DecidableEq, Repr

/-- One call: the engine after it and the fills it made. -/
def call (clock : Nat → Int64) (e : MatchingEngine P) :
    Call P → MatchingEngine P × List (Fill P)
  | .addOrder order => addOrder clock e order
  | .cancelOrder orderid => (cancelOrder e orderid, [])

end TradePlat.Engine
