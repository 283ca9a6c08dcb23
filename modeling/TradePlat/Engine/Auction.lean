import Mathlib.Data.List.Sort
import TradePlat.Engine.OrderBook

/-!
# The reference auction

What the engine is for, said without price maps, locator or loop: a double
auction with price-time priority. Each side is one list of offers, best price
first and oldest first within a price. An incoming offer sweeps the other side
from the front while prices cross and quantity is left; each fill is at the
resting offer's price. What is left of it is put in its place on its own side.
-/

namespace TradePlat.Engine

variable {P : Type}

structure Offer (P : Type) where
  id : Int
  quantity : Int
  isBuy : Bool
  price : P
  t0 : Int
  t1 : Int
  seqNo : Nat
  deriving DecidableEq, Repr

/-- A fill: the two ids, the maker's price, the quantity and the taker's times. -/
structure Trade (P : Type) where
  buyId : Int
  sellId : Int
  price : P
  qty : Int
  t0 : Int
  t1 : Int
  deriving DecidableEq, Repr

/-- A sweep: the fills, what is left of the incoming offer, and of the side it swept. -/
structure Sweep (P : Type) where
  trades : List (Trade P)
  incoming : Offer P
  resting : List (Offer P)

/-- The offers of the two sides, in priority order. -/
abbrev Auction (P : Type) := Bool → List (Offer P)

def Auction.empty : Auction P := fun _ => []

def Offer.reduce (o : Offer P) (q : Int) : Offer P := { o with quantity := o.quantity - q }

/-- The fill of an incoming offer against a resting one. -/
def fillOf (o r : Offer P) (q : Int) : Trade P where
  buyId := if o.isBuy then o.id else r.id
  sellId := if o.isBuy then r.id else o.id
  price := r.price
  qty := q
  t0 := o.t0
  t1 := o.t1

@[simp] theorem Offer.reduce_id (o : Offer P) (q : Int) : (o.reduce q).id = o.id := rfl
@[simp] theorem Offer.reduce_isBuy (o : Offer P) (q : Int) : (o.reduce q).isBuy = o.isBuy := rfl
@[simp] theorem Offer.reduce_price (o : Offer P) (q : Int) : (o.reduce q).price = o.price := rfl
@[simp] theorem Offer.reduce_seqNo (o : Offer P) (q : Int) : (o.reduce q).seqNo = o.seqNo := rfl
@[simp] theorem Offer.reduce_quantity (o : Offer P) (q : Int) :
    (o.reduce q).quantity = o.quantity - q := rfl

def Auction.cancel (a : Auction P) (id : Int) : Auction P := fun b =>
  (a b).filter fun r => r.id ≠ id

variable [LinearOrder P]

/-- The incoming offer accepts the price of the resting one. -/
def Offer.Crosses (o r : Offer P) : Prop :=
  if o.isBuy then r.price ≤ o.price else o.price ≤ r.price

instance (o r : Offer P) : Decidable (o.Crosses r) :=
  inferInstanceAs (Decidable (if o.isBuy then r.price ≤ o.price else o.price ≤ r.price))

/-- Price-time priority on the side `b`. -/
def Prior (b : Bool) (r s : Offer P) : Prop :=
  Before b r.price s.price ∨ r.price = s.price ∧ r.seqNo < s.seqNo

instance (b : Bool) : DecidableRel (Prior (P := P) b) := fun _ _ =>
  inferInstanceAs (Decidable (_ ∨ _))

def sweep (o : Offer P) : List (Offer P) → Sweep P
  | [] => ⟨[], o, []⟩
  | r :: rest =>
    if 0 < o.quantity ∧ o.Crosses r then
      let q := min o.quantity r.quantity
      let s := sweep (o.reduce q) rest
      { trades := fillOf o r q :: s.trades
        incoming := s.incoming
        resting := if q < r.quantity then r.reduce q :: s.resting else s.resting }
    else ⟨[], o, r :: rest⟩

def Auction.submit (a : Auction P) (o : Offer P) : Auction P × List (Trade P) :=
  let s := sweep o (a (!o.isBuy))
  let own :=
    if 0 < s.incoming.quantity then (a o.isBuy).orderedInsert (Prior o.isBuy) s.incoming
    else a o.isBuy
  (fun b => if b = o.isBuy then own else s.resting, s.trades)

end TradePlat.Engine
