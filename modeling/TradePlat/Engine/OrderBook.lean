import Mathlib.Logic.Function.Basic
import Mathlib.Order.Lattice
import TradePlat.Lib.SortedMap

/-!
# The order book (`Order.h`, `OrderBook.h`)

Both sides are `std::map`s from price to the vector of resting orders at that
price, the buy side ordered by `std::greater`, the sell side by `std::less`;
`orderMap` is the `std::unordered_map` that locates a resting order by its id.
Prices are any type with a `<`: nothing here assumes that `<` is an order, so
the definitions also say what the code does with prices that do not compare.
-/

namespace TradePlat.Engine
open SortedMap

/-- `Order`. The field `timestamp` is left out: no code reads it. -/
structure Order (P : Type) where
  orderId : Int32
  quantity : Int32
  isBuy : Bool
  price : P
  t0 : Int64
  t1 : Int64
  seqNo : Nat
  deriving DecidableEq, Repr

structure OrderLocation (P : Type) where
  isBuy : Bool
  price : P
  vectorIndex : Nat
  deriving DecidableEq, Repr

abbrev Level (P : Type) := List (Order P)
abbrev Levels (P : Type) := List (P × Level P)
abbrev OrderMap (P : Type) := Int32 → Option (OrderLocation P)

structure OrderBook (P : Type) where
  buyOrders : Levels P
  sellOrders : Levels P
  orderMap : OrderMap P

namespace OrderBook
variable {P : Type}

def empty : OrderBook P := ⟨[], [], fun _ => none⟩

/-- The map of one side: `buyOrders` for `true`, `sellOrders` for `false`. -/
def side (book : OrderBook P) : Bool → Levels P
  | true => book.buyOrders
  | false => book.sellOrders

def setSide (book : OrderBook P) : Bool → Levels P → OrderBook P
  | true, levels => { book with buyOrders := levels }
  | false, levels => { book with sellOrders := levels }

@[simp] theorem side_setSide (book : OrderBook P) (b : Bool) (levels : Levels P) :
    (book.setSide b levels).side b = levels := by cases b <;> rfl

@[simp] theorem side_setSide_not (book : OrderBook P) (b : Bool) (levels : Levels P) :
    (book.setSide b levels).side (!b) = book.side (!b) := by cases b <;> rfl

@[simp] theorem setSide_orderMap (book : OrderBook P) (b : Bool) (levels : Levels P) :
    (book.setSide b levels).orderMap = book.orderMap := by cases b <;> rfl

@[simp] theorem side_with_orderMap (book : OrderBook P) (m : OrderMap P) (b : Bool) :
    ({ book with orderMap := m } : OrderBook P).side b = book.side b := by cases b <;> rfl

theorem ext_side {book book' : OrderBook P} (hside : ∀ b, book.side b = book'.side b)
    (hmap : book.orderMap = book'.orderMap) : book = book' := by
  obtain ⟨buys, sells, m⟩ := book
  obtain ⟨buys', sells', m'⟩ := book'
  have hbuys : buys = buys' := hside true
  have hsells : sells = sells' := hside false
  have hm : m = m' := hmap
  rw [hbuys, hsells, hm]

/-- The resting orders of one side, best level first and front to back. -/
def resting (book : OrderBook P) (b : Bool) : List (Order P) :=
  (book.side b).flatMap Prod.snd

/-- Every resting order. -/
def orders (book : OrderBook P) : List (Order P) := book.resting true ++ book.resting false

theorem mem_orders {book : OrderBook P} {o : Order P} :
    o ∈ book.orders ↔ ∃ b, o ∈ book.resting b := by
  simp only [orders, List.mem_append, Bool.exists_bool]
  exact or_comm

theorem orders_perm (book : OrderBook P) (b : Bool) :
    book.orders.Perm (book.resting b ++ book.resting (!b)) := by
  cases b
  · exact List.perm_append_comm
  · exact List.Perm.refl _

theorem mem_resting {book : OrderBook P} {b : Bool} {o : Order P} :
    o ∈ book.resting b ↔ ∃ l ∈ book.side b, o ∈ l.2 := by
  simp [resting, List.mem_flatMap]

end OrderBook

section Comparator
variable {P : Type} [LT P]

/-- The comparator of a side's map: `std::greater` on buys, `std::less` on sells. -/
def Before (isBuy : Bool) (p q : P) : Prop := if isBuy then q < p else p < q

instance [DecidableLT P] (isBuy : Bool) : DecidableRel (Before (P := P) isBuy) := fun p q =>
  match isBuy with
  | true => inferInstanceAs (Decidable (q < p))
  | false => inferInstanceAs (Decidable (p < q))

@[simp] theorem before_true {p q : P} : Before true p q ↔ q < p := by simp [Before]
@[simp] theorem before_false {p q : P} : Before false p q ↔ p < q := by simp [Before]

end Comparator

instance {P : Type} [LinearOrder P] (b : Bool) : IsStrictTotalOrder P (Before b) where
  trichotomous p q h h' := by
    cases b <;> simp at h h' <;> exact le_antisymm (by assumption) (by assumption)
  irrefl p := by cases b <;> simp
  trans p q r h h' := by
    cases b <;> simp only [before_true, before_false] at *
    · exact h.trans h'
    · exact h'.trans h

section EraseAt
variable {P : Type}

/-- The loop of `eraseAt`: the orders from position `i` on get their positions
recorded, where they are tracked. -/
def refresh (orderMap : OrderMap P) : Nat → Level P → OrderMap P
  | _, [] => orderMap
  | i, o :: level =>
    refresh
      (match orderMap o.orderId with
        | some loc => Function.update orderMap o.orderId (some { loc with vectorIndex := i })
        | none => orderMap)
      (i + 1) level

/-- `OrderBook::eraseAt`: the new tracking map and the level after the erase. -/
def eraseAt (orderMap : OrderMap P) (level : Level P) (index : Nat) : OrderMap P × Level P :=
  if level.length ≤ index then (orderMap, level)
  else (refresh orderMap index ((level.eraseIdx index).drop index), level.eraseIdx index)

end EraseAt

end TradePlat.Engine
