import Mathlib.Data.List.Nodup
import TradePlat.Engine.LimitPrices

/-!
# Cancelling by id

The locator has one entry for an id, so an id that is added again while it rests
leaves two orders behind one entry, and the next erase in either level rewrites
the position of that entry. Where no added id rests and no price is a NaN the
locator is exact, on doubles as on linearly ordered prices, and `cancelOrder`
removes the order with the id and no other (`cancel_sound`).
-/

namespace TradePlat.Engine
open SortedMap Runs Binary64

/-- Cancelling `id` removes no order with another id, and removes one with this
id if one rests. -/
structure CancelSound {P : Type} [LT P] [DecidableLT P] (book : OrderBook P) (id : Int32) :
    Prop where
  others : (book.cancelOrder id).orders.filter (fun r => r.orderId ≠ id) =
    book.orders.filter fun r => r.orderId ≠ id
  own : (∃ r ∈ book.orders, r.orderId = id) →
    ∃ r, r.orderId = id ∧ book.orders.Perm (r :: (book.cancelOrder id).orders)

section Guard
variable {P : Type}

/-- The added id does not rest. -/
def FreshId (_ : List (Call P)) (e : MatchingEngine P) : Call P → Prop
  | .addOrder o => ∀ r ∈ e.book.orders, r.orderId ≠ o.orderId
  | .cancelOrder _ => True

/-- The added price is not a NaN. -/
def ComparablePrice : Call Double → Prop
  | .addOrder o => ¬ o.price.IsNaN
  | .cancelOrder _ => True

instance (past : List (Call P)) (e : MatchingEngine P) : DecidablePred (FreshId past e)
  | .addOrder o => inferInstanceAs (Decidable (∀ r ∈ e.book.orders, r.orderId ≠ o.orderId))
  | .cancelOrder _ => inferInstanceAs (Decidable True)

instance : DecidablePred ComparablePrice
  | .addOrder o => inferInstanceAs (Decidable (¬ o.price.IsNaN))
  | .cancelOrder _ => inferInstanceAs (Decidable True)

instance : CanLift (Call Double) (Call Comparable) (Call.map Comparable.double)
    ComparablePrice where
  prf c h := by
    cases c with
    | addOrder o =>
      obtain ⟨o', rfl⟩ : ∃ o' : Order Comparable, o'.map Comparable.double = o :=
        CanLift.prf o h
      exact ⟨.addOrder o', rfl⟩
    | cancelOrder id => exact ⟨.cancelOrder id, rfl⟩

theorem freshId_map {Q : Type} (r : P → Q) (past : List (Call P)) (e : MatchingEngine P)
    (c : Call P) : FreshId (past.map (Call.map r)) (e.map r) (c.map r) ↔ FreshId past e c := by
  cases c with
  | addOrder o =>
    change (∀ s ∈ (e.book.map r).orders, s.orderId ≠ o.orderId) ↔ _
    rw [orders_map]
    exact List.forall_mem_map
  | cancelOrder id => exact Iff.rfl

variable [LT P] [DecidableLT P]

/-- Cancelling leaves only orders that rested. -/
theorem mem_of_mem_cancelOrder {book : OrderBook P} {id : Int32} {b : Bool} {r : Order P}
    (hr : r ∈ (book.cancelOrder id).resting b) : r ∈ book.resting b := by
  unfold OrderBook.cancelOrder at hr
  cases hm : book.orderMap id with
  | none => rwa [hm] at hr
  | some loc =>
    simp only [hm] at hr
    cases hf : find (Before loc.isBuy) loc.price (book.side loc.isBuy) with
    | none => simpa [hf, OrderBook.resting] using hr
    | some level =>
      simp only [hf, OrderBook.resting, OrderBook.side_with_orderMap] at hr
      rcases Bool.eq_or_eq_not b loc.isBuy with rfl | rfl
      · rw [OrderBook.side_setSide] at hr
        obtain ⟨l, hl, hrl⟩ := List.mem_flatMap.mp hr
        rcases mem_alter hl with hl | ⟨v, -, hv⟩
        · exact List.mem_flatMap.mpr ⟨l, hl, hrl⟩
        · obtain ⟨k, hk, -⟩ := find_mem hf
          split at hv
          · cases hv
          · rw [← Option.some.inj hv] at hrl
            refine List.mem_flatMap.mpr ⟨(k, level), hk, ?_⟩
            unfold eraseAt at hrl
            split at hrl
            · exact hrl
            · exact List.mem_of_mem_eraseIdx hrl
      · rw [OrderBook.side_setSide_not] at hr
        exact hr

end Guard

/-! ## Linearly ordered prices -/

section LinearOrder
variable {P : Type} [LinearOrder P]

theorem consistent_call (clock : Nat → Int64) {past : List (Call P)} {e : MatchingEngine P}
    (h : e.book.Consistent) {c : Call P} (hok : FreshId past e c) :
    (call clock e c).1.book.Consistent := by
  cases c with
  | addOrder o =>
    exact (matching_matches clock { e with book := e.book.push o }).consistent (h.push hok)
  | cancelOrder id => exact h.cancelOrder id

theorem consistent_run (clock : Nat → Int64) {calls : List (Call P)}
    (h : Guarded (call clock) FreshId [] MatchingEngine.init calls) :
    (run (call clock) MatchingEngine.init calls).1.book.Consistent :=
  invariant_run (fun _ _ e => e.book.Consistent)
    (fun _ _ _ _ hc hok => consistent_call clock hc hok) OrderBook.Consistent.empty h

end LinearOrder

/-! ## Renamed prices -/

theorem map_inj_of_nodup {α β : Type} {f : α → β} {l l₁ l₂ : List α} (hnd : (l.map f).Nodup)
    (h₁ : ∀ a ∈ l₁, a ∈ l) (h₂ : ∀ a ∈ l₂, a ∈ l) (h : l₁.map f = l₂.map f) : l₁ = l₂ := by
  induction l₁ generalizing l₂ with
  | nil => simpa using h.symm
  | cons a l₁ ih =>
    cases l₂ with
    | nil => simp at h
    | cons b l₂ =>
      simp only [List.map_cons, List.cons.injEq] at h
      have hab : a = b := List.inj_on_of_nodup_map hnd (h₁ a (by simp)) (h₂ b (by simp)) h.1
      rw [hab, ih (fun a ha => h₁ a (by simp [ha])) (fun b hb => h₂ b (by simp [hb])) h.2]

theorem map_orderId {P Q : Type} (r : P → Q) (l : List (Order P)) :
    (l.map (Order.map r)).map Order.orderId = l.map Order.orderId := by
  rw [List.map_map]
  rfl

theorem distinct_map {P Q : Type} (r : P → Q) {l : List (Order P)} :
    ((l.map (Order.map r)).Pairwise fun o s => o.orderId ≠ s.orderId) ↔
      l.Pairwise fun o s => o.orderId ≠ s.orderId :=
  List.pairwise_map

section Rename
variable {P Q : Type} [LT P] [DecidableLT P] {book : OrderBook P}

theorem cancelSound_of_filter {id : Int32}
    (hfilter : ∀ b, (book.cancelOrder id).resting b =
      (book.resting b).filter fun o => o.orderId ≠ id)
    (hdistinct : book.orders.Pairwise fun o s => o.orderId ≠ s.orderId) :
    CancelSound book id := by
  have horders : (book.cancelOrder id).orders = book.orders.filter fun o => o.orderId ≠ id := by
    simp only [OrderBook.orders, hfilter, List.filter_append]
  constructor
  · rw [horders, List.filter_filter]
    simp
  · rintro ⟨o, ho, rfl⟩
    obtain ⟨front, back, hsplit⟩ := List.append_of_mem ho
    refine ⟨o, rfl, ?_⟩
    rw [hsplit] at hdistinct
    rw [horders, hsplit, filter_distinct hdistinct]
    exact List.perm_middle

/-- What `cancelOrder` does, read off the book with renamed prices: the ids tell
the orders apart. -/
theorem resting_cancelOrder_of_map [LinearOrder Q] {r : P → Q} (hr : ∀ a b, r a < r b ↔ a < b)
    (hc : (book.map r).Consistent) (id : Int32) (b : Bool) :
    (book.cancelOrder id).resting b = (book.resting b).filter fun o => o.orderId ≠ id := by
  have hmap := hc.resting_cancelOrder id b
  rw [cancelOrder_map hr, resting_map, resting_map, List.filter_map] at hmap
  have hids := congrArg (List.map Order.orderId) hmap
  rw [map_orderId, map_orderId] at hids
  have hnd : ((book.resting b).map Order.orderId).Nodup := by
    have h := hc.distinct.perm (OrderBook.orders_perm _ b) (fun hne => hne.symm)
    have hb := (List.pairwise_append.mp h).1
    rw [resting_map, distinct_map] at hb
    exact List.pairwise_map.mpr hb
  exact map_inj_of_nodup hnd (fun o ho => mem_of_mem_cancelOrder ho)
    (fun o ho => List.mem_of_mem_filter ho) hids

end Rename

/-! ## Doubles -/

/-- **Cancelling is sound where no added id rests and no price is a NaN.** -/
theorem cancel_sound (clock : Nat → Int64) (calls : List (Call Double))
    (hid : Guarded (call clock) FreshId [] MatchingEngine.init calls)
    (hprice : ∀ c ∈ calls, ComparablePrice c) (id : Int32) :
    CancelSound (run (call clock) MatchingEngine.init calls).1.book id := by
  lift calls to List (Call Comparable) using hprice
  have hdouble := call_run_map Comparable.double_lt clock calls
  have hkey := call_run_map Comparable.key_lt clock calls
  have hguard : Guarded (call clock) FreshId [] MatchingEngine.init calls :=
    (guarded_map (call_map Comparable.double_lt clock) (freshId_map _) [] _ calls).mp hid
  have hguard' : Guarded (call clock) FreshId [] MatchingEngine.init
      (calls.map (Call.map Comparable.key)) :=
    (guarded_map (call_map Comparable.key_lt clock) (freshId_map _) [] _ calls).mpr hguard
  have hc := consistent_run clock hguard'
  rw [hkey] at hc
  rw [hdouble]
  refine cancelSound_of_filter (fun b => ?_) ?_
  · rw [show (MatchingEngine.map Comparable.double _).book = OrderBook.map _ _ from rfl,
      cancelOrder_map Comparable.double_lt, resting_map, resting_map, List.filter_map,
      resting_cancelOrder_of_map Comparable.key_lt hc]
    rfl
  · have hdistinct := hc.distinct
    rw [show (MatchingEngine.map Comparable.key _).book = OrderBook.map _ _ from rfl,
      orders_map, distinct_map] at hdistinct
    rw [show (MatchingEngine.map Comparable.double _).book = OrderBook.map _ _ from rfl,
      orders_map, distinct_map]
    exact hdistinct

/-- Two sells at one price, and a buy at infinity that fills the first. -/
def distinctIds : List (Call Double) :=
  [.addOrder ⟨1, 5, false, ⟨0x4024000000000000⟩, 1, 2, 0⟩,
    .addOrder ⟨2, 5, false, ⟨0x4024000000000000⟩, 1, 2, 1⟩,
    .addOrder ⟨3, 7, true, ⟨0x7FF0000000000000⟩, 1, 2, 2⟩]

theorem distinctIds_cancel_sound :
    CancelSound (run (call fun _ => 9) MatchingEngine.init distinctIds).1.book 2 :=
  cancel_sound (fun _ => 9) distinctIds (by decide) (by decide) 2

/-- Five buys on two levels, the last under an id that rests, and a cancel that
moves the shared entry to the front of its level. -/
def repeatedId : List (Call Double) :=
  [.addOrder ⟨5, 1, true, ⟨0x4059000000000000⟩, 1, 2, 0⟩,
    .addOrder ⟨1, 1, true, ⟨0x4059000000000000⟩, 1, 2, 1⟩,
    .addOrder ⟨2, 1, true, ⟨0x4059000000000000⟩, 1, 2, 2⟩,
    .addOrder ⟨7, 1, true, ⟨0x4059400000000000⟩, 1, 2, 3⟩,
    .addOrder ⟨1, 1, true, ⟨0x4059400000000000⟩, 1, 2, 4⟩,
    .cancelOrder 5]

/-- Distinct ids, with a sell at NaN behind a sell at 10 and two sells at 5. -/
def nanLevel : List (Call Double) :=
  [.addOrder ⟨1, 1, false, ⟨0x4024000000000000⟩, 1, 2, 0⟩,
    .addOrder ⟨2, 1, false, ⟨0x7FF8000000000000⟩, 1, 2, 1⟩,
    .addOrder ⟨3, 1, false, ⟨0x4014000000000000⟩, 1, 2, 2⟩,
    .addOrder ⟨4, 1, false, ⟨0x4014000000000000⟩, 1, 2, 3⟩]

/-- Cancelling 1 removes the order 7, cancelling 1 again removes nothing although
an order 1 rests; and a location with a NaN price leads to another level. -/
theorem repeatedId_cancels_another :
    ¬ CancelSound (run (call fun _ => 9) MatchingEngine.init repeatedId).1.book 1 ∧
      ¬ CancelSound (run (call fun _ => 9) MatchingEngine.init
        (repeatedId ++ [.cancelOrder 1])).1.book 1 ∧
      ¬ CancelSound (run (call fun _ => 9) MatchingEngine.init nanLevel).1.book 2 := by
  refine ⟨fun h => absurd h.others (by decide), fun h => ?_,
    fun h => absurd h.others (by decide)⟩
  obtain ⟨r, -, hperm⟩ := h.own (by decide)
  have hlength := hperm.length_eq
  rw [List.length_cons] at hlength
  exact absurd hlength (by decide)

end TradePlat.Engine
