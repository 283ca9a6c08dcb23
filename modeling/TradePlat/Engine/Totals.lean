import Mathlib.Algebra.Order.BigOperators.Group.List
import TradePlat.Engine.Refinement
import TradePlat.Engine.Stream

/-!
# What the orders of an id trade

An id can be that of several orders, and the events know an order by its id alone. The
events of a side and an id trade together no more than the orders of that side and id
asked for (`tradedBy_le_askedBy`), whatever the prices.
-/

namespace TradePlat.Engine
open Runs

variable {P : Type}

/-- The id of an order, as its events have it. -/
def Order.wire (o : Order P) : UInt64 := o.orderId.toInt64.toUInt64

/-- The id of the buyer or of the seller. -/
def TradeEvent.party (event : TradeEvent P) (b : Bool) : UInt64 :=
  if b then event.buyOrderId else event.sellOrderId

/-- What the events trade of the side and the id. -/
def tradedBy (b : Bool) (id : UInt64) (events : List (TradeEvent P)) : Int :=
  (events.map fun event => if event.party b = id then (event.qty.toNat : Int) else 0).sum

/-- What the orders of the side and the id ask for. -/
def askedBy (b : Bool) (id : UInt64) (orders : List (Order P)) : Int :=
  ((orders.filter fun o => o.isBuy = b ∧ o.wire = id).map fun o => o.quantity.toInt).sum

theorem tradedBy_sublist {b : Bool} {id : UInt64} {events all : List (TradeEvent P)}
    (h : events.Sublist all) : tradedBy b id events ≤ tradedBy b id all := by
  refine (h.map _).sum_le_sum fun n hn => ?_
  obtain ⟨event, -, rfl⟩ := List.mem_map.mp hn
  split <;> omega

theorem askedBy_subperm {b : Bool} {id : UInt64} {orders all : List (Order P)}
    (hpos : ∀ o ∈ all, 0 < o.quantity) (h : orders.Subperm all) :
    askedBy b id orders ≤ askedBy b id all := by
  obtain ⟨l, hperm, hsub⟩ := h
  rw [askedBy, ← ((hperm.filter _).map _).sum_eq]
  refine ((hsub.filter _).map _).sum_le_sum fun n hn => ?_
  obtain ⟨o, ho, rfl⟩ := List.mem_map.mp hn
  exact Int.le_of_lt (toInt_pos.mp (hpos o (List.mem_of_mem_filter ho)))

/-! ## Sides -/

section Sides
variable [LT P] {clock : Nat → Int64} {e e' : MatchingEngine P} {f : Fill P}

/-- Every order rests on its own side. -/
def OrderBook.Sided (book : OrderBook P) : Prop := ∀ b, ∀ r ∈ book.resting b, r.isBuy = b

theorem TradeStep.sided (h : TradeStep clock e e' f) (hs : e.book.Sided) :
    e'.book.Sided ∧ ∀ b, (f.order b).isBuy = b := by
  refine ⟨fun b r hr => ?_, fun b => ?_⟩
  · obtain ⟨o, ho, hv⟩ := h.origin_side hr
    rw [hv.isBuy]
    exact hs b o ho
  · cases b
    · obtain ⟨rest, hsell, -⟩ := h.resting_sell
      exact hs false f.sell (by rw [hsell]; exact List.mem_cons_self)
    · obtain ⟨rest, hbuy, -⟩ := h.resting_buy
      exact hs true f.buy (by rw [hbuy]; exact List.mem_cons_self)

variable [DecidableLT P]

theorem OrderBook.Sided.push {book : OrderBook P} (h : book.Sided) (o : Order P) :
    (book.push o).Sided := by
  intro b r hr
  by_cases hb : b = o.isBuy
  · subst hb
    rcases List.mem_cons.mp ((push_resting_own book o).mem_iff.mp hr) with rfl | hr
    · rfl
    · exact h _ r hr
  · obtain rfl : b = !o.isBuy := by cases b <;> cases ho : o.isBuy <;> simp_all
    rw [push_resting_other] at hr
    exact h _ r hr

theorem Matches.sided {fs : List (Fill P)} (h : Matches clock e fs e') (hs : e.book.Sided) :
    e'.book.Sided ∧ ∀ f ∈ fs, ∀ b, (f.order b).isBuy = b := by
  induction h with
  | exit _ => exact ⟨hs, by simp⟩
  | emptyLevel hstep _ ih =>
    refine ih fun b r hr => hs b r ?_
    obtain ⟨bid, buyVec, buys, ask, sellVec, sells, hb, hsell, -, rfl⟩ := matchStep_emptyLevel hstep
    cases b <;>
      simpa [OrderBook.resting, OrderBook.side, hb, hsell, flatMap_putLevel] using hr
  | trade ht _ ih =>
    obtain ⟨hs', hparties⟩ := ht.sided hs
    obtain ⟨hs'', hall⟩ := ih hs'
    exact ⟨hs'', List.forall_mem_cons.mpr ⟨hparties, hall⟩⟩

theorem sided_addOrder (hs : e.book.Sided) (o : Order P) :
    (addOrder clock e o).1.book.Sided ∧
      ∀ f ∈ (addOrder clock e o).2, ∀ b, (f.order b).isBuy = b :=
  (matching_matches clock { e with book := e.book.push o }).sided (hs.push o)

variable (clock) in
theorem sided_run (orders : List (Order P)) :
    (run (addOrder clock) MatchingEngine.init orders).1.book.Sided ∧
      ∀ f ∈ outputs (addOrder clock) MatchingEngine.init orders, ∀ b, (f.order b).isBuy = b :=
  invariant_run
    (fun _ out (e : MatchingEngine P) =>
      e.book.Sided ∧ ∀ f ∈ out, ∀ b, (Fill.order f b).isBuy = b)
    (fun _ out e o hinv _ => by
      obtain ⟨hs, hall⟩ := sided_addOrder hinv.1 o
      exact ⟨hs, List.forall_mem_append.mpr ⟨hinv.2, hall⟩⟩)
    ⟨fun b r hr => (by cases b <;> cases hr), by simp⟩ (guarded_true _ _ _ orders)

end Sides

/-! ## Runs -/

/-- The events of a side and an id are fills of the orders `orders`. -/
theorem tradedBy_le_filled {b : Bool} {id : UInt64} {fs : List (Fill P)}
    {orders : List (Order P)}
    (h : ∀ f ∈ fs, f.event.party b = id → ∃ o ∈ orders, (f.order b).seqNo = o.seqNo) :
    tradedBy b id (fs.map Fill.event) ≤ (orders.map fun o => filled fs o.seqNo).sum := by
  induction fs with
  | nil => simp [tradedBy]
  | cons f fs ih =>
    obtain ⟨hf, hrest⟩ := List.forall_mem_cons.mp h
    have hsplit : (orders.map fun o => filled (f :: fs) o.seqNo).sum =
        (orders.map fun o => filled [f] o.seqNo).sum +
          (orders.map fun o => filled fs o.seqNo).sum := by
      rw [← List.sum_map_add]
      exact congrArg List.sum (List.map_congr_left fun o _ => filled_append [f] fs o.seqNo)
    have hfirst : (if f.event.party b = id then (f.event.qty.toNat : Int) else 0) ≤
        (orders.map fun o => filled [f] o.seqNo).sum := by
      have hnonneg : ∀ n ∈ orders.map fun o => filled [f] o.seqNo, 0 ≤ n := fun n hn => by
        obtain ⟨o, -, rfl⟩ := List.mem_map.mp hn
        rw [filled_cons, filled_nil]
        split <;> omega
      by_cases hid : f.event.party b = id
      · obtain ⟨o, ho, hseq⟩ := hf hid
        have hone : filled [f] o.seqNo = f.event.qty.toNat := by
          have hside : f.buy.seqNo = o.seqNo ∨ f.sell.seqNo = o.seqNo := by
            cases b
            · exact Or.inr hseq
            · exact Or.inl hseq
          rw [filled_cons, if_pos hside, filled_nil, Int.add_zero]
        rw [if_pos hid, ← hone]
        exact List.single_le_sum hnonneg _ (List.mem_map_of_mem ho)
      · rw [if_neg hid]
        exact List.sum_nonneg hnonneg
    rw [hsplit]
    have hih := ih hrest
    simp only [tradedBy, List.map_cons, List.sum_cons] at hih ⊢
    omega

section Runs
variable [LT P] [DecidableLT P]

/-- **Nothing trades more than it asked for**, even where ids are used twice. -/
theorem tradedBy_le_askedBy (clock : Nat → Int64) {orders : List (Order P)}
    (hpos : ∀ o ∈ orders, 0 < o.quantity) (hseq : (orders.map Order.seqNo).Nodup) (b : Bool)
    (id : UInt64) :
    tradedBy b id ((outputs (call clock) .init (orders.map .addOrder)).map Fill.event) ≤
      askedBy b id orders := by
  have hparties := parties_submitted clock orders
  rw [(run_addOrder clock orders).2] at hparties ⊢
  have hsided := (sided_run clock orders).2
  have hconserved : Conserved orders (outputs (addOrder clock) .init orders)
      (run (addOrder clock) .init orders).1 :=
    invariant_run Conserved (fun past out e o hc hok => conserved_addOrder hc hok.1 hok.2)
      conserved_init (guarded_newOrder hpos (by simpa using hseq))
  generalize outputs (addOrder clock) .init orders = fs at *
  generalize (run (addOrder clock) .init orders).1 = e at *
  have hown : ∀ f ∈ fs, f.event.party b = id →
      ∃ o ∈ orders.filter (fun o => o.isBuy = b ∧ o.wire = id), (f.order b).seqNo = o.seqNo := by
    intro f hf hid
    obtain ⟨⟨buy, hbuy, hvbuy⟩, ⟨sell, hsell, hvsell⟩, n, hevent⟩ := hparties f hf
    rw [hevent] at hid
    have hside := hsided f hf b
    cases b
    · refine ⟨sell, List.mem_filter.mpr ⟨hsell, decide_eq_true ⟨?_, ?_⟩⟩, hvsell.seqNo⟩
      · rw [← hvsell.isBuy]
        exact hside
      · rw [Order.wire, ← hvsell.orderId]
        exact hid
    · refine ⟨buy, List.mem_filter.mpr ⟨hbuy, decide_eq_true ⟨?_, ?_⟩⟩, hvbuy.seqNo⟩
      · rw [← hvbuy.isBuy]
        exact hside
      · rw [Order.wire, ← hvbuy.orderId]
        exact hid
  refine (tradedBy_le_filled hown).trans ?_
  refine List.sum_le_sum fun o ho => ?_
  have haccount := hconserved.account o (List.mem_of_mem_filter ho)
  have hrest : 0 ≤ remaining e.book o.seqNo := by
    by_cases hmem : o.seqNo ∈ e.book.orders.map Order.seqNo
    · exact Int.le_of_lt (restingQty_pos_of_mem hconserved.countable.positive hmem)
    · exact Int.le_of_eq (restingQty_of_not_mem hmem).symm
  omega

end Runs

end TradePlat.Engine
