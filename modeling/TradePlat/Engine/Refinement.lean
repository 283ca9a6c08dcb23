import TradePlat.Engine.Auction
import TradePlat.Engine.Reachable

/-!
# The engine refines the reference auction

`OrderBook.auction` reads the two sides of a book, front to back, as an auction.
`matching` never knows which order is incoming; the loop lemma `Matches.sweep`
says that it sweeps with it all the same. Before the push no order of the own
side crosses the other side, so as long as the heads cross, the incoming order is
the head of its side; and it is newer than every order it meets, so it is the
taker.
-/

namespace TradePlat.Engine
open SortedMap Runs

variable {P : Type}

def Order.offer (o : Order P) : Offer P where
  id := o.orderId.toInt
  quantity := o.quantity.toInt
  isBuy := o.isBuy
  price := o.price
  t0 := o.t0.toInt
  t1 := o.t1.toInt
  seqNo := o.seqNo

def OrderBook.auction (book : OrderBook P) : Auction P := fun b =>
  (book.resting b).map Order.offer

/-- The trade an event reports, its fields read as the numbers they were made from. -/
def TradeEvent.trade (e : TradeEvent P) : Trade P where
  buyId := e.buyOrderId.toInt64.toInt
  sellId := e.sellOrderId.toInt64.toInt
  price := e.price
  qty := e.qty.toNat
  t0 := e.t0Ns.toInt64.toInt
  t1 := e.t1Ns.toInt64.toInt

/-- The order of a fill on the side `b`. -/
def Fill.order (f : Fill P) : Bool → Order P
  | true => f.buy
  | false => f.sell

@[simp] theorem offer_price (o : Order P) : o.offer.price = o.price := rfl
@[simp] theorem offer_seqNo (o : Order P) : o.offer.seqNo = o.seqNo := rfl
@[simp] theorem offer_isBuy (o : Order P) : o.offer.isBuy = o.isBuy := rfl
@[simp] theorem offer_quantity (o : Order P) : o.offer.quantity = o.quantity.toInt := rfl

theorem offer_reduce {o : Order P} {q : Int32}
    (h : (o.quantity - q).toInt = o.quantity.toInt - q.toInt) :
    (o.reduce q).offer = o.offer.reduce q.toInt := by
  simp [Order.offer, Order.reduce, Offer.reduce, h]

theorem map_afterFill {o : Order P} {q : Int32} (rest : Level P)
    (h : (o.quantity - q).toInt = o.quantity.toInt - q.toInt) (hle : q.toInt ≤ o.quantity.toInt) :
    (afterFill o q rest).map Order.offer =
      if q.toInt < o.quantity.toInt then o.offer.reduce q.toInt :: rest.map Order.offer
      else rest.map Order.offer := by
  unfold afterFill
  by_cases hz : o.quantity - q = 0
  · have hq : o.quantity.toInt - q.toInt = 0 := by rw [← h, hz]; rfl
    rw [if_pos hz, if_neg (by omega)]
  · have hq : (o.quantity - q).toInt ≠ 0 := fun h' => hz (Int32.toInt_inj.mp h')
    rw [if_neg hz, if_pos (by omega), List.map_cons, offer_reduce h]

theorem tradeEvent_trade {buy sell : Order P} (n : Nat) (t2 : Int64) (hb : 0 < buy.quantity)
    (hs : 0 < sell.quantity) :
    (tradeEvent n t2 buy sell).trade =
      { buyId := buy.orderId.toInt, sellId := sell.orderId.toInt
        price := executionPrice buy sell, qty := (tradedQty buy sell).toInt
        t0 := (taker buy sell).t0.toInt, t1 := (taker buy sell).t1.toInt } := by
  have hq := tradeEvent_qty n t2 hb hs
  simp only [TradeEvent.trade, tradeEvent] at hq ⊢
  simp [hq]

/-- The quantity of a fill is the smaller one of its two orders. -/
theorem Fill.qty_toInt (f : Fill P) (b : Bool) :
    f.qty.toInt = min (f.order b).quantity.toInt (f.order (!b)).quantity.toInt := by
  rw [show f.qty = tradedQty f.buy f.sell from rfl, tradedQty_toInt]
  cases b
  · exact min_comm _ _
  · rfl

section Trade
variable [LT P] {clock : Nat → Int64} {e e' : MatchingEngine P} {f : Fill P}

theorem TradeStep.resting (h : TradeStep clock e e' f) (b : Bool) :
    ∃ rest, e.book.resting b = f.order b :: rest ∧
      e'.book.resting b = afterFill (f.order b) f.qty rest := by
  cases b
  · exact h.resting_sell
  · exact h.resting_buy

theorem TradeStep.order_pos (h : TradeStep clock e e' f)
    (hpos : ∀ r ∈ e.book.orders, 0 < r.quantity) (b : Bool) : 0 < (f.order b).quantity.toInt := by
  refine toInt_pos.mp (hpos _ ?_)
  cases b
  · exact h.mem_orders.2
  · exact h.mem_orders.1

/-- A fill in which the newer order is the one on the side `b`, as the auction has it. -/
theorem TradeStep.trade_eq (h : TradeStep clock e e' f)
    (hpos : ∀ r ∈ e.book.orders, 0 < r.quantity) {b : Bool}
    (hnewer : (f.order (!b)).seqNo < (f.order b).seqNo) (hb : (f.order b).isBuy = b) :
    f.event.trade = fillOf (f.order b).offer (f.order (!b)).offer f.qty.toInt := by
  rw [h.event_eq.1, tradeEvent_trade _ _ (hpos _ h.mem_orders.1) (hpos _ h.mem_orders.2)]
  cases b with
  | true =>
    have hlt : f.sell.seqNo < f.buy.seqNo := hnewer
    have hb' : f.buy.isBuy = true := hb
    simp [executionPrice, taker, Nat.not_lt.mpr hlt.le, hlt, fillOf, Fill.order, hb',
      Order.offer, Fill.qty]
  | false =>
    have hlt : f.buy.seqNo < f.sell.seqNo := hnewer
    have hb' : f.sell.isBuy = false := hb
    simp [executionPrice, taker, Nat.not_lt.mpr hlt.le, hlt, fillOf, Fill.order, hb',
      Order.offer, Fill.qty]

/-- What a trade makes of a side: its head is reduced, or gone if that fills it. -/
theorem TradeStep.auction (h : TradeStep clock e e' f)
    (hpos : ∀ r ∈ e.book.orders, 0 < r.quantity) (b : Bool) :
    ∃ rest, e.book.auction b = (f.order b).offer :: rest ∧
      e'.book.auction b =
        if f.qty.toInt < (f.order b).quantity.toInt then
          (f.order b).offer.reduce f.qty.toInt :: rest
        else rest := by
  obtain ⟨rest, hrest, hrest'⟩ := h.resting b
  obtain ⟨-, hsound⟩ := h.positive hpos
  have hsub : ((f.order b).quantity - f.qty).toInt =
      (f.order b).quantity.toInt - f.qty.toInt := by
    cases b
    · exact hsound.sell_sub
    · exact hsound.buy_sub
  have hle : f.qty.toInt ≤ (f.order b).quantity.toInt := by
    rw [f.qty_toInt b]
    exact min_le_left _ _
  refine ⟨rest.map Order.offer, ?_, ?_⟩
  · rw [OrderBook.auction, hrest, List.map_cons]
  · rw [OrderBook.auction, hrest', map_afterFill rest hsub hle]

/-- Every offer a trade leaves was there before, at the same price and as old. -/
theorem TradeStep.auction_origin (h : TradeStep clock e e' f)
    (hpos : ∀ r ∈ e.book.orders, 0 < r.quantity) {b : Bool} {s : Offer P}
    (hs : s ∈ e'.book.auction b) :
    ∃ s' ∈ e.book.auction b, s.price = s'.price ∧ s.seqNo = s'.seqNo := by
  obtain ⟨rest, hrest, hrest'⟩ := h.auction hpos b
  rw [hrest'] at hs
  rw [hrest]
  split at hs
  · rcases List.mem_cons.mp hs with rfl | hs
    · exact ⟨(f.order b).offer, List.mem_cons_self, rfl, rfl⟩
    · exact ⟨s, List.mem_cons_of_mem _ hs, rfl, rfl⟩
  · exact ⟨s, List.mem_cons_of_mem _ hs, rfl, rfl⟩

end Trade

/-! ## The place of a new order -/

section Insert
variable {rel : Offer P → Offer P → Prop} [DecidableRel rel] {o : Offer P}

theorem orderedInsert_behind {l : List (Offer P)} (m : List (Offer P)) (h : ∀ r ∈ l, ¬ rel o r) :
    (l ++ m).orderedInsert rel o = l ++ m.orderedInsert rel o := by
  induction l with
  | nil => rfl
  | cons r l ih =>
    rw [List.cons_append, List.orderedInsert_cons, if_neg (h r (by simp)),
      ih fun s hs => h s (by simp [hs]), List.cons_append]

theorem orderedInsert_ahead {m : List (Offer P)} (h : ∀ r ∈ m, rel o r) :
    m.orderedInsert rel o = o :: m := by
  cases m with
  | nil => rfl
  | cons r m => rw [List.orderedInsert_cons, if_pos (h r (by simp))]

end Insert

variable [LinearOrder P]

/-- The push puts a newest order in its place by price and time. -/
theorem map_update_push {b : Bool} {o : Order P} {levels : Levels P}
    (hs : Sorted (Before b) levels) (hown : ∀ l ∈ levels, ∀ r ∈ l.2, r.price = l.1)
    (hlast : ∀ l ∈ levels, ∀ r ∈ l.2, r.seqNo < o.seqNo) :
    ((update (Before b) o.price [] (· ++ [o]) levels).flatMap Prod.snd).map Order.offer =
      ((levels.flatMap Prod.snd).map Order.offer).orderedInsert (Prior b) o.offer := by
  induction levels with
  | nil => rfl
  | cons l levels ih =>
    obtain ⟨key, level⟩ := l
    obtain ⟨hlt, hs'⟩ := sorted_cons.mp hs
    have hkey : ∀ r ∈ level, r.price = key := hown (key, level) (by simp)
    have hold : ∀ r ∈ level, r.seqNo < o.seqNo := hlast (key, level) (by simp)
    -- every order of a level behind the price of `o` is behind `o`
    have hahead : Before b o.price key → ∀ s ∈ (level ++ levels.flatMap Prod.snd).map Order.offer,
        Prior b o.offer s := by
      intro hk s hmem
      obtain ⟨r, hr, rfl⟩ := List.mem_map.mp hmem
      apply Or.inl
      rcases List.mem_append.mp hr with hr | hr
      · rw [offer_price, offer_price, hkey r hr]
        exact hk
      · obtain ⟨l, hl, hrl⟩ := List.mem_flatMap.mp hr
        rw [offer_price, offer_price, hown l (by simp [hl]) r hrl]
        exact trans_of (Before b) hk (hlt l hl)
    simp only [update, List.flatMap_cons]
    rcases trichotomous_of (Before b) key o.price with hk | rfl | hk
    · rw [if_pos hk, List.flatMap_cons, List.map_append,
        ih hs' (fun l hl => hown l (by simp [hl])) (fun l hl => hlast l (by simp [hl])),
        List.map_append, orderedInsert_behind]
      intro s hmem hprior
      obtain ⟨r, hr, rfl⟩ := List.mem_map.mp hmem
      rcases hprior with h | ⟨h, -⟩
      · rw [offer_price, offer_price, hkey r hr] at h
        exact asymm_of (Before b) hk h
      · rw [offer_price, offer_price, hkey r hr] at h
        exact ne_of_before hk h.symm
    · rw [if_neg (irrefl_of _ _), if_neg (irrefl_of _ _), List.flatMap_cons, List.map_append,
        List.map_append, List.map_append, orderedInsert_behind, orderedInsert_ahead]
      · simp
      · intro s hmem
        obtain ⟨r, hr, rfl⟩ := List.mem_map.mp hmem
        obtain ⟨l, hl, hrl⟩ := List.mem_flatMap.mp hr
        apply Or.inl
        rw [offer_price, offer_price, hown l (by simp [hl]) r hrl]
        exact hlt l hl
      · intro s hmem hprior
        obtain ⟨r, hr, rfl⟩ := List.mem_map.mp hmem
        rcases hprior with h | ⟨-, h⟩
        · rw [offer_price, offer_price, hkey r hr] at h
          exact irrefl_of _ _ h
        · exact absurd h (Nat.lt_asymm (hold r hr))
    · rw [if_neg (asymm_of _ hk), if_pos hk, orderedInsert_ahead (hahead hk)]
      simp

theorem auction_push {book : OrderBook P} (hc : book.Levelled) {o : Order P}
    (hlast : ∀ r ∈ book.orders, r.seqNo < o.seqNo) :
    (book.push o).auction o.isBuy = (book.auction o.isBuy).orderedInsert (Prior o.isBuy) o.offer ∧
      (book.push o).auction (!o.isBuy) = book.auction (!o.isBuy) := by
  constructor
  · unfold OrderBook.auction OrderBook.resting
    rw [push_side_own]
    refine map_update_push (hc.sorted _) (fun l hl r hr => (hc.own _ l hl r hr).1)
      fun l hl r hr => hlast r ?_
    exact OrderBook.mem_orders.mpr ⟨_, OrderBook.mem_resting.mpr ⟨l, hl, hr⟩⟩
  · unfold OrderBook.auction
    rw [push_resting_other]

/-! ## The loop sweeps -/

theorem sweep_filled {o : Offer P} (h : o.quantity ≤ 0) (l : List (Offer P)) :
    sweep o l = ⟨[], o, l⟩ := by
  cases l with
  | nil => rfl
  | cons r l => rw [sweep, if_neg fun hc => absurd hc.1 (by omega)]

theorem Offer.crosses_congr {r s s' : Offer P} (h : s.price = s'.price) :
    r.Crosses s ↔ r.Crosses s' := by
  unfold Offer.Crosses
  rw [h]

theorem sweep_apart {o : Offer P} {l : List (Offer P)} (h : ∀ s ∈ l, ¬ o.Crosses s) :
    sweep o l = ⟨[], o, l⟩ := by
  cases l with
  | nil => rfl
  | cons s l => rw [sweep, if_neg fun hc => h s List.mem_cons_self hc.2]

/-- The order on the side `b` of a trade crosses the other one. -/
theorem TradeStep.offer_crosses {clock : Nat → Int64} {e e' : MatchingEngine P} {f : Fill P}
    (h : TradeStep clock e e' f) (hl : e.book.Levelled) {b : Bool} (hb : (f.order b).isBuy = b) :
    (f.order b).offer.Crosses (f.order (!b)).offer := by
  have hc := h.crosses hl
  unfold Offer.Crosses
  rw [offer_isBuy, hb]
  cases b <;> exact hc

/-- Every order rests on its own side. -/
theorem auction_isBuy {book : OrderBook P} (hl : book.Levelled) {b : Bool} {r : Offer P}
    (hr : r ∈ book.auction b) : r.isBuy = b := by
  obtain ⟨o, ho, rfl⟩ := List.mem_map.mp hr
  obtain ⟨l, hmem, hol⟩ := OrderBook.mem_resting.mp ho
  exact (hl.own b l hmem o hol).2

theorem auction_uncrossed {book : OrderBook P} (hl : book.Levelled) (b : Bool) :
    book.Uncrossed ↔ ∀ r ∈ book.auction b, ∀ s ∈ book.auction (!b), ¬ r.Crosses s := by
  rw [hl.uncrossed_iff]
  constructor
  · intro h r hr s hs
    have hside := auction_isBuy hl hr
    obtain ⟨r', hr', rfl⟩ := List.mem_map.mp hr
    obtain ⟨s', hs', rfl⟩ := List.mem_map.mp hs
    unfold Offer.Crosses
    rw [hside]
    cases b
    · exact not_le.mpr (h s' hs' r' hr')
    · exact not_le.mpr (h r' hr' s' hs')
  · intro h r hr s hs
    cases b
    · have hc := h s.offer (List.mem_map_of_mem hs) r.offer (List.mem_map_of_mem hr)
      rw [Offer.Crosses, auction_isBuy hl (List.mem_map_of_mem hs)] at hc
      exact not_le.mp hc
    · have hc := h r.offer (List.mem_map_of_mem hr) s.offer (List.mem_map_of_mem hs)
      rw [Offer.Crosses, auction_isBuy hl (List.mem_map_of_mem hr)] at hc
      exact not_le.mp hc

/-- On an uncrossed book the loop exits at once. -/
theorem Matches.of_uncrossed {clock : Nat → Int64} {e e' : MatchingEngine P} {fs : List (Fill P)}
    (h : Matches clock e fs e') (hu : e.book.Uncrossed) : fs = [] ∧ e' = e := by
  cases h with
  | exit _ => exact ⟨rfl, rfl⟩
  | emptyLevel hs _ => cases (matchStep_exit.mpr hu).symm.trans hs
  | trade ht _ =>
    cases ht with
    | intro crosses => exact absurd (hu _ rfl _ rfl) crosses

/-- Where only `o` crosses, a head that crosses is `o`. -/
theorem head_of_crosses {b : Bool} {own rest : List (Offer P)} {o r s : Offer P}
    (h : r :: rest = own.orderedInsert (Prior b) o) (hcross : r.Crosses s)
    (hcalm : ∀ x ∈ own, ¬ x.Crosses s) :
    r = o ∧ rest = own ∧ ∀ q, own.orderedInsert (Prior b) (o.reduce q) = o.reduce q :: own := by
  cases own with
  | nil => simpa using h
  | cons x own =>
    rw [List.orderedInsert_cons] at h
    split at h
    · rename_i hprior
      simp only [List.cons.injEq] at h
      exact ⟨h.1, h.2, fun q => if_pos hprior⟩
    · simp only [List.cons.injEq] at h
      rw [h.1] at hcross
      exact absurd hcross (hcalm x List.mem_cons_self)

/-- **The loop is a sweep of the incoming order.** The order `o` has its place in
the side `b`, and no other order of that side crosses the other side. -/
theorem Matches.sweep {clock : Nat → Int64} {e e' : MatchingEngine P} {fs : List (Fill P)}
    (h : Matches clock e fs e') {b : Bool} {own : List (Offer P)} {o : Offer P}
    (ha : AtHead e.book) (hown : e.book.auction b = own.orderedInsert (Prior b) o)
    (hcalm : ∀ r ∈ own, ∀ s ∈ e.book.auction (!b), ¬ r.Crosses s)
    (hnewer : ∀ s ∈ e.book.auction (!b), s.seqNo < o.seqNo) :
    let s := Engine.sweep o (e.book.auction (!b))
    fs.map (·.event.trade) = s.trades ∧ e'.book.auction (!b) = s.resting ∧
      e'.book.auction b =
        if 0 < s.incoming.quantity then own.orderedInsert (Prior b) s.incoming else own := by
  induction h generalizing o with
  | @exit e hu =>
    have hmem : o ∈ e.book.auction b := by rw [hown]; simp
    have hnone := (auction_uncrossed ha.consistent.toLevelled b).mp hu o hmem
    obtain ⟨o, ho, rfl⟩ := List.mem_map.mp hmem
    have hpos : 0 < o.offer.quantity :=
      toInt_pos.mp (ha.positive o (OrderBook.mem_orders.mpr ⟨b, ho⟩))
    intro s
    rw [show s = _ from sweep_apart hnone]
    exact ⟨rfl, rfl, by rw [if_pos hpos, hown]⟩
  | emptyLevel hs _ _ =>
    exact absurd hs (NoEmptyLevel.not_emptyLevel ha.consistent.nonempty _)
  | @trade e e₁ e' f fs ht hrest ih =>
    obtain ⟨mine, hmine, hmine'⟩ := ht.auction ha.positive b
    obtain ⟨other, hopp, hopp'⟩ := ht.auction ha.positive (!b)
    have hb : (f.order b).isBuy = b :=
      auction_isBuy ha.consistent.toLevelled
        (show (f.order b).offer ∈ e.book.auction b by rw [hmine]; exact List.mem_cons_self)
    have hcross := ht.offer_crosses ha.consistent.toLevelled hb
    have hhead : (f.order (!b)).offer ∈ e.book.auction (!b) := by
      rw [hopp]
      exact List.mem_cons_self
    obtain ⟨rfl, rfl, hplace⟩ := head_of_crosses (hmine.symm.trans hown) hcross
      fun r hr => hcalm r hr _ hhead
    have htrade := ht.trade_eq ha.positive (hnewer _ hhead) hb
    have hpos := ht.order_pos ha.positive b
    have hq := f.qty_toInt b
    -- the other side still does not cross what rested with the incoming order
    have hcalm' : ∀ r ∈ mine, ∀ s ∈ e₁.book.auction (!b), ¬ r.Crosses s :=
      fun r hr s hs hc => by
        obtain ⟨s', hs', hprice, -⟩ := ht.auction_origin ha.positive hs
        exact hcalm r hr s' hs' ((Offer.crosses_congr hprice).mp hc)
    intro s
    have hs : s = Engine.sweep (f.order b).offer (e.book.auction (!b)) := rfl
    rw [hopp, Engine.sweep, if_pos ⟨hpos, hcross⟩] at hs
    simp only [offer_quantity, ← hq] at hs
    by_cases hleft : f.qty.toInt < (f.order b).quantity.toInt
    · -- the resting order is filled, and the incoming one goes on
      have hfull : ¬ f.qty.toInt < (f.order (!b)).quantity.toInt := by omega
      rw [if_pos hleft] at hmine'
      rw [if_neg hfull] at hopp' hs
      obtain ⟨h₁, h₂, h₃⟩ := ih (ht.atHead ha) (hmine'.trans (hplace _).symm) hcalm'
        fun s hs => by
          obtain ⟨s', hs', -, hseq⟩ := ht.auction_origin ha.positive hs
          rw [hseq]
          exact hnewer s' hs'
      rw [hopp'] at h₁ h₂ h₃
      rw [hs]
      refine ⟨?_, h₂, h₃⟩
      rw [List.map_cons, htrade, h₁]
    · -- the incoming order is filled, and the loop exits
      rw [if_neg hleft] at hmine'
      have hu : e₁.book.Uncrossed :=
        (auction_uncrossed (ht.atHead ha).consistent.toLevelled b).mpr (by rwa [hmine'])
      obtain ⟨rfl, rfl⟩ := hrest.of_uncrossed hu
      have hzero : ((f.order b).offer.reduce f.qty.toInt).quantity = 0 := by
        rw [Offer.reduce_quantity, offer_quantity]
        omega
      rw [sweep_filled hzero.le] at hs
      rw [hs]
      refine ⟨?_, hopp', ?_⟩
      · rw [List.map_cons, htrade]
        rfl
      · dsimp only
        rw [hzero, if_neg (by omega), hmine']

/-! ## The simulation -/

/-- A call, read as one of the auction. -/
def Auction.call (a : Auction P) : Call P → Auction P × List (Trade P)
  | .addOrder o => a.submit o.offer
  | .cancelOrder id => (a.cancel id.toInt, [])

/-- The sides of a book are in priority order. -/
theorem AtHead.prior {book : OrderBook P} (h : AtHead book) (b : Bool) :
    (book.auction b).Pairwise (Prior b) := by
  rw [OrderBook.auction, OrderBook.resting, List.pairwise_map, List.pairwise_flatMap]
  constructor
  · intro l hl
    refine (h.fifo b l hl).imp_of_mem fun {r s} hr hs hlt => Or.inr ⟨?_, hlt⟩
    rw [offer_price, offer_price, (h.consistent.own b l hl r hr).1,
      (h.consistent.own b l hl s hs).1]
  · refine (h.consistent.sorted b).imp_of_mem fun {l m} hl hm hlt r hr s hs => Or.inl ?_
    rw [offer_price, offer_price, (h.consistent.own b l hl r hr).1,
      (h.consistent.own b m hm s hs).1]
    exact hlt

theorem addOrder_submits {past : List (Call P)} {e : MatchingEngine P} (h : Reached past e)
    (clock : Nat → Int64) {o : Order P} (hok : Admissible past e (.addOrder o)) :
    (addOrder clock e o).2.map (·.event.trade) = (e.book.auction.submit o.offer).2 ∧
      (addOrder clock e o).1.book.auction = (e.book.auction.submit o.offer).1 := by
  obtain ⟨hown, hopp⟩ := auction_push h.consistent.toLevelled (h.last hok)
  have hcalm := (auction_uncrossed h.consistent.toLevelled o.isBuy).mp h.uncrossed
  have hm := matching_matches clock { e with book := e.book.push o }
  obtain ⟨htrades, hother, hmine⟩ := hm.sweep (h.atHead_push hok) hown
    (by rwa [hopp]) (by
      intro s hs
      rw [hopp] at hs
      obtain ⟨r, hr, rfl⟩ := List.mem_map.mp hs
      exact h.last hok r (OrderBook.mem_orders.mpr ⟨_, hr⟩))
  rw [hopp] at htrades hother hmine
  refine ⟨htrades, funext fun b => ?_⟩
  rcases Bool.eq_or_eq_not b o.isBuy with rfl | rfl
  · exact hmine.trans (if_pos rfl).symm
  · exact hother.trans (if_neg (by simp)).symm

theorem cancelOrder_cancels {book : OrderBook P} (h : book.Consistent) (id : Int32) :
    (book.cancelOrder id).auction = book.auction.cancel id.toInt := by
  funext b
  rw [OrderBook.auction, h.resting_cancelOrder, Auction.cancel, OrderBook.auction,
    List.filter_map]
  congr 1
  apply List.filter_congr
  intro r _
  simp [Order.offer, Int32.toInt_inj]

/-- **The engine refines the reference auction.** On every run the engine makes,
call by call, the trades of the auction, and leaves the auction's offers resting
in the auction's order. After every call the book is uncrossed. -/
theorem engine_refines_auction (clock : Nat → Int64) (calls : List (Call P))
    (h : Guarded (call clock) Admissible [] MatchingEngine.init calls) :
    let engine := run (call clock) MatchingEngine.init calls
    let auction := run Auction.call Auction.empty calls
    engine.2.map (List.map (·.event.trade)) = auction.2 ∧
      engine.1.book.auction = auction.1 ∧
      (∀ b, (auction.1 b).Pairwise (Prior b)) ∧
      engine.1.book.Uncrossed := by
  intro engine auction
  have hsim := run_simulates Auction.call
    (fun past e a => Reached past e ∧ e.book.auction = a) (List.map (·.event.trade))
    (fun past e a c hR hok => by
      obtain ⟨hr, rfl⟩ := hR
      refine ⟨⟨hr.call clock c hok, ?_⟩, ?_⟩
      · cases c with
        | addOrder o => exact (addOrder_submits hr clock hok).2
        | cancelOrder id => exact cancelOrder_cancels hr.consistent id
      · cases c with
        | addOrder o => exact (addOrder_submits hr clock hok).1
        | cancelOrder id => rfl)
    (t := Auction.empty) ⟨reached_init, by funext b; cases b <;> rfl⟩ h
  obtain ⟨⟨hr, habs⟩, htrades⟩ := hsim
  refine ⟨htrades, habs, fun b => ?_, hr.uncrossed⟩
  have := (AtHead.mk hr.consistent hr.fifo hr.positive).prior b
  rwa [habs] at this

/-- A buy that sweeps two price levels and rests, and a sell that hits it after a cancel. -/
def sweepCalls : List (Call Int) :=
  [.addOrder ⟨1, 5, false, 10, 1, 2, 0⟩, .addOrder ⟨2, 5, false, 11, 1, 2, 1⟩,
    .addOrder ⟨3, 12, true, 12, 3, 4, 2⟩, .cancelOrder 1, .addOrder ⟨1, 9, false, 9, 5, 6, 3⟩,
    .cancelOrder 1]

theorem sweepCalls_refines :
    ((run (call fun _ => 9) MatchingEngine.init sweepCalls).2.map (List.map (·.event.trade))) =
      (run Auction.call Auction.empty sweepCalls).2 :=
  (engine_refines_auction (fun _ => 9) sweepCalls (by decide)).1

end TradePlat.Engine
