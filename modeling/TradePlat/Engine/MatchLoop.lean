import Mathlib.Data.Bool.Basic
import TradePlat.Engine.MatchingEngine

/-!
# The loop of `matching`, step by step

Everything later modules say about `matching` goes through this file.
`matchStep_trade`, `matchStep_emptyLevel` and `matchStep_exit` list all an
iteration can do. `Matches` is a whole run of the loop, and `matching_matches`
says that `matching` is one: it ends by its own exit, on every book, because an
iteration always removes an order or a level (`size_trade`, `size_emptyLevel`).
`TradeStep.resting_buy` and its sell twin give the effect of a trade on the
resting orders of a side, read front to back.
-/

namespace TradePlat.Engine
open SortedMap

variable {P : Type}

/-! ## The front of a level -/

/-- A level behind and including its front order `o`, after `q` of `o` is filled. -/
def afterFill (o : Order P) (q : Int32) (rest : Level P) : Level P :=
  if o.quantity - q = 0 then rest else o.reduce q :: rest

@[simp] theorem reduce_quantity (o : Order P) (q : Int32) :
    (o.reduce q).quantity = o.quantity - q := rfl
@[simp] theorem reduce_orderId (o : Order P) (q : Int32) : (o.reduce q).orderId = o.orderId := rfl
@[simp] theorem reduce_price (o : Order P) (q : Int32) : (o.reduce q).price = o.price := rfl
@[simp] theorem reduce_isBuy (o : Order P) (q : Int32) : (o.reduce q).isBuy = o.isBuy := rfl
@[simp] theorem reduce_seqNo (o : Order P) (q : Int32) : (o.reduce q).seqNo = o.seqNo := rfl
@[simp] theorem reduce_t0 (o : Order P) (q : Int32) : (o.reduce q).t0 = o.t0 := rfl
@[simp] theorem reduce_t1 (o : Order P) (q : Int32) : (o.reduce q).t1 = o.t1 := rfl

theorem eraseAt_front (m : OrderMap P) (o : Order P) (rest : Level P) :
    eraseAt m (o :: rest) 0 = (refresh m 0 rest, rest) := by
  simp [eraseAt]

theorem consumeFront_level (m : OrderMap P) (o : Order P) (q : Int32) (rest : Level P) :
    (consumeFront m (o.reduce q) (o.reduce q :: rest)).2 = afterFill o q rest := by
  unfold consumeFront afterFill
  by_cases h : o.quantity - q = 0
  · simp [h, eraseAt_front]
  · simp [h]

theorem afterFill_append (o : Order P) (q : Int32) (rest more : Level P) :
    afterFill o q rest ++ more = afterFill o q (rest ++ more) := by
  unfold afterFill
  split <;> rfl

theorem flatMap_putLevel (key : P) (level : Level P) (levels : Levels P) :
    (putLevel key level levels).flatMap Prod.snd = level ++ levels.flatMap Prod.snd := by
  unfold putLevel
  cases level <;> simp

theorem mem_putLevel {key : P} {level : Level P} {levels : Levels P} {l : P × Level P} :
    l ∈ putLevel key level levels ↔ (l = (key, level) ∧ level ≠ []) ∨ l ∈ levels := by
  unfold putLevel
  cases level <;> simp

theorem length_putLevel (key : P) (level : Level P) (levels : Levels P) :
    (putLevel key level levels).length ≤ levels.length + 1 := by
  unfold putLevel
  split <;> simp

theorem length_afterFill (o : Order P) (q : Int32) (rest : Level P) :
    (afterFill o q rest).length ≤ rest.length + 1 := by
  unfold afterFill
  split <;> simp

theorem mem_afterFill {o r : Order P} {q : Int32} {rest : Level P} (h : r ∈ afterFill o q rest) :
    r = o.reduce q ∨ r ∈ rest := by
  unfold afterFill at h
  split at h
  · exact Or.inr h
  · simpa using h

theorem tradedQty_eq (buy sell : Order P) :
    tradedQty buy sell =
      if buy.quantity ≤ sell.quantity then buy.quantity else sell.quantity := rfl

/-- One of the two orders of a trade is filled by it, whatever the quantities. -/
theorem filled_or_filled (buy sell : Order P) :
    buy.quantity - tradedQty buy sell = 0 ∨ sell.quantity - tradedQty buy sell = 0 := by
  rw [tradedQty_eq]
  split
  · exact Or.inl (Int32.sub_self _)
  · exact Or.inr (Int32.sub_self _)

/-! ## One iteration -/

/-- What a trading iteration makes of the engine. -/
inductive TradeStep [LT P] (clock : Nat → Int64) :
    MatchingEngine P → MatchingEngine P → Fill P → Prop
  | intro {bid ask : P} {buy sell : Order P} {buyRest sellRest : Level P}
      {buys sells : Levels P} {m : OrderMap P} {n : Nat} (crosses : ¬ bid < ask) :
      TradeStep clock
        ⟨⟨(bid, buy :: buyRest) :: buys, (ask, sell :: sellRest) :: sells, m⟩, n⟩
        ⟨⟨putLevel bid (afterFill buy (tradedQty buy sell) buyRest) buys,
          putLevel ask (afterFill sell (tradedQty buy sell) sellRest) sells,
          (consumeFront
            (consumeFront m (buy.reduce (tradedQty buy sell))
              (buy.reduce (tradedQty buy sell) :: buyRest)).1
            (sell.reduce (tradedQty buy sell))
            (sell.reduce (tradedQty buy sell) :: sellRest)).1⟩, n + 1⟩
        ⟨tradeEvent (n + 1) (clock (n + 1)) buy sell, buy, sell⟩

/-- The best bid is below the best ask, or a side is empty. -/
def OrderBook.Uncrossed [LT P] (book : OrderBook P) : Prop :=
  ∀ b ∈ book.buyOrders.head?, ∀ s ∈ book.sellOrders.head?, b.1 < s.1

/-- No price level is empty. -/
def OrderBook.NoEmptyLevel (book : OrderBook P) : Prop :=
  ∀ b, ∀ l ∈ book.side b, l.2 ≠ []

section Step
variable [LT P] [DecidableLT P] {clock : Nat → Int64} {e e' : MatchingEngine P} {f : Fill P}

theorem matchStep_trade (h : matchStep clock e = .trade e' f) : TradeStep clock e e' f := by
  obtain ⟨⟨buyOrders, sellOrders, m⟩, n⟩ := e
  unfold matchStep at h
  split at h
  · rename_i bid buyVec buys ask sellVec sells hb hs
    simp only at hb hs
    subst hb hs
    split at h
    · cases h
    · rename_i hcross
      cases buyVec <;> cases sellVec <;> simp only [reduceCtorEq] at h
      rename_i buy buyRest sell sellRest
      simp only [Iteration.trade.injEq] at h
      obtain ⟨rfl, rfl⟩ := h
      rw [consumeFront_level, consumeFront_level]
      exact TradeStep.intro hcross
  · cases h

theorem matchStep_exit : matchStep clock e = .exit ↔ e.book.Uncrossed := by
  obtain ⟨⟨buyOrders, sellOrders, m⟩, n⟩ := e
  unfold matchStep OrderBook.Uncrossed
  rcases buyOrders with _ | ⟨⟨bid, buyVec⟩, buys⟩
  · simp
  rcases sellOrders with _ | ⟨⟨ask, sellVec⟩, sells⟩
  · simp
  by_cases hcross : bid < ask
  · simp [hcross]
  · cases buyVec <;> cases sellVec <;> simp [hcross]

/-- The branch for empty levels is taken only where a best level is empty. -/
theorem matchStep_emptyLevel (h : matchStep clock e = .emptyLevel e') :
    ∃ bid buyVec buys ask sellVec sells,
      e.book.buyOrders = (bid, buyVec) :: buys ∧ e.book.sellOrders = (ask, sellVec) :: sells ∧
      (buyVec = [] ∨ sellVec = []) ∧
      e' = { e with book := { e.book with
              buyOrders := putLevel bid buyVec buys
              sellOrders := putLevel ask sellVec sells } } := by
  obtain ⟨⟨buyOrders, sellOrders, m⟩, n⟩ := e
  unfold matchStep at h
  split at h
  · rename_i bid buyVec buys ask sellVec sells hb hs
    simp only at hb hs
    subst hb hs
    split at h
    · cases h
    · cases buyVec <;> cases sellVec <;> simp only [reduceCtorEq, Iteration.emptyLevel.injEq] at h
      all_goals exact ⟨bid, _, buys, ask, _, sells, rfl, rfl, by simp, h.symm⟩
  · cases h

theorem NoEmptyLevel.not_emptyLevel (hne : e.book.NoEmptyLevel) (e' : MatchingEngine P) :
    matchStep clock e ≠ .emptyLevel e' := by
  intro h
  obtain ⟨bid, buyVec, buys, ask, sellVec, sells, hb, hs, hempty, -⟩ := matchStep_emptyLevel h
  rcases hempty with rfl | rfl
  · exact hne true (bid, []) (by simp [OrderBook.side, hb]) rfl
  · exact hne false (ask, []) (by simp [OrderBook.side, hs]) rfl

end Step

/-! ## A trade and the resting orders -/

section Resting
variable [LT P] {clock : Nat → Int64} {e e' : MatchingEngine P} {f : Fill P}

/-- The quantity traded by a fill. -/
def Fill.qty (f : Fill P) : Int32 := tradedQty f.buy f.sell

theorem TradeStep.resting_buy (h : TradeStep clock e e' f) :
    ∃ rest, e.book.resting true = f.buy :: rest ∧
      e'.book.resting true = afterFill f.buy f.qty rest := by
  cases h with
  | @intro bid ask buy sell buyRest sellRest buys sells m n crosses =>
    exact ⟨buyRest ++ buys.flatMap Prod.snd, rfl, by
      simp [OrderBook.resting, OrderBook.side, flatMap_putLevel, afterFill_append, Fill.qty]⟩

theorem TradeStep.resting_sell (h : TradeStep clock e e' f) :
    ∃ rest, e.book.resting false = f.sell :: rest ∧
      e'.book.resting false = afterFill f.sell f.qty rest := by
  cases h with
  | @intro bid ask buy sell buyRest sellRest buys sells m n crosses =>
    exact ⟨sellRest ++ sells.flatMap Prod.snd, rfl, by
      simp [OrderBook.resting, OrderBook.side, flatMap_putLevel, afterFill_append, Fill.qty]⟩

theorem TradeStep.event_eq (h : TradeStep clock e e' f) :
    f.event = tradeEvent (e.nextMatchId + 1) (clock (e.nextMatchId + 1)) f.buy f.sell ∧
      e'.nextMatchId = e.nextMatchId + 1 := by
  cases h; exact ⟨rfl, rfl⟩

theorem TradeStep.noEmptyLevel (h : TradeStep clock e e' f) (hne : e.book.NoEmptyLevel) :
    e'.book.NoEmptyLevel := by
  cases h with
  | @intro bid ask buy sell buyRest sellRest buys sells m n crosses =>
    intro b l hl
    cases b <;> simp only [OrderBook.side, mem_putLevel] at hl
    · rcases hl with ⟨rfl, hl⟩ | hl
      · exact hl
      · exact hne false l (by simp [OrderBook.side, hl])
    · rcases hl with ⟨rfl, hl⟩ | hl
      · exact hl
      · exact hne true l (by simp [OrderBook.side, hl])

/-- A trade takes at least one order off the book. -/
theorem orders_length_trade (h : TradeStep clock e e' f) :
    e'.book.orders.length < e.book.orders.length := by
  obtain ⟨bs, hb, hb'⟩ := h.resting_buy
  obtain ⟨ss, hs, hs'⟩ := h.resting_sell
  have hbl := length_afterFill f.buy f.qty bs
  have hsl := length_afterFill f.sell f.qty ss
  unfold OrderBook.orders
  rw [hb, hs, hb', hs']
  simp only [List.length_append, List.length_cons]
  rcases filled_or_filled f.buy f.sell with hq | hq
  · have : (afterFill f.buy f.qty bs).length = bs.length := by simp [afterFill, Fill.qty, hq]
    omega
  · have : (afterFill f.sell f.qty ss).length = ss.length := by simp [afterFill, Fill.qty, hq]
    omega

theorem size_trade (h : TradeStep clock e e' f) : e'.book.size < e.book.size := by
  have horders := orders_length_trade h
  have hlevels : e'.book.buyOrders.length ≤ e.book.buyOrders.length ∧
      e'.book.sellOrders.length ≤ e.book.sellOrders.length := by
    cases h; exact ⟨length_putLevel .., length_putLevel ..⟩
  unfold OrderBook.size
  omega

end Resting

/-! ## The whole loop -/

/-- A run of the loop from its first iteration to its exit, with its fills. -/
inductive Matches [LT P] [DecidableLT P] (clock : Nat → Int64) :
    MatchingEngine P → List (Fill P) → MatchingEngine P → Prop
  | exit {e : MatchingEngine P} : e.book.Uncrossed → Matches clock e [] e
  | emptyLevel {e e' e'' : MatchingEngine P} {fs : List (Fill P)} :
      matchStep clock e = .emptyLevel e' → Matches clock e' fs e'' → Matches clock e fs e''
  | trade {e e' e'' : MatchingEngine P} {f : Fill P} {fs : List (Fill P)} :
      TradeStep clock e e' f → Matches clock e' fs e'' → Matches clock e (f :: fs) e''

section Loop
variable [LT P] [DecidableLT P] {clock : Nat → Int64} {e e' : MatchingEngine P} {f : Fill P}

theorem size_emptyLevel (h : matchStep clock e = .emptyLevel e') :
    e'.book.size < e.book.size := by
  obtain ⟨bid, buyVec, buys, ask, sellVec, sells, hb, hs, hempty, rfl⟩ := matchStep_emptyLevel h
  have hbl := length_putLevel bid buyVec buys
  have hsl := length_putLevel ask sellVec sells
  simp only [OrderBook.size, OrderBook.orders, OrderBook.resting, OrderBook.side, hb, hs,
    flatMap_putLevel, List.flatMap_cons, List.length_append, List.length_cons]
  rcases hempty with rfl | rfl
  · simp only [putLevel, List.isEmpty_nil, ↓reduceIte] at hbl hsl ⊢
    omega
  · simp only [putLevel, List.isEmpty_nil, ↓reduceIte] at hbl hsl ⊢
    omega

/-- Fuel above the size of the book runs the loop to its own exit. -/
theorem matchLoop_matches (fuel : Nat) (e : MatchingEngine P) (h : e.book.size < fuel) :
    Matches clock e (matchLoop clock fuel e).2 (matchLoop clock fuel e).1 := by
  induction fuel generalizing e with
  | zero => omega
  | succ fuel ih =>
    unfold matchLoop
    cases hs : matchStep clock e with
    | exit => exact .exit (matchStep_exit.mp hs)
    | emptyLevel e' =>
      have := size_emptyLevel hs
      exact .emptyLevel hs (ih e' (by omega))
    | trade e' f =>
      have ht := matchStep_trade hs
      have := size_trade ht
      exact .trade ht (ih e' (by omega))

/-- **`matching` terminates by its own exit on every book.** -/
theorem matching_matches (clock : Nat → Int64) (e : MatchingEngine P) :
    Matches clock e (matching clock e).2 (matching clock e).1 :=
  matchLoop_matches _ e (Nat.lt_succ_self _)

theorem Matches.uncrossed {fs : List (Fill P)} (h : Matches clock e fs e') :
    e'.book.Uncrossed := by
  induction h with
  | exit h => exact h
  | emptyLevel _ _ ih => exact ih
  | trade _ _ ih => exact ih

/-- **Loop rule.** What every trading iteration preserves holds at the exit, and
what every trade satisfies holds of every fill. The book has no empty level, so
the branch for empty levels is not taken. -/
theorem Matches.invariant (Inv : MatchingEngine P → Prop) (Good : Fill P → Prop)
    (hstep : ∀ e e' f, Inv e → e.book.NoEmptyLevel → TradeStep clock e e' f →
      Inv e' ∧ Good f)
    {fs : List (Fill P)} (h : Matches clock e fs e') (hne : e.book.NoEmptyLevel) (hi : Inv e) :
    Inv e' ∧ e'.book.NoEmptyLevel ∧ ∀ f ∈ fs, Good f := by
  induction h with
  | exit _ => exact ⟨hi, hne, by simp⟩
  | emptyLevel hs _ _ => exact absurd hs (NoEmptyLevel.not_emptyLevel hne _)
  | trade ht _ ih =>
    obtain ⟨hi', hgood⟩ := hstep _ _ _ hi hne ht
    obtain ⟨hi'', hne'', hall⟩ := ih (ht.noEmptyLevel hne) hi'
    exact ⟨hi'', hne'', by simpa using ⟨hgood, hall⟩⟩

end Loop

/-! ## The push of `addOrder` -/

section Push
variable [LT P] [DecidableLT P]

theorem flatMap_update_push (b : Bool) (o : Order P) (levels : Levels P) :
    ((update (Before b) o.price [] (· ++ [o]) levels).flatMap Prod.snd).Perm
      (o :: levels.flatMap Prod.snd) := by
  induction levels with
  | nil => simp [update]
  | cons l levels ih =>
    obtain ⟨key, level⟩ := l
    simp only [update]
    split
    · simp only [List.flatMap_cons]
      exact (List.Perm.append_left level ih).trans List.perm_middle
    · split
      · simp
      · simp only [List.flatMap_cons, List.append_assoc, List.singleton_append]
        exact List.perm_middle

@[simp] theorem push_side_own (book : OrderBook P) (o : Order P) :
    (book.push o).side o.isBuy =
      update (Before o.isBuy) o.price [] (· ++ [o]) (book.side o.isBuy) := by
  simp [OrderBook.push]

@[simp] theorem push_side_other (book : OrderBook P) (o : Order P) :
    (book.push o).side (!o.isBuy) = book.side (!o.isBuy) := by
  simp [OrderBook.push]

theorem push_resting_own (book : OrderBook P) (o : Order P) :
    ((book.push o).resting o.isBuy).Perm (o :: book.resting o.isBuy) := by
  simpa [OrderBook.resting] using flatMap_update_push o.isBuy o (book.side o.isBuy)

theorem push_resting_other (book : OrderBook P) (o : Order P) :
    (book.push o).resting (!o.isBuy) = book.resting (!o.isBuy) := by
  simp [OrderBook.resting]

theorem push_orders (book : OrderBook P) (o : Order P) :
    (book.push o).orders.Perm (o :: book.orders) := by
  have h := (push_resting_own book o).append_right (book.resting (!o.isBuy))
  rw [← push_resting_other book o] at h
  refine (OrderBook.orders_perm _ o.isBuy).trans (h.trans ?_)
  rw [push_resting_other]
  exact ((OrderBook.orders_perm book o.isBuy).symm).cons o

theorem push_noEmptyLevel {book : OrderBook P} (hne : book.NoEmptyLevel) (o : Order P) :
    (book.push o).NoEmptyLevel := by
  intro b l hl
  rcases Bool.eq_or_eq_not b o.isBuy with rfl | rfl
  · rw [push_side_own] at hl
    rcases mem_update hl with h | rfl | ⟨v, _, h, _⟩
    · exact hne _ l h
    · simp
    · simp [h]
  · rw [push_side_other] at hl
    exact hne _ l hl

end Push

/-! ## Where the orders of a loop come from and go to -/

/-- `r` is `o` up to what has been filled of it. -/
def Order.Version (o r : Order P) : Prop := r = { o with quantity := r.quantity }

theorem Order.Version.refl (o : Order P) : o.Version o := rfl

theorem Order.Version.trans {o r s : Order P} (h : o.Version r) (h' : r.Version s) :
    o.Version s := by
  unfold Version at *
  rw [h', h]

theorem Order.Version.seqNo {o r : Order P} (h : o.Version r) : r.seqNo = o.seqNo := by rw [h]
theorem Order.Version.price {o r : Order P} (h : o.Version r) : r.price = o.price := by rw [h]
theorem Order.Version.orderId {o r : Order P} (h : o.Version r) : r.orderId = o.orderId := by rw [h]
theorem Order.Version.isBuy {o r : Order P} (h : o.Version r) : r.isBuy = o.isBuy := by rw [h]

theorem version_reduce (o : Order P) (q : Int32) : o.Version (o.reduce q) := rfl

section Provenance
variable [LT P] {clock : Nat → Int64} {e e' : MatchingEngine P} {f : Fill P}

/-- The two orders of a trade are the fronts of the two sides. -/
theorem TradeStep.mem_orders (h : TradeStep clock e e' f) :
    f.buy ∈ e.book.orders ∧ f.sell ∈ e.book.orders := by
  obtain ⟨bs, hb, -⟩ := h.resting_buy
  obtain ⟨ss, hs, -⟩ := h.resting_sell
  simp [OrderBook.orders, hb, hs]

/-- Every order left by a trade was there before it. -/
theorem TradeStep.origin (h : TradeStep clock e e' f) {r : Order P} (hr : r ∈ e'.book.orders) :
    ∃ o ∈ e.book.orders, o.Version r := by
  obtain ⟨bs, hb, hb'⟩ := h.resting_buy
  obtain ⟨ss, hs, hs'⟩ := h.resting_sell
  simp only [OrderBook.orders, hb', hs', List.mem_append] at hr
  simp only [OrderBook.orders, hb, hs]
  rcases hr with hr | hr <;> rcases mem_afterFill hr with rfl | hr
  · exact ⟨f.buy, by simp, version_reduce _ _⟩
  · exact ⟨r, by simp [hr], .refl r⟩
  · exact ⟨f.sell, by simp, version_reduce _ _⟩
  · exact ⟨r, by simp [hr], .refl r⟩

/-- An order is still there after a trade, or it took part in it. -/
theorem TradeStep.fate (h : TradeStep clock e e' f) {o : Order P} (ho : o ∈ e.book.orders) :
    o ∈ e'.book.orders ∨ o = f.buy ∨ o = f.sell := by
  obtain ⟨bs, hb, hb'⟩ := h.resting_buy
  obtain ⟨ss, hs, hs'⟩ := h.resting_sell
  have keep : ∀ {o₁ r : Order P} {q : Int32} {rest : Level P}, r ∈ rest →
      r ∈ afterFill o₁ q rest := by
    intro o₁ r q rest hr
    unfold afterFill
    split
    · exact hr
    · exact List.mem_cons_of_mem _ hr
  simp only [OrderBook.orders, hb, hs, List.mem_append, List.mem_cons] at ho
  simp only [OrderBook.orders, hb', hs', List.mem_append]
  rcases ho with (rfl | ho) | (rfl | ho)
  · exact Or.inr (Or.inl rfl)
  · exact Or.inl (Or.inl (keep ho))
  · exact Or.inr (Or.inr rfl)
  · exact Or.inl (Or.inr (keep ho))

variable [DecidableLT P]

theorem orders_emptyLevel (h : matchStep clock e = .emptyLevel e') :
    e'.book.orders = e.book.orders := by
  obtain ⟨bid, buyVec, buys, ask, sellVec, sells, hb, hs, -, rfl⟩ := matchStep_emptyLevel h
  simp [OrderBook.orders, OrderBook.resting, OrderBook.side, hb, hs, flatMap_putLevel]

/-- Every order left by the loop, and every order in a fill, was there before it. -/
theorem Matches.origin {fs : List (Fill P)} (h : Matches clock e fs e') :
    (∀ r ∈ e'.book.orders, ∃ o ∈ e.book.orders, o.Version r) ∧
      ∀ f ∈ fs, (∃ o ∈ e.book.orders, o.Version f.buy) ∧
        ∃ o ∈ e.book.orders, o.Version f.sell := by
  induction h with
  | exit _ => exact ⟨fun r hr => ⟨r, hr, .refl r⟩, by simp⟩
  | emptyLevel hs _ ih => rwa [orders_emptyLevel hs] at ih
  | @trade e e' _ f fs ht _ ih =>
    obtain ⟨ihr, ihf⟩ := ih
    have back : ∀ {r : Order P}, (∃ o ∈ e'.book.orders, o.Version r) →
        ∃ o ∈ e.book.orders, o.Version r := by
      rintro r ⟨o, ho, hv⟩
      obtain ⟨o', ho', hv'⟩ := ht.origin ho
      exact ⟨o', ho', hv'.trans hv⟩
    refine ⟨fun r hr => back (ihr r hr), fun f hf => ?_⟩
    rcases List.mem_cons.mp hf with rfl | hf
    · exact ⟨⟨f.buy, ht.mem_orders.1, .refl _⟩, ⟨f.sell, ht.mem_orders.2, .refl _⟩⟩
    · exact ⟨back (ihf f hf).1, back (ihf f hf).2⟩

/-- An order is left by the loop unchanged, or it took part in one of the fills. -/
theorem Matches.fate {fs : List (Fill P)} (h : Matches clock e fs e') {o : Order P}
    (ho : o ∈ e.book.orders) :
    o ∈ e'.book.orders ∨ ∃ f ∈ fs, o = f.buy ∨ o = f.sell := by
  induction h with
  | exit _ => exact Or.inl ho
  | emptyLevel hs _ ih => exact ih (by rwa [orders_emptyLevel hs])
  | trade ht _ ih =>
    rcases ht.fate ho with ho | ho
    · rcases ih ho with h | ⟨f, hf, h⟩
      · exact Or.inl h
      · exact Or.inr ⟨f, List.mem_cons_of_mem _ hf, h⟩
    · exact Or.inr ⟨_, List.mem_cons_self, ho⟩

end Provenance

end TradePlat.Engine
