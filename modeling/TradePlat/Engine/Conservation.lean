import Mathlib.Algebra.BigOperators.Group.List.Basic
import Mathlib.Tactic.Ring
import TradePlat.Lib.Runs
import TradePlat.Engine.MatchLoop

/-!
# Quantity conservation

An order is known by its `seqNo`. `remaining` is what rests of it and `filled`
what the events of a run traded of it. A trade moves the traded quantity from
the one to the other on both sides (`TradeStep.moves`), so over a run the sum is
the submitted quantity (`quantity_conservation`). Prices and order ids play no
part: the comparison of prices is any relation.
-/

namespace TradePlat.Engine
open SortedMap Runs

variable {P : Type}

/-! ## The traded quantity -/

section TradedQty
variable {buy sell : Order P}

theorem tradedQty_toInt (buy sell : Order P) :
    (tradedQty buy sell).toInt = min buy.quantity.toInt sell.quantity.toInt := by
  rw [tradedQty_eq]
  by_cases h : buy.quantity ≤ sell.quantity
  · have h' := Int32.le_iff_toInt_le.mp h
    rw [if_pos h]
    omega
  · have h' : ¬ buy.quantity.toInt ≤ sell.quantity.toInt := fun h' =>
      h (Int32.le_iff_toInt_le.mpr h')
    rw [if_neg h]
    omega

theorem toInt_pos {q : Int32} : 0 < q ↔ 0 < q.toInt := Int32.lt_iff_toInt_lt

/-- A subtraction of a smaller non-negative amount does not overflow. -/
theorem toInt_sub_of_le {a b : Int32} (hb : 0 ≤ b.toInt) (hle : b.toInt ≤ a.toInt) :
    (a - b).toInt = a.toInt - b.toInt := by
  have := a.toInt_lt
  have := a.le_toInt
  rw [Int32.toInt_sub, Int.bmod_eq_of_le] <;> omega

theorem tradedQty_pos (hb : 0 < buy.quantity) (hs : 0 < sell.quantity) :
    0 < (tradedQty buy sell).toInt := by
  have := toInt_pos.mp hb
  have := toInt_pos.mp hs
  rw [tradedQty_toInt]
  omega

/-- Neither subtraction of the loop overflows on positive quantities. -/
theorem tradedQty_sub (hb : 0 < buy.quantity) (hs : 0 < sell.quantity) :
    (buy.quantity - tradedQty buy sell).toInt =
        buy.quantity.toInt - (tradedQty buy sell).toInt ∧
      (sell.quantity - tradedQty buy sell).toInt =
        sell.quantity.toInt - (tradedQty buy sell).toInt := by
  have hq := tradedQty_pos hb hs
  have he := tradedQty_toInt buy sell
  exact ⟨toInt_sub_of_le (by omega) (by omega), toInt_sub_of_le (by omega) (by omega)⟩

theorem toUInt32_toNat {q : Int32} (h : 0 ≤ q.toInt) : (q.toUInt32.toNat : Int) = q.toInt := by
  have hlt := q.toInt_lt
  have hb : q.toInt = q.toBitVec.toInt := rfl
  have hn : q.toUInt32.toNat = q.toBitVec.toNat := rfl
  rw [hb] at h ⊢
  rw [hn, BitVec.toInt_eq_toNat_cond] at *
  split at h <;> omega

/-- The event carries the traded quantity. -/
theorem tradeEvent_qty (n : Nat) (t2 : Int64) (hb : 0 < buy.quantity) (hs : 0 < sell.quantity) :
    ((tradeEvent n t2 buy sell).qty.toNat : Int) = (tradedQty buy sell).toInt :=
  toUInt32_toNat (Int.le_of_lt (tradedQty_pos hb hs))

end TradedQty

/-! ## What rests of an order and what was filled of it -/

/-- The resting quantity of the orders of `l` with sequence number `seq`. -/
def restingQty (l : List (Order P)) (seq : Nat) : Int :=
  (l.map fun r => if r.seqNo = seq then r.quantity.toInt else 0).sum

/-- The quantity of the order `seq` that rests on the book, `0` where it is gone. -/
def remaining (book : OrderBook P) (seq : Nat) : Int := restingQty book.orders seq

/-- The sum of the `qty` fields of the events with the order `seq` on either side. -/
def filled (fills : List (Fill P)) (seq : Nat) : Int :=
  (fills.map fun f =>
    if f.buy.seqNo = seq ∨ f.sell.seqNo = seq then (f.event.qty.toNat : Int) else 0).sum

@[simp] theorem restingQty_nil (seq : Nat) : restingQty ([] : List (Order P)) seq = 0 := rfl

@[simp] theorem restingQty_cons (o : Order P) (l : List (Order P)) (seq : Nat) :
    restingQty (o :: l) seq =
      (if o.seqNo = seq then o.quantity.toInt else 0) + restingQty l seq := by
  simp [restingQty]

@[simp] theorem restingQty_append (l l' : List (Order P)) (seq : Nat) :
    restingQty (l ++ l') seq = restingQty l seq + restingQty l' seq := by
  simp [restingQty]

theorem restingQty_perm {l l' : List (Order P)} (h : l.Perm l') (seq : Nat) :
    restingQty l seq = restingQty l' seq :=
  (h.map _).sum_eq

@[simp] theorem filled_nil (seq : Nat) : filled ([] : List (Fill P)) seq = 0 := rfl

@[simp] theorem filled_cons (f : Fill P) (fs : List (Fill P)) (seq : Nat) :
    filled (f :: fs) seq =
      (if f.buy.seqNo = seq ∨ f.sell.seqNo = seq then (f.event.qty.toNat : Int) else 0) +
        filled fs seq := by
  simp [filled]

@[simp] theorem filled_append (fs gs : List (Fill P)) (seq : Nat) :
    filled (fs ++ gs) seq = filled fs seq + filled gs seq := by
  simp [filled]

theorem restingQty_of_not_mem {l : List (Order P)} {seq : Nat} (h : seq ∉ l.map Order.seqNo) :
    restingQty l seq = 0 := by
  induction l with
  | nil => rfl
  | cons o l ih =>
    simp only [List.map_cons, List.mem_cons, not_or] at h
    rw [restingQty_cons, if_neg (Ne.symm h.1), ih h.2, Int.zero_add]

theorem restingQty_pos_of_mem {l : List (Order P)} (hpos : ∀ r ∈ l, 0 < r.quantity) {seq : Nat}
    (h : seq ∈ l.map Order.seqNo) : 0 < restingQty l seq := by
  induction l with
  | nil => simp at h
  | cons o l ih =>
    have ho := toInt_pos.mp (hpos o (by simp))
    have hl : 0 ≤ restingQty l seq := by
      by_cases hm : seq ∈ l.map Order.seqNo
      · exact Int.le_of_lt (ih (fun r hr => hpos r (by simp [hr])) hm)
      · exact Int.le_of_eq (restingQty_of_not_mem hm).symm
    rw [restingQty_cons]
    by_cases hseq : o.seqNo = seq
    · rw [if_pos hseq]
      omega
    · have hm : seq ∈ l.map Order.seqNo := by
        simpa [Ne.symm hseq] using h
      have := ih (fun r hr => hpos r (by simp [hr])) hm
      rw [if_neg hseq]
      omega

/-! ## One trade -/

/-- The resting orders have positive quantities and distinct sequence numbers. -/
structure Countable (l : List (Order P)) : Prop where
  positive : ∀ r ∈ l, 0 < r.quantity
  distinct : (l.map Order.seqNo).Nodup

theorem Countable.perm {l l' : List (Order P)} (h : Countable l) (hp : l.Perm l') :
    Countable l' where
  positive r hr := h.positive r (hp.mem_iff.mpr hr)
  distinct := (hp.map _).nodup_iff.mp h.distinct

/-- A fill of positive quantity between two orders, by subtractions that do not overflow. -/
structure SoundFill (f : Fill P) : Prop where
  qty_pos : 1 ≤ f.event.qty.toNat
  buy_sub : (f.buy.quantity - f.qty).toInt = f.buy.quantity.toInt - f.qty.toInt
  sell_sub : (f.sell.quantity - f.qty).toInt = f.sell.quantity.toInt - f.qty.toInt

theorem afterFill_seqNo (o : Order P) (q : Int32) (rest : Level P) :
    List.Sublist ((afterFill o q rest).map Order.seqNo) (o.seqNo :: rest.map Order.seqNo) := by
  unfold afterFill
  split
  · exact List.sublist_cons_self _ _
  · exact List.Sublist.refl _

/-- Filling `q` of the front order takes `q` off what rests of it. -/
theorem restingQty_afterFill {o : Order P} {q : Int32} (rest : Level P) (seq : Nat)
    (hsub : (o.quantity - q).toInt = o.quantity.toInt - q.toInt) :
    restingQty (afterFill o q rest) seq + (if o.seqNo = seq then q.toInt else 0) =
      restingQty (o :: rest) seq := by
  unfold afterFill
  by_cases hz : o.quantity - q = 0
  · have : o.quantity.toInt - q.toInt = 0 := by rw [← hsub, hz]; rfl
    rw [if_pos hz, restingQty_cons]
    split <;> omega
  · rw [if_neg hz, restingQty_cons, restingQty_cons, reduce_seqNo, reduce_quantity, hsub]
    split <;> omega

theorem afterFill_positive {o : Order P} {q : Int32} {rest : Level P}
    (hrest : ∀ r ∈ rest, 0 < r.quantity) (hle : 0 ≤ (o.quantity - q).toInt) :
    ∀ r ∈ afterFill o q rest, 0 < r.quantity := by
  intro r hr
  unfold afterFill at hr
  split at hr
  · exact hrest r hr
  · rename_i hz
    rcases List.mem_cons.mp hr with rfl | hr
    · have hne : (o.quantity - q).toInt ≠ 0 := fun h => hz (Int32.toInt_inj.mp h)
      exact toInt_pos.mpr (by rw [reduce_quantity]; omega)
    · exact hrest r hr

section Trade
variable [LT P] {clock : Nat → Int64} {e e' : MatchingEngine P} {f : Fill P}

/-- A trade between orders of positive quantity leaves positive quantities. -/
theorem TradeStep.positive (h : TradeStep clock e e' f)
    (hpos : ∀ r ∈ e.book.orders, 0 < r.quantity) :
    (∀ r ∈ e'.book.orders, 0 < r.quantity) ∧ SoundFill f := by
  obtain ⟨bs, hb, hb'⟩ := h.resting_buy
  obtain ⟨ss, hs, hs'⟩ := h.resting_sell
  simp only [OrderBook.orders, hb, hs] at hpos
  have hbuy : 0 < f.buy.quantity := hpos _ (by simp)
  have hsell : 0 < f.sell.quantity := hpos _ (by simp)
  have hqty : (f.event.qty.toNat : Int) = f.qty.toInt := by
    rw [h.event_eq.1]
    exact tradeEvent_qty _ _ hbuy hsell
  have hq : 0 < f.qty.toInt := tradedQty_pos hbuy hsell
  have hmin : f.qty.toInt = _ := tradedQty_toInt f.buy f.sell
  obtain ⟨hsubB, hsubS⟩ := tradedQty_sub hbuy hsell
  refine ⟨fun r hr => ?_, by omega, hsubB, hsubS⟩
  simp only [OrderBook.orders, hb', hs', List.mem_append] at hr
  rcases hr with hr | hr
  · refine afterFill_positive (fun r hr => hpos r (by simp [hr])) ?_ r hr
    rw [Fill.qty, hsubB]
    change 0 ≤ f.buy.quantity.toInt - f.qty.toInt
    omega
  · refine afterFill_positive (fun r hr => hpos r (by simp [hr])) ?_ r hr
    rw [Fill.qty, hsubS]
    change 0 ≤ f.sell.quantity.toInt - f.qty.toInt
    omega

/-- **A trade moves quantity from the book to the events**, and keeps the book countable. -/
theorem TradeStep.moves (h : TradeStep clock e e' f) (hc : Countable e.book.orders) :
    Countable e'.book.orders ∧ SoundFill f ∧
      (∀ seq, remaining e.book seq = remaining e'.book seq + filled [f] seq) ∧
      List.Sublist (e'.book.orders.map Order.seqNo) (e.book.orders.map Order.seqNo) := by
  obtain ⟨hpos', hsound⟩ := h.positive hc.positive
  obtain ⟨bs, hb, hb'⟩ := h.resting_buy
  obtain ⟨ss, hs, hs'⟩ := h.resting_sell
  have hords : e.book.orders = (f.buy :: bs) ++ (f.sell :: ss) := by
    simp only [OrderBook.orders, hb, hs]
  have hords' : e'.book.orders = afterFill f.buy f.qty bs ++ afterFill f.sell f.qty ss := by
    simp only [OrderBook.orders, hb', hs']
  rw [hords] at hc
  have hqty : (f.event.qty.toNat : Int) = f.qty.toInt := by
    rw [h.event_eq.1]
    exact tradeEvent_qty _ _ (hc.positive _ (by simp)) (hc.positive _ (by simp))
  have hsub : List.Sublist (e'.book.orders.map Order.seqNo)
      (((f.buy :: bs) ++ (f.sell :: ss)).map Order.seqNo) := by
    rw [hords', List.map_append, List.map_append]
    exact (afterFill_seqNo _ _ _).append (afterFill_seqNo _ _ _)
  have hne : f.buy.seqNo ≠ f.sell.seqNo := by
    have hd := hc.distinct
    simp only [List.map_append, List.map_cons, List.cons_append, List.nodup_cons,
      List.mem_append, List.mem_cons, not_or] at hd
    exact hd.1.2.1
  refine ⟨⟨hpos', hc.distinct.sublist hsub⟩, hsound, ?_, by rwa [hords]⟩
  intro seq
  have h₁ := restingQty_afterFill bs seq hsound.buy_sub
  have h₂ := restingQty_afterFill ss seq hsound.sell_sub
  rw [remaining, remaining, hords, hords', restingQty_append, restingQty_append, ← h₁, ← h₂,
    filled_cons, filled_nil, hqty]
  by_cases hbq : f.buy.seqNo = seq
  · have hsq : f.sell.seqNo ≠ seq := fun h => hne (hbq.trans h.symm)
    simp only [hbq, hsq, ↓reduceIte, true_or]
    omega
  · by_cases hsq : f.sell.seqNo = seq
    · simp only [hbq, hsq, ↓reduceIte, or_true]
      omega
    · simp only [hbq, hsq, ↓reduceIte, or_self]
      omega

end Trade

/-! ## The loop and whole runs -/

/-- The state of the account of every submitted order. -/
structure Conserved (past : List (Order P)) (fills : List (Fill P)) (e : MatchingEngine P) :
    Prop where
  countable : Countable e.book.orders
  submitted : ∀ r ∈ e.book.orders, r.seqNo ∈ past.map Order.seqNo
  sound : ∀ f ∈ fills, SoundFill f
  foreign : ∀ seq ∉ past.map Order.seqNo, filled fills seq = 0
  account : ∀ o ∈ past, o.quantity.toInt = remaining e.book o.seqNo + filled fills o.seqNo

theorem conserved_init : Conserved [] [] (MatchingEngine.init : MatchingEngine P) where
  countable := ⟨by simp, by simp⟩
  submitted := by simp
  sound := by simp
  foreign := by simp
  account := by simp

theorem Conserved.not_resting {past : List (Order P)} {fills : List (Fill P)}
    {e : MatchingEngine P} (h : Conserved past fills e) {seq : Nat}
    (hseq : seq ∉ past.map Order.seqNo) : seq ∉ e.book.orders.map Order.seqNo := by
  intro hm
  obtain ⟨r, hr, rfl⟩ := List.mem_map.mp hm
  exact hseq (h.submitted r hr)

section Run
variable [LT P] [DecidableLT P] {clock : Nat → Int64} {e e' : MatchingEngine P}

theorem Matches.moves {fs : List (Fill P)} (h : Matches clock e fs e')
    (hc : Countable e.book.orders) :
    Countable e'.book.orders ∧ (∀ f ∈ fs, SoundFill f) ∧
      (∀ seq, remaining e.book seq = remaining e'.book seq + filled fs seq) ∧
      List.Sublist (e'.book.orders.map Order.seqNo) (e.book.orders.map Order.seqNo) := by
  induction h with
  | exit _ => exact ⟨hc, by simp, by simp, List.Sublist.refl _⟩
  | emptyLevel hs _ ih =>
    have he := orders_emptyLevel hs
    simpa only [remaining, he] using ih (he ▸ hc)
  | @trade e e' e'' f fs ht _ ih =>
    obtain ⟨hc', hgood, hmove, hsub⟩ := ht.moves hc
    obtain ⟨hc'', hgood', hmove', hsub'⟩ := ih hc'
    refine ⟨hc'', by simpa using ⟨hgood, hgood'⟩, fun seq => ?_, hsub'.trans hsub⟩
    rw [hmove seq, hmove' seq, filled_cons, filled_cons, filled_nil]
    omega

theorem remaining_push (book : OrderBook P) (o : Order P) (seq : Nat) :
    remaining (book.push o) seq =
      (if o.seqNo = seq then o.quantity.toInt else 0) + remaining book seq := by
  rw [remaining, restingQty_perm (push_orders book o), restingQty_cons]
  rfl

/-- What `addOrder` moves, seen from the book before the push. -/
theorem addOrder_moves {o : Order P} (hc : Countable e.book.orders) (hpos : 0 < o.quantity)
    (hnew : o.seqNo ∉ e.book.orders.map Order.seqNo) :
    Countable (addOrder clock e o).1.book.orders ∧
      (∀ f ∈ (addOrder clock e o).2, SoundFill f) ∧
      (∀ seq, (if o.seqNo = seq then o.quantity.toInt else 0) + remaining e.book seq =
        remaining (addOrder clock e o).1.book seq + filled (addOrder clock e o).2 seq) ∧
      ∀ r ∈ (addOrder clock e o).1.book.orders,
        r.seqNo = o.seqNo ∨ r.seqNo ∈ e.book.orders.map Order.seqNo := by
  have hperm := push_orders e.book o
  have hpush : Countable (e.book.push o).orders := by
    refine Countable.perm ⟨?_, ?_⟩ hperm.symm
    · simpa using ⟨hpos, hc.positive⟩
    · simpa using ⟨by simpa using hnew, hc.distinct⟩
  obtain ⟨hc', hsound, hmove, hsub⟩ :=
    (matching_matches clock { e with book := e.book.push o }).moves hpush
  refine ⟨hc', hsound, fun seq => ?_, fun r hr => ?_⟩
  · rw [← remaining_push]
    exact hmove seq
  · have hm := hsub.subset (List.mem_map_of_mem (f := Order.seqNo) hr)
    rw [(hperm.map _).mem_iff] at hm
    simpa only [List.map_cons, List.mem_cons] using hm

/-- One `addOrder` of a new order of positive quantity. -/
theorem conserved_addOrder {past : List (Order P)} {fills : List (Fill P)}
    (h : Conserved past fills e) {o : Order P} (hpos : 0 < o.quantity)
    (hnew : o.seqNo ∉ past.map Order.seqNo) :
    Conserved (past ++ [o]) (fills ++ (addOrder clock e o).2) (addOrder clock e o).1 := by
  have hnotin := h.not_resting hnew
  obtain ⟨hc, hsound, hacc, hrest⟩ := addOrder_moves h.countable hpos hnotin
  have hpast : ∀ seq, seq ∈ (past ++ [o]).map Order.seqNo ↔
      seq ∈ past.map Order.seqNo ∨ seq = o.seqNo := by simp
  have hsubmitted : ∀ r ∈ (addOrder clock e o).1.book.orders,
      r.seqNo ∈ (past ++ [o]).map Order.seqNo := by
    intro r hr
    rw [hpast]
    rcases hrest r hr with hr | hr
    · exact Or.inr hr
    · obtain ⟨r', hr', heq⟩ := List.mem_map.mp hr
      exact Or.inl (heq ▸ h.submitted r' hr')
  refine ⟨hc, hsubmitted, ?_, ?_, ?_⟩
  · intro f hf
    rcases List.mem_append.mp hf with hf | hf
    · exact h.sound f hf
    · exact hsound f hf
  · intro seq hseq
    have h₂ : remaining (addOrder clock e o).1.book seq = 0 := restingQty_of_not_mem fun hm => by
      obtain ⟨r, hr, rfl⟩ := List.mem_map.mp hm
      exact hseq (hsubmitted r hr)
    rw [hpast, not_or] at hseq
    have h₁ : remaining e.book seq = 0 := restingQty_of_not_mem (h.not_resting hseq.1)
    have hnone := hacc seq
    rw [h₁, h₂, if_neg (Ne.symm hseq.2)] at hnone
    rw [filled_append, h.foreign seq hseq.1]
    omega
  · intro r hr
    have ha := hacc r.seqNo
    rw [filled_append]
    rcases List.mem_append.mp hr with hr | hr
    · have hne : o.seqNo ≠ r.seqNo := fun heq =>
        hnew (heq ▸ List.mem_map_of_mem hr)
      have haccount := h.account r hr
      rw [if_neg hne] at ha
      omega
    · obtain rfl := List.mem_singleton.mp hr
      have h₁ : remaining e.book r.seqNo = 0 := restingQty_of_not_mem hnotin
      rw [if_pos rfl, h₁] at ha
      have hforeign := h.foreign _ hnew
      omega

/-- A submission the engine is given: a positive quantity and a new sequence number. -/
def NewOrder (past : List (Order P)) (_ : MatchingEngine P) (o : Order P) : Prop :=
  0 < o.quantity ∧ o.seqNo ∉ past.map Order.seqNo

theorem guarded_newOrder {past orders : List (Order P)} (hpos : ∀ o ∈ orders, 0 < o.quantity)
    (hseq : ((past ++ orders).map Order.seqNo).Nodup) :
    Guarded (addOrder clock) NewOrder past e orders := by
  induction orders generalizing past e with
  | nil => trivial
  | cons o orders ih =>
    refine ⟨⟨hpos o (by simp), fun hm => ?_⟩, ih (fun r hr => hpos r (by simp [hr])) ?_⟩
    · rw [List.map_append] at hseq
      exact (List.nodup_append.mp hseq).2.2 _ hm _ (by simp) rfl
    · simpa using hseq

/-- **Quantity conservation.** Between any two calls, what was submitted of an
order is what rests of it plus what its events traded; every event has a
quantity of at least one; the order rests exactly while something of it is
unfilled; and no subtraction of `matching` overflows. -/
theorem quantity_conservation (clock : Nat → Int64) (orders : List (Order P))
    (hpos : ∀ o ∈ orders, 0 < o.quantity) (hseq : (orders.map Order.seqNo).Nodup) :
    let book := (run (addOrder clock) MatchingEngine.init orders).1.book
    let fills := outputs (addOrder clock) MatchingEngine.init orders
    (∀ o ∈ orders, o.quantity.toInt = remaining book o.seqNo + filled fills o.seqNo ∧
      ((∃ r ∈ book.orders, r.seqNo = o.seqNo) ↔ filled fills o.seqNo < o.quantity.toInt)) ∧
    (book.orders.map Order.seqNo).Nodup ∧
    (∀ f ∈ fills, 1 ≤ f.event.qty.toNat ∧
      (f.buy.quantity - f.qty).toInt = f.buy.quantity.toInt - f.qty.toInt ∧
      (f.sell.quantity - f.qty).toInt = f.sell.quantity.toInt - f.qty.toInt) := by
  intro book fills
  have hnew : Guarded (addOrder clock) NewOrder [] MatchingEngine.init orders :=
    guarded_newOrder hpos (by simpa using hseq)
  have h : Conserved orders fills (run (addOrder clock) MatchingEngine.init orders).1 :=
    invariant_run Conserved
      (fun past out e o hc hok => conserved_addOrder hc hok.1 hok.2) conserved_init hnew
  refine ⟨fun o ho => ⟨h.account o ho, ?_⟩, h.countable.distinct,
    fun f hf => ⟨(h.sound f hf).qty_pos, (h.sound f hf).buy_sub, (h.sound f hf).sell_sub⟩⟩
  have hacc := h.account o ho
  have hrest : (∃ r ∈ book.orders, r.seqNo = o.seqNo) ↔ 0 < remaining book o.seqNo := by
    constructor
    · rintro ⟨r, hr, heq⟩
      exact restingQty_pos_of_mem h.countable.positive (heq ▸ List.mem_map_of_mem hr)
    · intro hrem
      by_contra hnone
      have : remaining book o.seqNo = 0 := restingQty_of_not_mem fun hm =>
        hnone (List.mem_map.mp hm)
      omega
  rw [hrest]
  change _ = remaining book o.seqNo + _ at hacc
  omega

end Run

/-- Two resting sells under one id, and a buy that fills one and part of the other. -/
def sweepOrders : List (Order Int) :=
  [⟨7, 5, false, 10, 1, 2, 0⟩, ⟨7, 5, false, 11, 1, 2, 1⟩, ⟨3, 8, true, 11, 1, 2, 2⟩]

/-- The second sell is hit for three of its five. -/
theorem sweepOrders_conserved :
    remaining (run (addOrder fun _ => 9) MatchingEngine.init sweepOrders).1.book 1 +
      filled (outputs (addOrder fun _ => 9) MatchingEngine.init sweepOrders) 1 = 5 :=
  ((quantity_conservation (fun _ => 9) sweepOrders (by decide) (by decide)).1
    ⟨7, 5, false, 11, 1, 2, 1⟩ (by decide)).1.symm

end TradePlat.Engine
