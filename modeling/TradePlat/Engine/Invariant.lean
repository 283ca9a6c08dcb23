import TradePlat.Engine.Tracking

/-!
# The representation invariant of the order book

Prices come from a linear order here. `Levelled` says that the two side maps are
sorted, no level is empty, and every order rests on its own side in the level of
its own price; no `addOrder` breaks it. `Consistent` adds that `orderMap` records
exactly the positions of the resting orders. Adding an order whose id does not
rest keeps it, every iteration of `matching` keeps it, and cancelling keeps it
and removes the order with the given id and nothing else
(`resting_cancelOrder`). Quantities and sequence numbers are arbitrary in all of
this.
-/

namespace TradePlat.Engine
open SortedMap

variable {P : Type}

theorem own_putLevel {b : Bool} {k : P} {o : Order P} {q : Int32} {rest : Level P}
    {levels : Levels P}
    (hown : ∀ l ∈ (k, o :: rest) :: levels, ∀ r ∈ l.2, r.price = l.1 ∧ r.isBuy = b) :
    ∀ l ∈ putLevel k (afterFill o q rest) levels, ∀ r ∈ l.2, r.price = l.1 ∧ r.isBuy = b := by
  intro l hl r hr
  rcases mem_putLevel.mp hl with ⟨rfl, -⟩ | hl
  · have hfront := hown (k, o :: rest) (by simp)
    rcases mem_afterFill hr with rfl | hr
    · exact hfront o (by simp)
    · exact hfront r (by simp [hr])
  · exact hown l (by simp [hl]) r hr

/-- Removing the only order with its id from a list. -/
theorem filter_distinct {front back : List (Order P)} {o : Order P}
    (h : (front ++ o :: back).Pairwise fun r s => r.orderId ≠ s.orderId) :
    (front ++ o :: back).filter (fun r => r.orderId ≠ o.orderId) = front ++ back := by
  obtain ⟨-, hob, hfo⟩ := List.pairwise_append.mp h
  have hfront : ∀ r ∈ front, r.orderId ≠ o.orderId := fun r hr => hfo r hr o List.mem_cons_self
  have hback : ∀ r ∈ back, r.orderId ≠ o.orderId := fun r hr =>
    ((List.pairwise_cons.mp hob).1 r hr).symm
  rw [List.filter_append, List.filter_cons_of_neg (by simp), List.filter_eq_self.mpr,
    List.filter_eq_self.mpr]
  · simpa using hback
  · simpa using hfront

/-- A level after the order at `i` is erased. An empty level goes. -/
def dropAt (i : Nat) (level : Level P) : Option (Level P) :=
  if (level.eraseIdx i).isEmpty then none else some (level.eraseIdx i)

theorem dropAt_eq_some {i : Nat} {level level' : Level P} :
    dropAt i level = some level' ↔ level' = level.eraseIdx i ∧ level' ≠ [] := by
  unfold dropAt
  split
  · rename_i hempty
    rw [List.isEmpty_iff] at hempty
    simp [hempty]
  · rename_i hne
    rw [List.isEmpty_iff] at hne
    constructor
    · intro heq
      rw [← Option.some.inj heq]
      exact ⟨rfl, hne⟩
    · rintro ⟨rfl, -⟩
      rfl

theorem getD_dropAt (i : Nat) (level : Level P) : (dropAt i level).getD [] = level.eraseIdx i := by
  unfold dropAt
  split
  · rename_i hempty
    exact (List.isEmpty_iff.mp hempty).symm
  · rfl

variable [LinearOrder P]

namespace OrderBook

/-- The levels as a function of side and price, empty where there is no level. -/
def levelAt (book : OrderBook P) : LevelView P := fun b p =>
  (find (Before b) p (book.side b)).getD []

structure Levelled (book : OrderBook P) : Prop where
  sorted : ∀ b, Sorted (Before b) (book.side b)
  nonempty : book.NoEmptyLevel
  own : ∀ b, ∀ l ∈ book.side b, ∀ o ∈ l.2, o.price = l.1 ∧ o.isBuy = b

structure Consistent (book : OrderBook P) : Prop extends Levelled book where
  tracked : Tracks book.orderMap book.levelAt

theorem levelAt_of_mem {book : OrderBook P} {b : Bool} (hs : Sorted (Before b) (book.side b))
    {l : P × Level P} (hl : l ∈ book.side b) : book.levelAt b l.1 = l.2 := by
  simp [levelAt, find_of_mem hs hl]

theorem Levelled.empty : (OrderBook.empty : OrderBook P).Levelled where
  sorted b := by cases b <;> exact List.Pairwise.nil
  nonempty b l hl := by cases b <;> cases hl
  own b l hl := by cases b <;> cases hl

theorem Consistent.empty : (OrderBook.empty : OrderBook P).Consistent where
  toLevelled := Levelled.empty
  tracked id loc := by
    have hlevel : (OrderBook.empty : OrderBook P).levelAt loc.isBuy loc.price = [] := by
      cases hb : loc.isBuy <;> rfl
    have hmap : (OrderBook.empty : OrderBook P).orderMap id = none := rfl
    simp [slot, hlevel, hmap]

/-- Every resting order has its slot. -/
theorem Levelled.exists_slot {book : OrderBook P} (h : book.Levelled) {b : Bool}
    {l : P × Level P} {i : Nat} {o : Order P} (hl : l ∈ book.side b) (ho : l.2[i]? = some o) :
    slot book.levelAt ⟨b, l.1, i⟩ = some o := by
  rw [slot, levelAt_of_mem (h.sorted b) hl, ho]

theorem slot_mem_orders {book : OrderBook P} {loc : OrderLocation P} {o : Order P}
    (h : slot book.levelAt loc = some o) : o ∈ book.orders := by
  unfold slot levelAt at h
  cases hf : find (Before loc.isBuy) loc.price (book.side loc.isBuy) with
  | none => simp [hf] at h
  | some level =>
    obtain ⟨k, hk, -⟩ := find_mem hf
    rw [hf] at h
    exact mem_orders.mpr ⟨loc.isBuy, mem_resting.mpr ⟨(k, level), hk, List.mem_of_getElem? h⟩⟩

theorem Levelled.exists_slot_of_mem {book : OrderBook P} (h : book.Levelled) {b : Bool}
    {o : Order P} (ho : o ∈ book.resting b) :
    ∃ i, slot book.levelAt ⟨b, o.price, i⟩ = some o := by
  obtain ⟨l, hl, hol⟩ := mem_resting.mp ho
  obtain ⟨i, hi⟩ := List.mem_iff_getElem?.mp hol
  refine ⟨i, ?_⟩
  rw [(h.own b l hl o hol).1]
  exact h.exists_slot hl hi

/-- An id is tracked exactly while an order with it rests. -/
theorem Consistent.tracked_iff {book : OrderBook P} (h : book.Consistent) (id : Int32) :
    book.orderMap id ≠ none ↔ ∃ o ∈ book.orders, o.orderId = id := by
  constructor
  · intro hm
    obtain ⟨loc, hloc⟩ := Option.ne_none_iff_exists'.mp hm
    obtain ⟨o, ho, rfl⟩ := (h.tracked id loc).mp hloc
    exact ⟨o, slot_mem_orders ho, rfl⟩
  · rintro ⟨o, ho, rfl⟩ hnone
    obtain ⟨b, hb⟩ := mem_orders.mp ho
    obtain ⟨i, hi⟩ := h.exists_slot_of_mem hb
    have := (h.tracked o.orderId _).mpr ⟨o, hi, rfl⟩
    rw [hnone] at this
    cases this

/-- The resting orders have pairwise distinct ids. -/
theorem Consistent.distinct {book : OrderBook P} (h : book.Consistent) :
    book.orders.Pairwise fun r s => r.orderId ≠ s.orderId := by
  have hside : ∀ b, (book.resting b).Pairwise fun r s => r.orderId ≠ s.orderId := by
    intro b
    rw [resting, List.pairwise_flatMap]
    constructor
    · intro l hl
      have hnd := h.tracked.nodup b l.1
      rw [levelAt_of_mem (h.sorted b) hl] at hnd
      exact List.pairwise_map.mp hnd
    · apply (h.sorted b).imp_of_mem
      intro l l' hl hl' hlt r hr s hs heq
      obtain ⟨i, hi⟩ := List.mem_iff_getElem?.mp hr
      obtain ⟨j, hj⟩ := List.mem_iff_getElem?.mp hs
      have := h.tracked.unique (h.exists_slot hl hi) (h.exists_slot hl' hj) heq
      exact ne_of_before hlt (congrArg OrderLocation.price this)
  rw [orders, List.pairwise_append]
  refine ⟨hside true, hside false, fun r hr s hs heq => ?_⟩
  obtain ⟨i, hi⟩ := h.exists_slot_of_mem hr
  obtain ⟨j, hj⟩ := h.exists_slot_of_mem hs
  have := congrArg OrderLocation.isBuy (h.tracked.unique hi hj heq)
  cases this

/-! ## Adding an order -/

theorem levelAt_push {book : OrderBook P} (hs : Sorted (Before o.isBuy) (book.side o.isBuy)) :
    (book.push o).levelAt =
      setLevel book.levelAt o.isBuy o.price (book.levelAt o.isBuy o.price ++ [o]) := by
  funext b p
  rcases Bool.eq_or_eq_not b o.isBuy with rfl | rfl
  · simp only [levelAt, push_side_own, find_update hs, setLevel, true_and]
    by_cases hp : o.price = p
    · simp [hp]
    · simp [hp, Ne.symm hp]
  · rw [setLevel_other (by simp)]
    simp [levelAt]

theorem Levelled.push {book : OrderBook P} (h : book.Levelled) (o : Order P) :
    (book.push o).Levelled where
  sorted b := by
    rcases Bool.eq_or_eq_not b o.isBuy with rfl | rfl
    · rw [push_side_own]
      exact sorted_update (h.sorted _)
    · rw [push_side_other]
      exact h.sorted _
  nonempty := push_noEmptyLevel h.nonempty o
  own b l hl r hr := by
    rcases Bool.eq_or_eq_not b o.isBuy with rfl | rfl
    · rw [push_side_own] at hl
      rcases mem_update hl with hl | rfl | ⟨v, hv, hlv, hk, hk'⟩
      · exact h.own _ l hl r hr
      · simp only [List.nil_append, List.mem_singleton] at hr
        subst hr
        exact ⟨rfl, rfl⟩
      · rw [hlv, List.mem_append, List.mem_singleton] at hr
        rcases hr with hr | rfl
        · exact h.own _ _ hv r hr
        · exact ⟨(eq_of_incomparable hk hk').symm, rfl⟩
    · rw [push_side_other] at hl
      exact h.own _ l hl r hr

theorem Consistent.push {book : OrderBook P} (h : book.Consistent) {o : Order P}
    (hnew : ∀ r ∈ book.orders, r.orderId ≠ o.orderId) : (book.push o).Consistent where
  toLevelled := h.toLevelled.push o
  tracked := by
    have ht := tracks_push h.tracked o fun loc r hr => hnew r (slot_mem_orders hr)
    rw [levelAt_push (h.sorted _)]
    simpa [OrderBook.push, levelAt] using ht

end OrderBook

/-! ## One iteration of `matching` -/

theorem find_putLevel {b : Bool} {k p : P} {level level' : Level P} {levels : Levels P}
    (hs : Sorted (Before b) ((k, level') :: levels)) :
    (find (Before b) p (putLevel k level levels)).getD [] =
      if p = k then level else (find (Before b) p ((k, level') :: levels)).getD [] := by
  have hs' : Sorted (Before b) ((k, level) :: levels) :=
    sorted_cons.mpr ⟨(sorted_cons.mp hs).1, (sorted_cons.mp hs).2⟩
  rw [find_cons hs]
  unfold putLevel
  by_cases hempty : level.isEmpty
  · rw [if_pos hempty]
    by_cases hp : p = k
    · subst hp
      rw [if_pos rfl, find_of_before (sorted_cons.mp hs).1]
      simpa using (List.isEmpty_iff.mp hempty).symm
    · rw [if_neg hp, if_neg (Ne.symm hp)]
  · rw [if_neg hempty, find_cons hs']
    by_cases hp : p = k
    · subst hp
      simp
    · rw [if_neg (Ne.symm hp), if_neg hp, if_neg (Ne.symm hp)]

theorem sorted_putLevel {b : Bool} {k : P} {level level' : Level P} {levels : Levels P}
    (hs : Sorted (Before b) ((k, level') :: levels)) :
    Sorted (Before b) (putLevel k level levels) := by
  unfold putLevel
  split
  · exact (sorted_cons.mp hs).2
  · exact sorted_cons.mpr ⟨(sorted_cons.mp hs).1, (sorted_cons.mp hs).2⟩

section Trade
variable {clock : Nat → Int64} {e e' : MatchingEngine P} {f : Fill P}

theorem TradeStep.levelled (h : TradeStep clock e e' f) (hl : e.book.Levelled) :
    e'.book.Levelled := by
  have hne := h.noEmptyLevel hl.nonempty
  cases h with
  | @intro bid ask buy sell buyRest sellRest buys sells m n crosses =>
    refine ⟨fun b => ?_, hne, fun b => ?_⟩
    · cases b
      · exact sorted_putLevel (hl.sorted false)
      · exact sorted_putLevel (hl.sorted true)
    · cases b
      · exact own_putLevel (hl.own false)
      · exact own_putLevel (hl.own true)

/-- The orders of a trade accept each other's prices. -/
theorem TradeStep.crosses (h : TradeStep clock e e' f) (hl : e.book.Levelled) :
    f.sell.price ≤ f.buy.price := by
  cases h with
  | @intro bid ask buy sell buyRest sellRest buys sells m n crosses =>
    have hb := (hl.own true (bid, buy :: buyRest) List.mem_cons_self buy List.mem_cons_self).1
    have hs := (hl.own false (ask, sell :: sellRest) List.mem_cons_self sell List.mem_cons_self).1
    rw [hb, hs]
    exact not_lt.mp crosses

/-- **Every iteration keeps the book consistent.** -/
theorem TradeStep.consistent (h : TradeStep clock e e' f) (hc : e.book.Consistent) :
    e'.book.Consistent := by
  refine ⟨h.levelled hc.toLevelled, ?_⟩
  cases h with
  | @intro bid ask buy sell buyRest sellRest buys sells m n crosses =>
    have hsb := hc.sorted true
    have hss := hc.sorted false
    -- the buy side is consumed first, then the sell side of the result
    have hbuy : OrderBook.levelAt ⟨(bid, buy :: buyRest) :: buys,
        (ask, sell :: sellRest) :: sells, m⟩ true bid = buy :: buyRest :=
      OrderBook.levelAt_of_mem (l := (bid, buy :: buyRest)) hsb List.mem_cons_self
    have hsell : OrderBook.levelAt ⟨(bid, buy :: buyRest) :: buys,
        (ask, sell :: sellRest) :: sells, m⟩ false ask = sell :: sellRest :=
      OrderBook.levelAt_of_mem (l := (ask, sell :: sellRest)) hss List.mem_cons_self
    have ht := tracks_consumeFront hc.tracked hbuy (tradedQty buy sell)
    have ht' := tracks_consumeFront ht
      (show setLevel _ true bid _ false ask = sell :: sellRest by
        rw [setLevel_other (by simp), hsell]) (tradedQty buy sell)
    convert ht' using 1
    funext b p
    cases b
    · simp only [OrderBook.levelAt, OrderBook.side, setLevel]
      rw [find_putLevel hss]
      simp
    · simp only [OrderBook.levelAt, OrderBook.side, setLevel]
      rw [find_putLevel hsb]
      simp

theorem Matches.consistent {fs : List (Fill P)} (h : Matches clock e fs e')
    (hc : e.book.Consistent) : e'.book.Consistent := by
  induction h with
  | exit _ => exact hc
  | emptyLevel hs _ _ => exact absurd hs (NoEmptyLevel.not_emptyLevel hc.nonempty _)
  | trade ht _ ih => exact ih (ht.consistent hc)

end Trade

/-! ## Cancelling -/

namespace OrderBook

/-- The level found at a tracked location, and the order in it. -/
theorem Consistent.find_tracked {book : OrderBook P} (h : book.Consistent) {id : Int32}
    {loc : OrderLocation P} (hm : book.orderMap id = some loc) :
    ∃ level o, find (Before loc.isBuy) loc.price (book.side loc.isBuy) = some level ∧
      level[loc.vectorIndex]? = some o ∧ o.orderId = id := by
  obtain ⟨o, ho, hid⟩ := (h.tracked id loc).mp hm
  unfold slot levelAt at ho
  cases hf : find (Before loc.isBuy) loc.price (book.side loc.isBuy) with
  | none => simp [hf] at ho
  | some level => exact ⟨level, o, rfl, by simpa [hf] using ho, hid⟩

/-- What `cancelOrder` does to a tracked id: the order at its location is erased. -/
theorem cancelOrder_tracked {book : OrderBook P} {id : Int32} {loc : OrderLocation P}
    {level : Level P} (hm : book.orderMap id = some loc)
    (hf : find (Before loc.isBuy) loc.price (book.side loc.isBuy) = some level)
    (hlt : loc.vectorIndex < level.length) :
    (book.cancelOrder id).side loc.isBuy =
        alter (Before loc.isBuy) loc.price (dropAt loc.vectorIndex) (book.side loc.isBuy) ∧
      (book.cancelOrder id).side (!loc.isBuy) = book.side (!loc.isBuy) ∧
      (book.cancelOrder id).orderMap =
        (eraseAt (Function.update book.orderMap id none) level loc.vectorIndex).1 := by
  have hlevel : (eraseAt (Function.update book.orderMap id none) level loc.vectorIndex).2 =
      level.eraseIdx loc.vectorIndex := by
    rw [eraseAt, if_neg (by omega)]
  simp only [cancelOrder, hm, hf, hlevel]
  refine ⟨?_, by simp, trivial⟩
  rw [side_with_orderMap, side_setSide]
  exact alter_congr hf rfl

theorem cancelOrder_untracked {book : OrderBook P} {id : Int32} (h : book.orderMap id = none) :
    book.cancelOrder id = book := by
  simp [cancelOrder, h]

/-- Erasing an order keeps the levels in shape. -/
theorem Levelled.erase {book book' : OrderBook P} (h : book.Levelled) {b : Bool} {p : P} {i : Nat}
    (hown : book'.side b = alter (Before b) p (dropAt i) (book.side b))
    (hother : book'.side (!b) = book.side (!b)) : book'.Levelled := by
  have hmem : ∀ {b' l}, l ∈ book'.side b' → l ∈ book.side b' ∨
      ∃ level, (l.1, level) ∈ book.side b' ∧ l.2 = level.eraseIdx i ∧ l.2 ≠ [] := by
    intro b' l hl
    rcases Bool.eq_or_eq_not b' b with rfl | rfl
    · rw [hown] at hl
      rcases mem_alter hl with hl | ⟨level, hlevel, hdrop⟩
      · exact Or.inl hl
      · exact Or.inr ⟨level, hlevel, dropAt_eq_some.mp hdrop⟩
    · exact Or.inl (hother ▸ hl)
  refine ⟨fun b' => ?_, fun b' l hl => ?_, fun b' l hl r hr => ?_⟩
  · rcases Bool.eq_or_eq_not b' b with rfl | rfl
    · rw [hown]
      exact sorted_alter (h.sorted _)
    · rw [hother]
      exact h.sorted _
  · rcases hmem hl with hl | ⟨level, -, -, hne⟩
    · exact h.nonempty b' l hl
    · exact hne
  · rcases hmem hl with hl | ⟨level, hlevel, heq, -⟩
    · exact h.own b' l hl r hr
    · rw [heq] at hr
      exact h.own b' _ hlevel r (List.mem_of_mem_eraseIdx hr)

theorem levelAt_erase {book book' : OrderBook P} {b : Bool} {p : P} {i : Nat}
    (hs : Sorted (Before b) (book.side b))
    (hown : book'.side b = alter (Before b) p (dropAt i) (book.side b))
    (hother : book'.side (!b) = book.side (!b)) :
    book'.levelAt = setLevel book.levelAt b p ((book.levelAt b p).eraseIdx i) := by
  funext b' p'
  rcases Bool.eq_or_eq_not b' b with rfl | rfl
  · simp only [levelAt, hown, find_alter hs, setLevel, true_and]
    by_cases hp : p = p'
    · subst hp
      rw [if_pos rfl, if_pos rfl]
      cases find (Before b') p (book.side b') with
      | none => rfl
      | some level => exact getD_dropAt i level
    · rw [if_neg hp, if_neg (Ne.symm hp)]
  · rw [setLevel_other (by simp), levelAt, levelAt, hother]

theorem Consistent.cancelOrder {book : OrderBook P} (h : book.Consistent) (id : Int32) :
    (book.cancelOrder id).Consistent := by
  cases hm : book.orderMap id with
  | none => rwa [cancelOrder_untracked hm]
  | some loc =>
    obtain ⟨level, o, hf, ho, rfl⟩ := h.find_tracked hm
    obtain ⟨hown, hother, hmap⟩ :=
      cancelOrder_tracked hm hf (List.getElem?_eq_some_iff.mp ho).1
    have hlevel : book.levelAt loc.isBuy loc.price = level := by simp [levelAt, hf]
    have hslot : slot book.levelAt loc = some o := by rw [slot, hlevel, ho]
    have ht := tracks_erase h.tracked hslot
    rw [hlevel, ← hmap] at ht
    refine ⟨h.toLevelled.erase hown hother, ?_⟩
    rw [levelAt_erase (h.sorted _) hown hother, hlevel]
    exact ht

/-- **Cancelling removes the order with the given id, and nothing else.** -/
theorem Consistent.resting_cancelOrder {book : OrderBook P} (h : book.Consistent) (id : Int32)
    (b : Bool) :
    (book.cancelOrder id).resting b = (book.resting b).filter fun r => r.orderId ≠ id := by
  cases hm : book.orderMap id with
  | none =>
    rw [cancelOrder_untracked hm, List.filter_eq_self.mpr]
    intro r hr
    have hnot := mt (h.tracked_iff id).mpr (by simpa using hm)
    simpa using fun heq => hnot ⟨r, mem_orders.mpr ⟨b, hr⟩, heq⟩
  | some loc =>
    obtain ⟨level, o, hf, ho, rfl⟩ := h.find_tracked hm
    obtain ⟨hlt, rfl⟩ := List.getElem?_eq_some_iff.mp ho
    obtain ⟨hown, hother, -⟩ := cancelOrder_tracked hm hf hlt
    obtain ⟨pre, k, post, hsplit, halter⟩ := alter_split
      (dropAt loc.vectorIndex) hf
    -- the side is one list around the erased order
    have hlevel : level = level.take loc.vectorIndex ++
        level[loc.vectorIndex] :: level.drop (loc.vectorIndex + 1) := by
      rw [List.getElem_cons_drop, List.take_append_drop]
    have hresting : book.resting loc.isBuy =
        (pre.flatMap Prod.snd ++ level.take loc.vectorIndex) ++ level[loc.vectorIndex] ::
          (level.drop (loc.vectorIndex + 1) ++ post.flatMap Prod.snd) := by
      rw [resting, hsplit, List.flatMap_append, List.flatMap_cons]
      dsimp only
      conv_lhs => rw [hlevel]
      simp only [List.append_assoc, List.cons_append]
    have hdistinct := (h.distinct.perm (orders_perm book loc.isBuy)
      (fun hne => hne.symm)) |> List.pairwise_append.mp
    rcases Bool.eq_or_eq_not b loc.isBuy with rfl | rfl
    · have hpair := hdistinct.1
      rw [hresting] at hpair ⊢
      rw [filter_distinct hpair, resting, hown, halter, List.flatMap_append]
      have hdrop := getD_dropAt loc.vectorIndex level
      rw [List.eraseIdx_eq_take_drop_succ] at hdrop
      rw [List.append_assoc, ← List.append_assoc (level.take _), ← hdrop]
      cases dropAt loc.vectorIndex level <;> rfl
    · have hmem : level[loc.vectorIndex] ∈ book.resting loc.isBuy := by
        rw [hresting]
        simp
      rw [resting, hother, ← resting, List.filter_eq_self.mpr]
      intro r hr
      simpa using (hdistinct.2.2 _ hmem r hr).symm

end OrderBook

end TradePlat.Engine
