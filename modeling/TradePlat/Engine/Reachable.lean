import TradePlat.Engine.Conservation
import TradePlat.Engine.Invariant

/-!
# Reachable states of the engine

The runs the engine is built for: every added order has a positive quantity, an
id that does not rest, and a sequence number above all earlier ones. `Reached`
is the invariant of these runs between two calls. It also describes the heads of
the loop of `matching` (`LoopHead`), and with it the branches of the source that
such a run never takes (`representation_invariant`).
-/

namespace TradePlat.Engine
open SortedMap Runs

variable {P : Type}

/-- The orders added by a list of calls. -/
def added (calls : List (Call P)) : List (Order P) :=
  calls.filterMap fun
    | .addOrder o => some o
    | .cancelOrder _ => none

@[simp] theorem added_append (calls more : List (Call P)) :
    added (calls ++ more) = added calls ++ added more := List.filterMap_append

@[simp] theorem added_addOrder (o : Order P) : added [.addOrder o] = [o] := rfl
@[simp] theorem added_cancelOrder (id : Int32) : added [(.cancelOrder id : Call P)] = [] := rfl

/-- What is promised of a call after the calls `past`. -/
def Admissible (past : List (Call P)) (e : MatchingEngine P) : Call P → Prop
  | .addOrder o =>
    0 < o.quantity ∧ (∀ r ∈ e.book.orders, r.orderId ≠ o.orderId) ∧
      ∀ r ∈ added past, r.seqNo < o.seqNo
  | .cancelOrder _ => True

instance (past : List (Call P)) (e : MatchingEngine P) : DecidablePred (Admissible past e)
  | .addOrder o =>
    inferInstanceAs (Decidable (0 < o.quantity ∧ (∀ r ∈ e.book.orders, r.orderId ≠ o.orderId) ∧
      ∀ r ∈ added past, r.seqNo < o.seqNo))
  | .cancelOrder _ => inferInstanceAs (Decidable True)

/-- Each level is in the order of arrival. -/
def OrderBook.Fifo (book : OrderBook P) : Prop :=
  ∀ b, ∀ l ∈ book.side b, l.2.Pairwise fun r s => r.seqNo < s.seqNo

/-! ## First in, first out -/

theorem afterFill_fifo {o : Order P} {q : Int32} {rest : Level P}
    (h : (o :: rest).Pairwise fun r s => r.seqNo < s.seqNo) :
    (afterFill o q rest).Pairwise fun r s => r.seqNo < s.seqNo := by
  obtain ⟨hfront, hrest⟩ := List.pairwise_cons.mp h
  unfold afterFill
  split
  · exact hrest
  · exact List.pairwise_cons.mpr ⟨hfront, hrest⟩

section Comparable
variable [LT P]

theorem TradeStep.fifo {clock : Nat → Int64} {e e' : MatchingEngine P} {f : Fill P}
    (h : TradeStep clock e e' f) (hf : e.book.Fifo) : e'.book.Fifo := by
  cases h with
  | @intro bid ask buy sell buyRest sellRest buys sells m n crosses =>
    intro b l hl
    cases b <;> simp only [OrderBook.side, mem_putLevel] at hl
    · rcases hl with ⟨rfl, -⟩ | hl
      · exact afterFill_fifo (hf false (ask, sell :: sellRest) List.mem_cons_self)
      · exact hf false l (List.mem_cons_of_mem _ hl)
    · rcases hl with ⟨rfl, -⟩ | hl
      · exact afterFill_fifo (hf true (bid, buy :: buyRest) List.mem_cons_self)
      · exact hf true l (List.mem_cons_of_mem _ hl)

variable [DecidableLT P]

theorem OrderBook.Fifo.push {book : OrderBook P} (hf : book.Fifo) {o : Order P}
    (hlast : ∀ r ∈ book.orders, r.seqNo < o.seqNo) : (book.push o).Fifo := by
  intro b l hl
  rcases Bool.eq_or_eq_not b o.isBuy with rfl | rfl
  · rw [push_side_own] at hl
    rcases mem_update hl with hl | rfl | ⟨v, hv, hlv, -⟩
    · exact hf _ l hl
    · simp
    · rw [hlv, List.pairwise_append]
      refine ⟨hf _ _ hv, by simp, fun r hr s hs => ?_⟩
      rw [List.mem_singleton.mp hs]
      exact hlast r (OrderBook.mem_orders.mpr ⟨_, OrderBook.mem_resting.mpr ⟨_, hv, hr⟩⟩)
  · rw [push_side_other] at hl
    exact hf _ l hl

end Comparable

variable [LinearOrder P]

theorem OrderBook.Fifo.cancelOrder {book : OrderBook P} (hf : book.Fifo) (hc : book.Consistent)
    (id : Int32) : (book.cancelOrder id).Fifo := by
  cases hm : book.orderMap id with
  | none => rwa [OrderBook.cancelOrder_untracked hm]
  | some loc =>
    obtain ⟨level, o, hfind, ho, -⟩ := hc.find_tracked hm
    obtain ⟨hown, hother, -⟩ :=
      OrderBook.cancelOrder_tracked hm hfind (List.getElem?_eq_some_iff.mp ho).1
    intro b l hl
    rcases Bool.eq_or_eq_not b loc.isBuy with rfl | rfl
    · rw [hown] at hl
      rcases mem_alter hl with hl | ⟨v, hv, hlv⟩
      · exact hf _ l hl
      · rw [(dropAt_eq_some.mp hlv).1]
        exact (hf _ _ hv).sublist (List.eraseIdx_sublist _ _)
    · rw [hother] at hl
      exact hf _ l hl

/-! ## Uncrossed books -/

/-- No order rests at a better price than the best level of its side. -/
theorem OrderBook.Levelled.best {book : OrderBook P} (hc : book.Levelled) {b : Bool}
    {l : P × Level P} (hl : l ∈ (book.side b).head?) {r : Order P} (hr : r ∈ book.resting b) :
    r.price = l.1 ∨ Before b l.1 r.price := by
  obtain ⟨l', hl', hrl⟩ := OrderBook.mem_resting.mp hr
  obtain ⟨rest, heq⟩ : ∃ rest, book.side b = l :: rest := List.head?_eq_some_iff.mp hl
  rw [(hc.own b l' hl' r hrl).1]
  rw [heq] at hl'
  rcases List.mem_cons.mp hl' with rfl | hl'
  · exact Or.inl rfl
  · have hs := hc.sorted b
    rw [heq] at hs
    exact Or.inr ((sorted_cons.mp hs).1 l' hl')

theorem OrderBook.Levelled.uncrossed_iff {book : OrderBook P} (hc : book.Levelled) :
    book.Uncrossed ↔
      ∀ b ∈ book.resting true, ∀ s ∈ book.resting false, b.price < s.price := by
  have front : ∀ {b : Bool} {l : P × Level P}, l ∈ (book.side b).head? →
      ∃ r ∈ book.resting b, r.price = l.1 := by
    intro b l hl
    have hmem := List.mem_of_head? hl
    obtain ⟨r, hr⟩ := List.exists_mem_of_ne_nil _ (hc.nonempty b l hmem)
    exact ⟨r, OrderBook.mem_resting.mpr ⟨l, hmem, hr⟩, (hc.own b l hmem r hr).1⟩
  constructor
  · intro h b hb s hs
    obtain ⟨lb, hlb, -⟩ := OrderBook.mem_resting.mp hb
    obtain ⟨ls, hls, -⟩ := OrderBook.mem_resting.mp hs
    obtain ⟨bid, hbid⟩ := Option.ne_none_iff_exists'.mp
      (mt List.head?_eq_none_iff.mp (List.ne_nil_of_mem hlb))
    obtain ⟨ask, hask⟩ := Option.ne_none_iff_exists'.mp
      (mt List.head?_eq_none_iff.mp (List.ne_nil_of_mem hls))
    have hlt : bid.1 < ask.1 := h bid hbid ask hask
    have hb' : b.price ≤ bid.1 := by
      rcases hc.best hbid hb with h | h
      · exact h.le
      · exact (before_true.mp h).le
    have hs' : ask.1 ≤ s.price := by
      rcases hc.best hask hs with h | h
      · exact h.ge
      · exact (before_false.mp h).le
    exact (hb'.trans_lt hlt).trans_le hs'
  · intro h bid hbid ask hask
    obtain ⟨b, hb, hbp⟩ := front (b := true) hbid
    obtain ⟨s, hs, hsp⟩ := front (b := false) hask
    rw [← hbp, ← hsp]
    exact h b hb s hs

/-! ## The invariant between two calls -/

/-- The state of the engine after the calls `past`. -/
structure Reached (past : List (Call P)) (e : MatchingEngine P) : Prop where
  consistent : e.book.Consistent
  fifo : e.book.Fifo
  positive : ∀ r ∈ e.book.orders, 0 < r.quantity
  submitted : ∀ r ∈ e.book.orders, ∃ o ∈ added past, o.Version r
  uncrossed : e.book.Uncrossed

theorem reached_init : Reached [] (MatchingEngine.init : MatchingEngine P) where
  consistent := OrderBook.Consistent.empty
  fifo b l hl := by cases b <;> cases hl
  positive := by simp
  submitted := by simp
  uncrossed b hb := by cases hb

/-- What holds at the head of every iteration of `matching`. -/
structure AtHead (book : OrderBook P) : Prop where
  consistent : book.Consistent
  fifo : book.Fifo
  positive : ∀ r ∈ book.orders, 0 < r.quantity

theorem TradeStep.atHead {clock : Nat → Int64} {e e' : MatchingEngine P} {f : Fill P}
    (h : TradeStep clock e e' f) (ha : AtHead e.book) : AtHead e'.book where
  consistent := h.consistent ha.consistent
  fifo := h.fifo ha.fifo
  positive := (h.positive ha.positive).1

theorem Reached.last {past : List (Call P)} {e : MatchingEngine P} (h : Reached past e)
    {o : Order P} (hok : Admissible past e (.addOrder o)) :
    ∀ r ∈ e.book.orders, r.seqNo < o.seqNo := by
  intro r hr
  obtain ⟨o', ho', hv⟩ := h.submitted r hr
  rw [hv.seqNo]
  exact hok.2.2 o' ho'

/-- The book that `matching` starts on. -/
theorem Reached.atHead_push {past : List (Call P)} {e : MatchingEngine P} (h : Reached past e)
    {o : Order P} (hok : Admissible past e (.addOrder o)) : AtHead (e.book.push o) where
  consistent := h.consistent.push hok.2.1
  fifo := h.fifo.push (h.last hok)
  positive r hr := by
    rcases List.mem_cons.mp ((push_orders e.book o).mem_iff.mp hr) with rfl | hr
    · exact hok.1
    · exact h.positive r hr

/-- **Every admissible call keeps the invariant.** -/
theorem Reached.call {past : List (Call P)} {e : MatchingEngine P} (h : Reached past e)
    (clock : Nat → Int64) (c : Call P) (hok : Admissible past e c) :
    Reached (past ++ [c]) (call clock e c).1 := by
  cases c with
  | addOrder o =>
    have hm := matching_matches clock { e with book := e.book.push o }
    have hhead := h.atHead_push hok
    obtain ⟨⟨hc, hf, hp⟩, -, -⟩ := hm.invariant (fun e => AtHead e.book)
      (fun _ => True) (fun _ _ _ ha _ ht => ⟨ht.atHead ha, trivial⟩)
      hhead.consistent.nonempty hhead
    refine ⟨hc, hf, hp, fun r hr => ?_, hm.uncrossed⟩
    obtain ⟨r', hr', hv⟩ := hm.origin.1 r hr
    rcases List.mem_cons.mp ((push_orders e.book o).mem_iff.mp hr') with rfl | hr'
    · exact ⟨r', by simp, hv⟩
    · obtain ⟨o', ho', hv'⟩ := h.submitted r' hr'
      exact ⟨o', by simp [ho'], hv'.trans hv⟩
  | cancelOrder id =>
    have hrest := h.consistent.resting_cancelOrder id
    have hside : ∀ b, ∀ r ∈ (e.book.cancelOrder id).resting b, r ∈ e.book.resting b := by
      intro b r hr
      rw [hrest] at hr
      exact List.mem_of_mem_filter hr
    have hmem : ∀ r ∈ (e.book.cancelOrder id).orders, r ∈ e.book.orders := by
      intro r hr
      obtain ⟨b, hb⟩ := OrderBook.mem_orders.mp hr
      exact OrderBook.mem_orders.mpr ⟨b, hside b r hb⟩
    have hc := h.consistent.cancelOrder id
    refine ⟨hc, h.fifo.cancelOrder h.consistent id,
      fun r hr => h.positive r (hmem r hr), fun r hr => ?_, ?_⟩
    · obtain ⟨o, ho, hv⟩ := h.submitted r (hmem r hr)
      exact ⟨o, by simp [ho], hv⟩
    · apply hc.uncrossed_iff.mpr
      intro b hb s hs
      exact h.consistent.uncrossed_iff.mp h.uncrossed b (hside _ _ hb) s (hside _ _ hs)

theorem reached_run (clock : Nat → Int64) {calls : List (Call P)}
    (h : Guarded (call clock) Admissible [] MatchingEngine.init calls) :
    Reached calls (run (call clock) MatchingEngine.init calls).1 :=
  invariant_run (fun past _ e => Reached past e)
    (fun _ _ _ c hr hok => hr.call clock c hok) reached_init h

/-! ## The branches never taken -/

/-- The engines at the head of an iteration, in a run of the loop of `matching` from `e`. -/
inductive LoopHead (clock : Nat → Int64) (e : MatchingEngine P) : MatchingEngine P → Prop
  | start : LoopHead clock e e
  | emptyLevel {e' e'' : MatchingEngine P} :
      LoopHead clock e e' → matchStep clock e' = .emptyLevel e'' → LoopHead clock e e''
  | trade {e' e'' : MatchingEngine P} {f : Fill P} :
      LoopHead clock e e' → matchStep clock e' = .trade e'' f → LoopHead clock e e''

theorem LoopHead.atHead {clock : Nat → Int64} {e e' : MatchingEngine P}
    (h : LoopHead clock e e') (ha : AtHead e.book) : AtHead e'.book := by
  induction h with
  | start => exact ha
  | emptyLevel _ hs ih => exact absurd hs (NoEmptyLevel.not_emptyLevel ih.consistent.nonempty _)
  | trade _ hs ih => exact (matchStep_trade hs).atHead ih

/-- **Representation invariant.** In every reachable state the locator and the
levels are in exact bijection, every order is in its own level on its own side,
no level is empty and each level is in the order of arrival. The same holds at
the head of every iteration of `matching`, so the branch for empty levels is
never taken; and the location recorded for an id always leads to a level and to
a position inside it. -/
theorem representation_invariant (clock : Nat → Int64) (calls : List (Call P))
    (h : Guarded (call clock) Admissible [] MatchingEngine.init calls) :
    let e := (run (call clock) MatchingEngine.init calls).1
    (e.book.Consistent ∧ e.book.Fifo) ∧
    (∀ o e', Admissible calls e (.addOrder o) →
      LoopHead clock { e with book := e.book.push o } e' →
        (e'.book.Consistent ∧ e'.book.Fifo) ∧
          ∀ e'', matchStep clock e' ≠ .emptyLevel e'') ∧
    ∀ id loc, e.book.orderMap id = some loc →
      ∃ level, find (Before loc.isBuy) loc.price (e.book.side loc.isBuy) = some level ∧
        loc.vectorIndex < level.length := by
  intro e
  have hr : Reached calls e := reached_run clock h
  refine ⟨⟨hr.consistent, hr.fifo⟩, fun o e' hok hhead => ?_, fun id loc hm => ?_⟩
  · have ha := hhead.atHead (hr.atHead_push hok)
    exact ⟨⟨ha.consistent, ha.fifo⟩, NoEmptyLevel.not_emptyLevel ha.consistent.nonempty⟩
  · obtain ⟨level, o, hf, ho, -⟩ := hr.consistent.find_tracked hm
    exact ⟨level, hf, (List.getElem?_eq_some_iff.mp ho).1⟩

/-- Three sells at one price, a buy that takes the first and part of the second,
a cancel of what is left of the second, and a resting buy. -/
def interleavedCalls : List (Call Int) :=
  [.addOrder ⟨1, 5, false, 10, 1, 2, 0⟩, .addOrder ⟨2, 5, false, 10, 1, 2, 1⟩,
    .addOrder ⟨3, 5, false, 10, 1, 2, 2⟩, .addOrder ⟨4, 7, true, 10, 1, 2, 3⟩,
    .cancelOrder 2, .addOrder ⟨2, 4, true, 9, 1, 2, 4⟩]

theorem interleavedCalls_consistent :
    (run (call fun _ => 9) MatchingEngine.init interleavedCalls).1.book.Consistent ∧
      (run (call fun _ => 9) MatchingEngine.init interleavedCalls).1.book.Fifo :=
  (representation_invariant (fun _ => 9) interleavedCalls (by decide)).1

end TradePlat.Engine
