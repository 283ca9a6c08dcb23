import Mathlib.Logic.Relation
import Mathlib.Order.WellFounded
import TradePlat.Engine.MatchLoop

/-!
# The loop of `matching` ends

`quantity` reaches the loop as it came off the wire, so what is left to trade is
no measure: a minimum of zero trades nothing, and a negative one adds to the
other side. What every iteration does lower is the number of levels and resting
orders. `Iterates` is an iteration that goes on to the next, on any book at all:
crossed, with empty levels, with ids used twice and a tracking map that points
nowhere. `iterates_wellFounded` says it cannot go on forever.
-/

namespace TradePlat.Engine

variable {P : Type} [LT P] [DecidableLT P] {clock : Nat → Int64} {e e' : MatchingEngine P}

/-- An iteration of the loop that does not leave it: `continue`, or a trade. -/
def Iterates (clock : Nat → Int64) (e e' : MatchingEngine P) : Prop :=
  matchStep clock e = .emptyLevel e' ∨ ∃ f, matchStep clock e = .trade e' f

theorem Iterates.size (h : Iterates clock e e') : e'.book.size < e.book.size := by
  rcases h with h | ⟨f, h⟩
  · exact size_emptyLevel h
  · exact size_trade (matchStep_trade h)

theorem iterates_wellFounded (clock : Nat → Int64) :
    WellFounded fun e' e : MatchingEngine P => Iterates clock e e' :=
  Subrelation.wf Iterates.size (measure fun e : MatchingEngine P => e.book.size).wf

/-- The loop has no infinite run, from any book. -/
theorem no_infinite_run (clock : Nat → Int64) (run : Nat → MatchingEngine P) :
    ¬ ∀ n, Iterates clock (run n) (run (n + 1)) := by
  intro hrun
  have hwf : IsWellFounded (MatchingEngine P) fun e' e => Iterates clock e e' :=
    ⟨iterates_wellFounded clock⟩
  obtain ⟨n, hn⟩ := WellFounded.not_rel_apply_succ run (h := hwf)
  exact hn (hrun n)

/-- Fuel above the size of the book is not used up: more of it changes nothing. -/
theorem matchLoop_fuel {fuel fuel' : Nat} {e : MatchingEngine P} (h : e.book.size < fuel)
    (h' : e.book.size < fuel') : matchLoop clock fuel e = matchLoop clock fuel' e := by
  induction fuel generalizing e fuel' with
  | zero => omega
  | succ fuel ih =>
    obtain ⟨fuel', rfl⟩ : ∃ k, fuel' = k + 1 := ⟨fuel' - 1, by omega⟩
    unfold matchLoop
    cases hs : matchStep clock e with
    | exit => rfl
    | emptyLevel e' =>
      have hsize := size_emptyLevel hs
      exact ih (by omega) (by omega)
    | trade e' f =>
      have hsize := size_trade (matchStep_trade hs)
      have heq : matchLoop clock fuel e' = matchLoop clock fuel' e' := ih (by omega) (by omega)
      simp only [heq]

theorem matchLoop_iterates (fuel : Nat) (e : MatchingEngine P) :
    Relation.ReflTransGen (Iterates clock) e (matchLoop clock fuel e).1 := by
  induction fuel generalizing e with
  | zero => exact .refl
  | succ fuel ih =>
    unfold matchLoop
    cases hs : matchStep clock e with
    | exit => exact .refl
    | emptyLevel e' => exact .head (Or.inl hs) (ih e')
    | trade e' f => exact .head (Or.inr ⟨f, hs⟩) (ih e')

/-- Every fill of the loop has taken an order off the book. -/
theorem Matches.length_le {fs : List (Fill P)} (h : Matches clock e fs e') :
    fs.length + e'.book.orders.length ≤ e.book.orders.length := by
  induction h with
  | exit _ => simp
  | emptyLevel hs _ ih => rwa [orders_emptyLevel hs] at ih
  | trade ht _ ih =>
    have := orders_length_trade ht
    simp only [List.length_cons]
    omega

omit [DecidableLT P] in
/-- How the loop is left, spelled out on the two maps. -/
theorem uncrossed_iff {book : OrderBook P} :
    book.Uncrossed ↔ book.buyOrders = [] ∨ book.sellOrders = [] ∨
      ∃ bid buyVec buys ask sellVec sells, book.buyOrders = (bid, buyVec) :: buys ∧
        book.sellOrders = (ask, sellVec) :: sells ∧ bid < ask := by
  unfold OrderBook.Uncrossed
  rcases book.buyOrders with _ | ⟨⟨bid, buyVec⟩, buys⟩
  · simp
  rcases book.sellOrders with _ | ⟨⟨ask, sellVec⟩, sells⟩
  · simp
  simp

/-- **`matching` terminates on every book.** No run of its iterations is infinite;
the model's fuel is never what stops it; the iterations from the given book lead
to the one it leaves, with at most one event for each resting order, and there
one side is empty or the best bid is below the best ask. -/
theorem matching_terminates (clock : Nat → Int64) (e : MatchingEngine P) :
    (¬ ∃ run : Nat → MatchingEngine P,
      run 0 = e ∧ ∀ n, Iterates clock (run n) (run (n + 1))) ∧
    (∀ fuel, e.book.size < fuel → matchLoop clock fuel e = matching clock e) ∧
    Relation.ReflTransGen (Iterates clock) e (matching clock e).1 ∧
    (matching clock e).2.length ≤ e.book.orders.length ∧
    ((matching clock e).1.book.buyOrders = [] ∨ (matching clock e).1.book.sellOrders = [] ∨
      ∃ bid buyVec buys ask sellVec sells,
        (matching clock e).1.book.buyOrders = (bid, buyVec) :: buys ∧
        (matching clock e).1.book.sellOrders = (ask, sellVec) :: sells ∧ bid < ask) := by
  have hrun := matching_matches clock e
  refine ⟨?_, ?_, ?_, ?_, ?_⟩
  · rintro ⟨run, -, hall⟩
    exact no_infinite_run clock run hall
  · intro fuel hfuel
    exact matchLoop_fuel hfuel (Nat.lt_succ_self _)
  · exact matchLoop_iterates _ e
  · have := hrun.length_le
    omega
  · exact uncrossed_iff.mp hrun.uncrossed

end TradePlat.Engine
