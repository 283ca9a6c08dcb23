import Mathlib.Data.List.Nodup
import Mathlib.Logic.Function.Basic

/-!
# Linked cells

A singly linked list is a head and a `next` link for every cell; a link of `none` is its
end. `Linked next head cells` says that the links lead from the head through `cells` and
end there. Such a list is the only one (`Linked.unique`) and repeats no cell
(`Linked.nodup`), so its links make no circle. It does not see the links of other cells
(`Linked.congr`), and a run of cells that are linked one to the next can be put before it
(`Linked.prepend`).
-/

namespace TradePlat.LinkedCells

variable {α : Type} {next next' : α → Option α} {head : Option α} {cells : List α} {a : α}

def Linked (next : α → Option α) : Option α → List α → Prop
  | head, [] => head = none
  | head, a :: cells => head = some a ∧ Linked next (next a) cells

theorem Linked.unique {cells' : List α} (h : Linked next head cells)
    (h' : Linked next head cells') : cells = cells' := by
  induction cells generalizing head cells' with
  | nil =>
    cases cells' with
    | nil => rfl
    | cons a cells' => cases h.symm.trans h'.1
  | cons a cells ih =>
    cases cells' with
    | nil => cases h'.symm.trans h.1
    | cons a' cells' =>
      obtain rfl : a = a' := Option.some.inj (h.1.symm.trans h'.1)
      rw [ih h.2 h'.2]

theorem Linked.behind {before after : List α} (h : Linked next head (before ++ a :: after)) :
    Linked next (next a) after := by
  induction before generalizing head with
  | nil => exact h.2
  | cons b before ih => exact ih h.2

/-- A cell that came twice would have two different lists behind it. -/
theorem Linked.nodup (h : Linked next head cells) : cells.Nodup := by
  induction cells generalizing head with
  | nil => exact List.nodup_nil
  | cons a cells ih =>
    refine List.nodup_cons.mpr ⟨fun hmem => ?_, ih h.2⟩
    obtain ⟨before, after, hsplit⟩ := List.append_of_mem hmem
    have hafter : Linked next (next a) after := by
      have hrest := h.2
      rw [hsplit] at hrest
      exact hrest.behind
    have hlength := congrArg List.length (h.2.unique hafter)
    rw [hsplit, List.length_append, List.length_cons] at hlength
    omega

/-- The links of other cells do not matter. -/
theorem Linked.congr (h : Linked next head cells) (heq : ∀ a ∈ cells, next' a = next a) :
    Linked next' head cells := by
  induction cells generalizing head with
  | nil => exact h
  | cons a cells ih =>
    refine ⟨h.1, ?_⟩
    rw [heq a List.mem_cons_self]
    exact ih h.2 fun b hb => heq b (List.mem_cons_of_mem a hb)

/-- The new first cell is linked to the old head. -/
theorem Linked.cons [DecidableEq α] (h : Linked next head cells) (ha : a ∉ cells) :
    Linked (Function.update next a head) (some a) (a :: cells) := by
  refine ⟨rfl, ?_⟩
  rw [Function.update_self]
  refine h.congr fun b hb => Function.update_of_ne ?_ _ _
  rintro rfl
  exact ha hb

/-- Cells numbered from `i` on, each linked to the following one and the last one to the
head of a list. -/
theorem Linked.prepend {cell : Nat → α} {i n : Nat}
    (hstep : ∀ k, i ≤ k → k < i + n → next (cell k) = some (cell (k + 1)))
    (hlast : next (cell (i + n)) = head) (h : Linked next head cells) :
    Linked next (some (cell i)) ((List.range' i (n + 1)).map cell ++ cells) := by
  induction n generalizing i with
  | zero =>
    refine ⟨rfl, ?_⟩
    rw [Nat.add_zero] at hlast
    rw [hlast]
    exact h
  | succ n ih =>
    refine ⟨rfl, ?_⟩
    rw [hstep i (Nat.le_refl i) (by omega)]
    refine ih (fun k hk hlt => hstep k (by omega) (by omega)) ?_
    rw [← hlast]
    congr 2
    omega

end TradePlat.LinkedCells
