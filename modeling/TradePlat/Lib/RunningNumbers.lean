import Mathlib.Data.List.Nodup
import Mathlib.Data.Nat.ModEq

/-!
# Running numbers, and ranges of residues

`numbered key xs` gives each member of a list its number among the members of the same
key, from 1 on. The pairs of key and number never repeat (`numbered_nodup`), and those
of one key are the numbers up to its count (`mem_numbered`).

Two ranges of numbers, `a + 1, …, a + c` and `a + D + 1, …, a + D + d`, have no residue
modulo `m` in common exactly where each ends before the other starts, going round
(`residues_apart_iff`).
-/

namespace TradePlat.RunningNumbers

section Numbered
variable {α κ : Type} [DecidableEq κ] (key : α → κ)

/-- Each member with its number among those of its key, after the members of `past`. -/
def numberedFrom (past : List α) : List α → List (α × Nat)
  | [] => []
  | x :: xs =>
    (x, past.countP (key · = key x) + 1) :: numberedFrom (past ++ [x]) xs

def numbered (xs : List α) : List (α × Nat) := numberedFrom key [] xs

/-- The key of a numbered member, with the number. -/
def tag (x : α × Nat) : κ × Nat := (key x.1, x.2)

theorem numberedFrom_append (past xs ys : List α) :
    numberedFrom key past (xs ++ ys) =
      numberedFrom key past xs ++ numberedFrom key (past ++ xs) ys := by
  induction xs generalizing past with
  | nil => simp [numberedFrom]
  | cons x xs ih => simp [numberedFrom, ih]

theorem numbered_append (xs ys : List α) :
    numbered key (xs ++ ys) = numbered key xs ++ numberedFrom key xs ys :=
  numberedFrom_append key [] xs ys

theorem numberedFrom_fst (past xs : List α) :
    (numberedFrom key past xs).map Prod.fst = xs := by
  induction xs generalizing past with
  | nil => rfl
  | cons x xs ih => simp [numberedFrom, ih]

theorem numbered_fst (xs : List α) : (numbered key xs).map Prod.fst = xs :=
  numberedFrom_fst key [] xs

/-- The numbers of a key run on from those of the past. -/
theorem mem_numberedFrom {past xs : List α} {i : κ} {k : Nat} :
    (i, k) ∈ (numberedFrom key past xs).map (tag key) ↔
      past.countP (key · = i) < k ∧ k ≤ past.countP (key · = i) + xs.countP (key · = i) := by
  induction xs generalizing past with
  | nil =>
    simp only [numberedFrom, List.map_nil, List.not_mem_nil, List.countP_nil, false_iff]
    omega
  | cons x xs ih =>
    simp only [numberedFrom, List.map_cons, List.mem_cons, ih, tag, Prod.mk.injEq,
      List.countP_append, List.countP_cons, List.countP_nil]
    by_cases hkey : key x = i
    · subst hkey
      simp only [decide_true, if_true, true_and]
      omega
    · have hne : ¬ i = key x := fun h => hkey h.symm
      simp only [hkey, hne, decide_false, Bool.false_eq_true, if_false, false_and, false_or]
      omega

theorem mem_numbered {xs : List α} {i : κ} {k : Nat} :
    (i, k) ∈ (numbered key xs).map (tag key) ↔ 0 < k ∧ k ≤ xs.countP (key · = i) := by
  rw [numbered, mem_numberedFrom, List.countP_nil, Nat.zero_add]

theorem numberedFrom_nodup (past xs : List α) :
    ((numberedFrom key past xs).map (tag key)).Nodup := by
  induction xs generalizing past with
  | nil => simp [numberedFrom]
  | cons x xs ih =>
    rw [numberedFrom, List.map_cons, List.nodup_cons]
    refine ⟨fun h => ?_, ih _⟩
    -- The numbers that follow are above the one just given.
    have hlt := ((mem_numberedFrom key).mp h).1
    simp at hlt

theorem numbered_nodup (xs : List α) : ((numbered key xs).map (tag key)).Nodup :=
  numberedFrom_nodup key [] xs

end Numbered

/-! ## Ranges of residues -/

theorem residues_own_iff {m : Nat} (a c : Nat) :
    (∀ k l, 0 < k → k ≤ c → 0 < l → l ≤ c → k ≠ l → (a + k) % m ≠ (a + l) % m) ↔
      m = 0 ∨ c ≤ m := by
  constructor
  · intro h
    by_contra hc
    rw [not_or] at hc
    refine h 1 (m + 1) (by omega) (by omega) (by omega) (by omega) (by omega) ?_
    rw [show a + (m + 1) = a + 1 + m by omega, Nat.add_mod_right]
  · intro hc k l hk hkc hl hlc hne heq
    rcases hc with rfl | hc
    · simp only [Nat.mod_zero] at heq
      omega
    · have hmod : k % m = l % m := Nat.ModEq.add_left_cancel' a heq
      have hdiff := Nat.sub_mod_eq_zero_of_mod_eq hmod
      have hdiff' := Nat.sub_mod_eq_zero_of_mod_eq hmod.symm
      rw [Nat.mod_eq_of_lt (by omega)] at hdiff hdiff'
      omega

theorem residues_apart_iff {m : Nat} (hm : 0 < m) (a c D d : Nat) :
    (∀ k l, 0 < k → k ≤ c → 0 < l → l ≤ d → (a + k) % m ≠ (a + D + l) % m) ↔
      c = 0 ∨ d = 0 ∨ (c ≤ D % m ∧ d ≤ m - D % m) := by
  have hlt := Nat.mod_lt D hm
  have hdiv := Nat.div_add_mod D m
  constructor
  · intro h
    by_cases hc : c = 0
    · exact Or.inl hc
    by_cases hd : d = 0
    · exact Or.inr (Or.inl hd)
    refine Or.inr (Or.inr ⟨?_, ?_⟩)
    · -- Number `D % m + 1` of the first range meets the first of the second.
      by_contra hgt
      refine h (D % m + 1) 1 (by omega) (by omega) (by omega) (by omega) ?_
      rw [show a + D + 1 = a + (D % m + 1) + m * (D / m) by omega, Nat.add_mul_mod_self_left]
    · by_contra hgt
      refine h 1 (m - D % m + 1) (by omega) (by omega) (by omega) (by omega) ?_
      have hround : m * (D / m) + m = m * (D / m + 1) := by rw [Nat.mul_add, Nat.mul_one]
      rw [show a + D + (m - D % m + 1) = a + 1 + m * (D / m + 1) by omega,
        Nat.add_mul_mod_self_left]
  · intro h k l hk hkc hl hld heq
    have hcases : c ≤ D % m ∧ d ≤ m - D % m := by omega
    rw [show a + D + l = a + (D % m + l) + m * (D / m) by omega, Nat.add_mul_mod_self_left] at heq
    have hmod : k % m = (D % m + l) % m := Nat.ModEq.add_left_cancel' a heq
    have hdiff := Nat.sub_mod_eq_zero_of_mod_eq hmod.symm
    rw [Nat.mod_eq_of_lt (by omega)] at hdiff
    omega

end TradePlat.RunningNumbers
