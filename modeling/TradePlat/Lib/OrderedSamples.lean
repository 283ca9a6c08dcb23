import Mathlib.Algebra.Order.Floor.Ring
import Mathlib.Data.List.Sort

/-!
# Ordered samples

Facts about samples with a linear order on them. In a list that is ordered by a
key, dropping from the front what is below a cutoff is filtering by the cutoff
(`dropWhile_eq_filter`), so a window that is pruned at growing cutoffs is the filter at
the last (`filter_filter_of_le`). The element of a rank in the sorted list depends
on the samples alone, not on their order (`sorted_perm`), and grows with the rank
(`getD_mono`). The rank of a percentile is a fraction of their number, rounded down
(`floor_mul_le`, `floor_mul_mono`).
-/

namespace TradePlat.OrderedSamples

section
variable {α κ : Type} [LinearOrder κ] (key : α → κ)

/-- The keys do not decrease along the list. -/
def OrderedBy (l : List α) : Prop := l.Pairwise fun a b => key a ≤ key b

variable {key}

theorem OrderedBy.concat {l : List α} (h : OrderedBy key l) {x : α} (hx : ∀ a ∈ l, key a ≤ key x) :
    OrderedBy key (l ++ [x]) := by
  refine List.pairwise_append.mpr ⟨h, List.pairwise_singleton _ x, fun a ha b hb => ?_⟩
  rw [List.mem_singleton.mp hb]
  exact hx a ha

theorem dropWhile_eq_filter {l : List α} (h : OrderedBy key l) (cutoff : κ) :
    (l.dropWhile fun a => key a < cutoff) = l.filter fun a => cutoff ≤ key a := by
  induction l with
  | nil => rfl
  | cons a l ih =>
    obtain ⟨hhead, htail⟩ := List.pairwise_cons.mp h
    by_cases ha : key a < cutoff
    · have hnot : ¬cutoff ≤ key a := not_le.mpr ha
      rw [List.dropWhile_cons, if_pos (by simpa using ha), List.filter_cons,
        if_neg (by simpa using ha)]
      exact ih htail
    · have hall : ∀ b ∈ a :: l, cutoff ≤ key b := by
        intro b hb
        rcases List.mem_cons.mp hb with rfl | hb
        · exact not_lt.mp ha
        · exact (not_lt.mp ha).trans (hhead b hb)
      rw [List.dropWhile_cons, if_neg (by simpa using ha),
        List.filter_eq_self.mpr fun b hb => by simpa using hall b hb]

/-- A later cutoff makes an earlier one superfluous. -/
theorem filter_filter_of_le {cutoff cutoff' : κ} (h : cutoff ≤ cutoff') (l : List α) :
    ((l.filter fun a => cutoff ≤ key a).filter fun a => cutoff' ≤ key a) =
      l.filter fun a => cutoff' ≤ key a := by
  rw [List.filter_filter]
  apply List.filter_congr
  intro a _
  by_cases ha : cutoff' ≤ key a
  · simp [ha, h.trans ha]
  · simp [ha]

theorem OrderedBy.filter {l : List α} (h : OrderedBy key l) (p : α → Bool) :
    OrderedBy key (l.filter p) := List.Pairwise.filter p h

end

section
variable {α : Type} [LinearOrder α]

/-- Two sorted lists of the same samples are equal. -/
theorem sorted_perm {l sorted : List α} (hperm : sorted.Perm l) (hsorted : sorted.Pairwise (· ≤ ·)) :
    sorted = l.mergeSort (· ≤ ·) :=
  (hperm.trans (List.mergeSort_perm l _).symm).eq_of_pairwise' hsorted
    (List.pairwise_mergeSort' (· ≤ ·) l)

theorem getD_mono {l : List α} (h : l.Pairwise (· ≤ ·)) {i j : Nat} (hij : i ≤ j)
    (hj : j < l.length) (d : α) : l.getD i d ≤ l.getD j d := by
  rw [List.getD_eq_getElem?_getD, List.getD_eq_getElem?_getD,
    List.getElem?_eq_getElem (hij.trans_lt hj), List.getElem?_eq_getElem hj]
  rcases Nat.eq_or_lt_of_le hij with rfl | hlt
  · exact le_refl _
  · exact List.pairwise_iff_getElem.mp h i j _ hj hlt

end

section
variable {R : Type} [Ring R] [LinearOrder R] [IsStrictOrderedRing R] [FloorRing R]

theorem floor_mul_le {n : Int} (hn : 0 ≤ n) {p : R} (hp : p ≤ 1) : ⌊(n : R) * p⌋ ≤ n := by
  have hle : (n : R) * p ≤ n := mul_le_of_le_one_right (Int.cast_nonneg hn) hp
  have hfloor := (Int.floor_le ((n : R) * p)).trans hle
  exact Int.cast_le.mp hfloor

theorem floor_mul_mono {n : R} (hn : 0 ≤ n) {p q : R} (h : p ≤ q) : ⌊n * p⌋ ≤ ⌊n * q⌋ :=
  Int.floor_le_floor (mul_le_mul_of_nonneg_left h hn)

end

end TradePlat.OrderedSamples
