import Mathlib.Order.RelClasses
import Mathlib.Data.List.Basic

/-!
# Ordered maps by a comparator

An ordered map keyed by a comparator, as the list of its entries in traversal
order. A lookup stops at the first key that does not precede the wanted one
(its lower bound) and takes two keys for equal when neither precedes the other.
The operations ask nothing of the comparator; `Sorted` maps over a strict total
order behave as finite maps (`find_update`, `find_alter`).
-/

namespace TradePlat.SortedMap

variable {K V : Type} (before : K → K → Prop)

/-- Keys appear in comparator order. -/
def Sorted (m : List (K × V)) : Prop := m.Pairwise fun a b => before a.1 b.1

theorem sorted_cons {before : K → K → Prop} {e : K × V} {m : List (K × V)} :
    Sorted before (e :: m) ↔ (∀ a ∈ m, before e.1 a.1) ∧ Sorted before m :=
  List.pairwise_cons

theorem eq_of_incomparable {before : K → K → Prop} [IsStrictTotalOrder K before] {a b : K}
    (h₁ : ¬ before a b) (h₂ : ¬ before b a) : a = b :=
  Std.Trichotomous.trichotomous a b h₁ h₂

theorem ne_of_before {before : K → K → Prop} [IsStrictTotalOrder K before] {a b : K}
    (h : before a b) : a ≠ b := by
  rintro rfl
  exact irrefl_of before a h

variable [DecidableRel before]

/-- `m[k] = f (m[k])`, where a missing key first gets the value `d`. -/
def update (k : K) (d : V) (f : V → V) : List (K × V) → List (K × V)
  | [] => [(k, f d)]
  | (k', v) :: m =>
    if before k' k then (k', v) :: update k d f m
    else if before k k' then (k, f d) :: (k', v) :: m
    else (k', f v) :: m

/-- The value stored under a key equal to `k`. -/
def find (k : K) : List (K × V) → Option V
  | [] => none
  | (k', v) :: m =>
    if before k' k then find k m
    else if before k k' then none
    else some v

/-- Rewrite the entry found under `k`, or erase it where `f` gives `none`. -/
def alter (k : K) (f : V → Option V) : List (K × V) → List (K × V)
  | [] => []
  | (k', v) :: m =>
    if before k' k then (k', v) :: alter k f m
    else if before k k' then (k', v) :: m
    else match f v with
      | some v' => (k', v') :: m
      | none => m

variable {before}

/-- The entries of an updated map: the old ones and the updated one. -/
theorem mem_update {k : K} {d : V} {f : V → V} {m : List (K × V)} {a : K × V}
    (h : a ∈ update before k d f m) :
    a ∈ m ∨ a = (k, f d) ∨ ∃ v, (a.1, v) ∈ m ∧ a.2 = f v ∧ ¬ before a.1 k ∧ ¬ before k a.1 := by
  induction m with
  | nil => simpa [update] using h
  | cons e m ih =>
    obtain ⟨k', v⟩ := e
    simp only [update] at h
    split at h
    · rcases List.mem_cons.mp h with rfl | h
      · exact Or.inl (by simp)
      · rcases ih h with h | h | ⟨w, hw, h⟩
        · exact Or.inl (by simp [h])
        · exact Or.inr (Or.inl h)
        · exact Or.inr (Or.inr ⟨w, by simp [hw], h⟩)
    · split at h
      · rcases List.mem_cons.mp h with h | h
        · exact Or.inr (Or.inl h)
        · exact Or.inl h
      · rcases List.mem_cons.mp h with rfl | h
        · exact Or.inr (Or.inr ⟨v, by simp, rfl, by assumption, by assumption⟩)
        · exact Or.inl (by simp [h])

theorem mem_alter {k : K} {f : V → Option V} {m : List (K × V)} {a : K × V}
    (h : a ∈ alter before k f m) :
    a ∈ m ∨ ∃ v, (a.1, v) ∈ m ∧ f v = some a.2 := by
  induction m with
  | nil => simp [alter] at h
  | cons e m ih =>
    obtain ⟨k', v⟩ := e
    simp only [alter] at h
    split at h
    · rcases List.mem_cons.mp h with rfl | h
      · exact Or.inl (by simp)
      · rcases ih h with h | ⟨w, hw, h⟩
        · exact Or.inl (by simp [h])
        · exact Or.inr ⟨w, by simp [hw], h⟩
    · split at h
      · exact Or.inl h
      · split at h
        · rename_i v' hv
          rcases List.mem_cons.mp h with rfl | h
          · exact Or.inr ⟨v, by simp, hv⟩
          · exact Or.inl (by simp [h])
        · exact Or.inl (by simp [h])

theorem find_mem {k : K} {m : List (K × V)} {v : V} (h : find before k m = some v) :
    ∃ k', (k', v) ∈ m ∧ ¬ before k' k ∧ ¬ before k k' := by
  induction m with
  | nil => simp [find] at h
  | cons e m ih =>
    obtain ⟨k', w⟩ := e
    simp only [find] at h
    split at h
    · obtain ⟨k'', hm, hb⟩ := ih h
      exact ⟨k'', by simp [hm], hb⟩
    · split at h
      · simp at h
      · cases h
        exact ⟨k', by simp, by assumption, by assumption⟩

theorem sorted_alter {k : K} {f : V → Option V} {m : List (K × V)} (hs : Sorted before m) :
    Sorted before (alter before k f m) := by
  induction m with
  | nil => exact List.Pairwise.nil
  | cons e m ih =>
    obtain ⟨k', v⟩ := e
    have hs' := hs
    obtain ⟨hlt, hs⟩ := sorted_cons.mp hs
    simp only [alter]
    split
    · refine sorted_cons.mpr ⟨fun a ha => ?_, ih hs⟩
      rcases mem_alter ha with ha | ⟨w, hw, -⟩
      · exact hlt a ha
      · exact hlt (a.1, w) hw
    · split
      · exact hs'
      · split
        · exact sorted_cons.mpr ⟨hlt, hs⟩
        · exact hs

/-- Altering a found entry leaves the entries around it. -/
theorem alter_split {k : K} (f : V → Option V) {m : List (K × V)} {v : V}
    (h : find before k m = some v) :
    ∃ pre k' post, m = pre ++ (k', v) :: post ∧
      alter before k f m = pre ++ (match f v with
        | some v' => (k', v') :: post
        | none => post) := by
  induction m with
  | nil => simp [find] at h
  | cons e m ih =>
    obtain ⟨k', w⟩ := e
    simp only [find] at h
    simp only [alter]
    split at h
    · rename_i hk
      obtain ⟨pre, k'', post, rfl, ha⟩ := ih h
      refine ⟨(k', w) :: pre, k'', post, rfl, ?_⟩
      rw [if_pos hk, ha]
      rfl
    · rename_i hk
      split at h
      · cases h
      · rename_i hk'
        cases h
        refine ⟨[], k', m, rfl, ?_⟩
        rw [if_neg hk, if_neg hk']
        rfl

/-- Altering reads the function at the found value only. -/
theorem alter_congr {k : K} {f g : V → Option V} {m : List (K × V)} {v : V}
    (h : find before k m = some v) (hfg : f v = g v) : alter before k f m = alter before k g m := by
  induction m with
  | nil => rfl
  | cons e m ih =>
    obtain ⟨k', w⟩ := e
    simp only [find] at h
    unfold alter
    by_cases hk : before k' k
    · simp only [hk, ↓reduceIte] at h ⊢
      rw [ih h]
    · by_cases hk' : before k k'
      · simp [hk, hk'] at h
      · simp only [hk, hk', ↓reduceIte, Option.some.injEq] at h ⊢
        rw [h, hfg]

section StrictTotalOrder
variable [IsStrictTotalOrder K before]

theorem sorted_update {k : K} {d : V} {f : V → V} {m : List (K × V)} (hs : Sorted before m) :
    Sorted before (update before k d f m) := by
  induction m with
  | nil => simp [update, Sorted]
  | cons e m ih =>
    obtain ⟨k', v⟩ := e
    obtain ⟨hlt, hs⟩ := sorted_cons.mp hs
    simp only [update]
    split
    case isTrue hk =>
      refine sorted_cons.mpr ⟨fun a ha => ?_, ih hs⟩
      rcases mem_update ha with ha | rfl | ⟨w, hw, -⟩
      · exact hlt a ha
      · exact hk
      · exact hlt (a.1, w) hw
    case isFalse =>
      split
      case isTrue hk =>
        refine sorted_cons.mpr ⟨fun a ha => ?_, sorted_cons.mpr ⟨hlt, hs⟩⟩
        rcases List.mem_cons.mp ha with rfl | ha
        · exact hk
        · exact trans_of before hk (hlt a ha)
      case isFalse => exact sorted_cons.mpr ⟨hlt, hs⟩

/-- A key before every key of the map is not found. -/
theorem find_of_before {k : K} {m : List (K × V)} (h : ∀ a ∈ m, before k a.1) :
    find before k m = none := by
  cases m with
  | nil => rfl
  | cons e m =>
    have hk := h e (by simp)
    simp [find, hk, asymm_of before hk]

variable [DecidableEq K]

/-- Lookup in a sorted map, entry by entry. -/
theorem find_cons {k k' : K} {v : V} {m : List (K × V)} (hs : Sorted before ((k', v) :: m)) :
    find before k ((k', v) :: m) = if k' = k then some v else find before k m := by
  obtain ⟨hlt, -⟩ := sorted_cons.mp hs
  rcases trichotomous_of before k' k with h | rfl | h
  · simp [find, h, ne_of_before h]
  · simp [find, irrefl_of before k']
  · have hnone : find before k m = none :=
      find_of_before fun a ha => trans_of before h (hlt a ha)
    simp [find, h, asymm_of before h, (ne_of_before h).symm, hnone]

theorem find_of_mem {k : K} {v : V} {m : List (K × V)} (hs : Sorted before m)
    (h : (k, v) ∈ m) : find before k m = some v := by
  induction m with
  | nil => simp at h
  | cons e m ih =>
    obtain ⟨k', w⟩ := e
    obtain ⟨hlt, hs'⟩ := sorted_cons.mp hs
    rw [find_cons hs]
    rcases List.mem_cons.mp h with heq | h
    · cases heq
      exact if_pos rfl
    · rw [if_neg (ne_of_before (hlt _ h)), ih hs' h]

theorem find_update {k q : K} {d : V} {f : V → V} {m : List (K × V)} (hs : Sorted before m) :
    find before q (update before k d f m) =
      if k = q then some (f ((find before k m).getD d)) else find before q m := by
  induction m with
  | nil =>
    have hk : Sorted before [(k, f d)] := by simp [Sorted]
    simp only [update, find_cons hk]
    rfl
  | cons e m ih =>
    obtain ⟨k', v⟩ := e
    obtain ⟨hlt, hs'⟩ := sorted_cons.mp hs
    have hu := sorted_update (k := k) (d := d) (f := f) hs
    rw [find_cons hs, find_cons hs]
    rcases trichotomous_of before k' k with hk | rfl | hk
    · have hne : k' ≠ k := ne_of_before hk
      have e : update before k d f ((k', v) :: m) = (k', v) :: update before k d f m := by
        simp [update, hk]
      rw [e] at hu ⊢
      rw [find_cons hu, ih hs']
      grind
    · have e : update before k' d f ((k', v) :: m) = (k', f v) :: m := by
        simp [update, irrefl_of before k']
      rw [e] at hu ⊢
      rw [find_cons hu]
      grind
    · have hne : k' ≠ k := (ne_of_before hk).symm
      have hnone : find before k m = none :=
        find_of_before fun a ha => trans_of before hk (hlt a ha)
      have e : update before k d f ((k', v) :: m) = (k, f d) :: (k', v) :: m := by
        simp [update, hk, asymm_of before hk]
      rw [e] at hu ⊢
      rw [find_cons hu, find_cons hs]
      grind

theorem find_alter {k q : K} {f : V → Option V} {m : List (K × V)} (hs : Sorted before m) :
    find before q (alter before k f m) =
      if k = q then (find before k m).bind f else find before q m := by
  induction m with
  | nil => simp [alter, find]
  | cons e m ih =>
    obtain ⟨k', v⟩ := e
    obtain ⟨hlt, hs'⟩ := sorted_cons.mp hs
    have ha := sorted_alter (k := k) (f := f) hs
    rw [find_cons hs, find_cons hs]
    rcases trichotomous_of before k' k with hk | rfl | hk
    · have hne : k' ≠ k := ne_of_before hk
      have e : alter before k f ((k', v) :: m) = (k', v) :: alter before k f m := by
        simp [alter, hk]
      rw [e] at ha ⊢
      rw [find_cons ha, ih hs']
      grind
    · have hrest : find before k' m = none := find_of_before hlt
      cases hf : f v with
      | none =>
        have e : alter before k' f ((k', v) :: m) = m := by
          simp [alter, irrefl_of before k', hf]
        rw [e]
        grind
      | some w =>
        have e : alter before k' f ((k', v) :: m) = (k', w) :: m := by
          simp [alter, irrefl_of before k', hf]
        rw [e] at ha ⊢
        rw [find_cons ha]
        grind
    · have hne : k' ≠ k := (ne_of_before hk).symm
      have hnone : find before k m = none :=
        find_of_before fun a ha => trans_of before hk (hlt a ha)
      have e : alter before k f ((k', v) :: m) = (k', v) :: m := by
        simp [alter, hk, asymm_of before hk]
      rw [e, find_cons hs]
      grind

end StrictTotalOrder

/-! ## Renaming keys and values -/

section Map
variable {K' V' : Type} {before' : K' → K' → Prop} [DecidableRel before'] {r : K → K'}
  {g : V → V'} (hr : ∀ a b, before' (r a) (r b) ↔ before a b)
include hr

theorem find_map (k : K) (m : List (K × V)) :
    find before' (r k) (m.map (Prod.map r g)) = (find before k m).map g := by
  induction m with
  | nil => rfl
  | cons e m ih =>
    simp only [List.map_cons, find, Prod.map, hr, ih]
    split
    · rfl
    · split <;> rfl

theorem update_map (f : V → V) (f' : V' → V') (hf : ∀ v, f' (g v) = g (f v)) (k : K) (d : V)
    (m : List (K × V)) :
    update before' (r k) (g d) f' (m.map (Prod.map r g)) =
      (update before k d f m).map (Prod.map r g) := by
  induction m with
  | nil => simp [update, hf]
  | cons e m ih =>
    simp only [List.map_cons, update, Prod.map, hr, ih]
    split
    · rfl
    · split
      · simp only [List.map_cons, Prod.map, hf]
      · simp only [List.map_cons, Prod.map, hf]

theorem alter_map {f : V → Option V} {f' : V' → Option V'} (hf : ∀ v, f' (g v) = (f v).map g)
    (k : K) (m : List (K × V)) :
    alter before' (r k) f' (m.map (Prod.map r g)) =
      (alter before k f m).map (Prod.map r g) := by
  induction m with
  | nil => rfl
  | cons e m ih =>
    simp only [List.map_cons, alter, Prod.map, hr, ih]
    split
    · rfl
    · split
      · rfl
      · rw [hf]
        cases f e.2 <;> rfl

end Map

end TradePlat.SortedMap
