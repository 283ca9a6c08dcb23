import Mathlib.Logic.Function.Basic
import Mathlib.Tactic.Linarith

/-!
# Ring buffers

A ring buffer numbers its values by positions that count up for ever and keeps
position `i` in cell `i % n` of its `n` cells. At most `n` positions are in use
at a time, from some `t` on: in such a window no two positions share a cell
(`cell_inj`), and an older position has a later one of the window in its cell
(`exists_later`). The counters of the positions may be machine words: differences
inside a window survive their wrap-around (`toNat_sub_counter`), and so do cells
(`toNat_and_counter`), where `n` is a power of two.
-/

namespace TradePlat.RingCells

variable {α : Type} {n t i j : Nat}

/-! ## Windows -/

theorem cell_inj (hi : t ≤ i ∧ i < t + n) (hj : t ≤ j ∧ j < t + n) (h : i % n = j % n) :
    i = j := by
  have hdi := Nat.div_add_mod i n
  have hdj := Nat.div_add_mod j n
  have hquot : i / n = j / n := by
    by_contra hne
    rcases Nat.lt_or_gt_of_ne hne with hlt | hlt
    · have := Nat.mul_le_mul_left n hlt
      rw [Nat.mul_succ] at this
      omega
    · have := Nat.mul_le_mul_left n hlt
      rw [Nat.mul_succ] at this
      omega
  rw [hquot] at hdi
  omega

/-- The cell of any position below the end of the window belongs to the same or a
later position of the window. -/
theorem exists_later (hn : 0 < n) (h : i < t + n) :
    ∃ j, i ≤ j ∧ (t ≤ j ∧ j < t + n) ∧ j % n = i % n := by
  induction hd : t - i using Nat.strongRecOn generalizing i with
  | _ d ih =>
    by_cases hle : t ≤ i
    · exact ⟨i, Nat.le_refl i, ⟨hle, h⟩, rfl⟩
    · obtain ⟨j, hij, hj, hmod⟩ := ih (t - (i + n)) (by omega) (i := i + n) (by omega) rfl
      rw [Nat.add_mod_right] at hmod
      exact ⟨j, by omega, hj, hmod⟩

/-! ## Values in cells -/

/-- Position `i` of `values` is in its cell. -/
def Holds (n : Nat) (cells : Nat → α) (values : List α) (i : Nat) : Prop :=
  values[i]? = some (cells (i % n))

theorem Holds.lt {cells : Nat → α} {values : List α} (h : Holds n cells values i) :
    i < values.length :=
  (List.getElem?_eq_some_iff.mp h).1

theorem Holds.append {cells : Nat → α} {values : List α} (h : Holds n cells values i)
    (more : List α) : Holds n cells (values ++ more) i := by
  unfold Holds
  rw [List.getElem?_append_left h.lt]
  exact h

/-- A write to the cell of another position of the window. -/
theorem Holds.write {cells : Nat → α} {values : List α} (h : Holds n cells values i)
    (hi : t ≤ i ∧ i < t + n) (hj : t ≤ j ∧ j < t + n) (hne : i ≠ j) (a : α) :
    Holds n (Function.update cells (j % n) a) values i := by
  unfold Holds
  rw [Function.update_of_ne fun hcell => hne (cell_inj hi hj hcell)]
  exact h

theorem holds_written {cells : Nat → α} {values : List α} {a : α} (h : values[j]? = some a) :
    Holds n (Function.update cells (j % n) a) values j := by
  unfold Holds
  rw [Function.update_self]
  exact h

/-! ## Capacities -/

/-- A number of cells whose positions a mask can cut. -/
structure Capacity where
  value : Nat
  two_le : 2 ≤ value
  powerOfTwo : value.isPowerOfTwo

namespace Capacity

def mask (capacity : Capacity) : Nat := capacity.value - 1

/-- The bit test for a capacity. -/
theorem test_iff {value : Nat} :
    ¬ (value < 2 ∨ value &&& (value - 1) ≠ 0) ↔ 2 ≤ value ∧ value.isPowerOfTwo := by
  have hiff := Nat.ne_zero_and_sub_one_eq_zero_iff_isPowerOfTwo (n := value)
  rw [← hiff]
  constructor
  · intro h
    exact ⟨by omega, by omega, by_contra fun hne => h (Or.inr hne)⟩
  · rintro ⟨htwo, -, hzero⟩ h
    omega

/-- The check of a constructor, with the message it throws. -/
def check (message : String) (value : Nat) : Except String Capacity :=
  if h : value < 2 ∨ value &&& (value - 1) ≠ 0 then .error message
  else .ok ⟨value, (test_iff.mp h).1, (test_iff.mp h).2⟩

theorem and_mask (capacity : Capacity) (i : Nat) : i &&& capacity.mask = i % capacity.value := by
  obtain ⟨k, hk⟩ := capacity.powerOfTwo
  rw [mask, hk, Nat.and_two_pow_sub_one_eq_mod]

theorem pos (capacity : Capacity) : 0 < capacity.value := by
  have := capacity.two_le
  omega

theorem exponent_lt (capacity : Capacity) {w : Nat} (hw : capacity.value < 2 ^ w) :
    ∃ k < w, capacity.value = 2 ^ k := by
  obtain ⟨k, hk⟩ := capacity.powerOfTwo
  rw [hk] at hw
  exact ⟨k, (Nat.pow_lt_pow_iff_right (by omega)).mp hw, hk⟩

/-- A word that holds the capacity has a bit to spare. -/
theorem succ_lt (capacity : Capacity) {w : Nat} (hw : capacity.value < 2 ^ w) :
    capacity.value + 1 < 2 ^ w := by
  obtain ⟨k, hkw, hk⟩ := capacity.exponent_lt hw
  have htwo := capacity.two_le
  have hdouble := Nat.pow_le_pow_right (n := 2) (by omega) hkw
  rw [Nat.pow_succ, ← hk] at hdouble
  omega

end Capacity

/-! ## Counters that wrap around -/

variable {w : Nat}

theorem toNat_sub_counter (hle : i ≤ j) (hlt : j - i < 2 ^ w) :
    (BitVec.ofNat w j - BitVec.ofNat w i).toNat = j - i := by
  have hj : BitVec.ofNat w j = BitVec.ofNat w (j - i) + BitVec.ofNat w i := by
    rw [← BitVec.ofNat_add, Nat.sub_add_cancel hle]
  rw [hj, BitVec.add_sub_cancel, BitVec.toNat_ofNat, Nat.mod_eq_of_lt hlt]

theorem ofNat_add_turns (n k : Nat) : BitVec.ofNat w (n + k * 2 ^ w) = BitVec.ofNat w n := by
  rw [← BitVec.toNat_inj, BitVec.toNat_ofNat, BitVec.toNat_ofNat, Nat.add_mul_mod_self_right]

/-- The difference of two counters is small where whole turns bring one of them there. -/
theorem toNat_sub_counter_le_iff {c : Nat} (hc : c < 2 ^ w) :
    (BitVec.ofNat w j - BitVec.ofNat w i).toNat ≤ c ↔
      (∃ turns, i ≤ j + turns * 2 ^ w ∧ j + turns * 2 ^ w ≤ i + c) ∨
        ∃ turns, i + turns * 2 ^ w ≤ j ∧ j ≤ i + turns * 2 ^ w + c := by
  constructor
  · intro h
    generalize hd : (BitVec.ofNat w j - BitVec.ofNat w i).toNat = d at h
    have hsum : BitVec.ofNat w (i + d) = BitVec.ofNat w j := by
      rw [← hd, BitVec.ofNat_add, BitVec.ofNat_toNat, BitVec.setWidth_eq, BitVec.add_comm,
        BitVec.sub_add_cancel]
    have hmod := congrArg BitVec.toNat hsum
    rw [BitVec.toNat_ofNat, BitVec.toNat_ofNat] at hmod
    have hi := Nat.div_add_mod' (i + d) (2 ^ w)
    have hj := Nat.div_add_mod' j (2 ^ w)
    rcases Nat.le_total (j / 2 ^ w) ((i + d) / 2 ^ w) with hle | hle
    · obtain ⟨turns, hturns⟩ := Nat.exists_eq_add_of_le hle
      rw [hturns, Nat.add_mul] at hi
      exact Or.inl ⟨turns, by omega, by omega⟩
    · obtain ⟨turns, hturns⟩ := Nat.exists_eq_add_of_le hle
      rw [hturns, Nat.add_mul] at hj
      exact Or.inr ⟨turns, by omega, by omega⟩
  · rintro (⟨turns, hle, hge⟩ | ⟨turns, hle, hge⟩)
    · rw [← ofNat_add_turns j turns, toNat_sub_counter hle (by omega)]
      omega
    · rw [← ofNat_add_turns i turns, toNat_sub_counter hle (by omega)]
      omega

theorem counter_inj (hle : i ≤ j) (hlt : j - i < 2 ^ w) :
    BitVec.ofNat w i = BitVec.ofNat w j ↔ i = j := by
  constructor
  · intro h
    have hsub := toNat_sub_counter hle hlt
    rw [h, BitVec.sub_self, BitVec.toNat_zero] at hsub
    omega
  · rintro rfl
    rfl

theorem toNat_and_counter (capacity : Capacity) (hw : capacity.value < 2 ^ w) (i : Nat) :
    (BitVec.ofNat w i &&& (BitVec.ofNat w capacity.value - 1#w)).toNat = i % capacity.value := by
  obtain ⟨k, hkw, hk⟩ := capacity.exponent_lt hw
  have htwo := capacity.two_le
  have hmask : (BitVec.ofNat w capacity.value - 1#w).toNat = capacity.value - 1 := by
    have hone : (1#w : BitVec w) = BitVec.ofNat w 1 := rfl
    rw [hone, toNat_sub_counter (by omega) (by omega)]
  rw [BitVec.toNat_and, hmask, BitVec.toNat_ofNat, hk, Nat.and_two_pow_sub_one_eq_mod,
    Nat.mod_mod_of_dvd _ (Nat.pow_dvd_pow 2 hkw.le)]

end TradePlat.RingCells
