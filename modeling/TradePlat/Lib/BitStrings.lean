import Mathlib.Data.List.Basic
import Mathlib.Algebra.Order.Monoid.Unbundled.Basic
import Mathlib.Tactic.Ring

/-!
# Bit strings

A bit string is a list of bits, the most significant first. `value` reads a number
from it and `write n` writes the last `n` bits of a number; `bits` is the bit string
of a byte string, and `groups n` cuts a list into consecutive groups of `n`.
-/

namespace TradePlat.BitStrings

abbrev BitString := List Bool

/-! ## Numbers -/

/-- The number that a bit string writes. -/
def value : BitString → Nat
  | [] => 0
  | b :: bits => b.toNat * 2 ^ bits.length + value bits

/-- The last `n` bits of a number. -/
def write : Nat → Nat → BitString
  | 0, _ => []
  | n + 1, v => v.testBit n :: write n v

@[simp] theorem length_write (n v : Nat) : (write n v).length = n := by
  induction n with
  | zero => rfl
  | succ n ih => rw [write, List.length_cons, ih]

theorem value_append (bits rest : BitString) :
    value (bits ++ rest) = value bits * 2 ^ rest.length + value rest := by
  induction bits with
  | nil => simp [value]
  | cons b bits ih =>
    rw [List.cons_append, value, value, ih, List.length_append, Nat.pow_add]
    ring

theorem value_write (n v : Nat) : value (write n v) = v % 2 ^ n := by
  induction n with
  | zero => simp [write, value, Nat.mod_one]
  | succ n ih =>
    rw [write, value, ih, length_write, Nat.mod_pow_succ, Nat.toNat_testBit]
    ring

theorem value_lt (bits : BitString) : value bits < 2 ^ bits.length := by
  induction bits with
  | nil => exact Nat.one_pos
  | cons b bits ih =>
    rw [value, List.length_cons, Nat.pow_succ]
    have hb : b.toNat ≤ 1 := Bool.toNat_le b
    have hmul : b.toNat * 2 ^ bits.length ≤ 1 * 2 ^ bits.length := Nat.mul_le_mul_right _ hb
    omega

theorem write_add (m n v : Nat) : write (m + n) v = write m (v / 2 ^ n) ++ write n v := by
  induction m with
  | zero => simp [write]
  | succ m ih =>
    rw [show m + 1 + n = m + n + 1 by omega, write, write, ih, Nat.testBit_div_two_pow]
    rfl

theorem write_mod {n m : Nat} (h : n ≤ m) (v : Nat) : write n (v % 2 ^ m) = write n v := by
  induction n with
  | zero => rfl
  | succ n ih =>
    rw [write, write, ih (by omega), Nat.testBit_mod_two_pow]
    simp [show n < m by omega]

theorem write_zero (n : Nat) : write n 0 = List.replicate n false := by
  induction n with
  | zero => rfl
  | succ n ih => rw [write, ih, Nat.zero_testBit, List.replicate_succ]

/-! ## Groups -/

/-- The consecutive groups of `n` elements; a shorter rest is left out. -/
def groups {α : Type} (n : Nat) (l : List α) : List (List α) :=
  (List.range (l.length / n)).map fun i => (l.drop (n * i)).take n

theorem length_of_mem_groups {α : Type} {n : Nat} {l g : List α} (h : g ∈ groups n l) :
    g.length = n := by
  obtain ⟨i, hi, rfl⟩ := List.mem_map.mp h
  have hmul : n * (i + 1) ≤ l.length :=
    (Nat.mul_le_mul_left n (List.mem_range.mp hi)).trans (Nat.mul_div_le l.length n)
  rw [Nat.mul_add, Nat.mul_one] at hmul
  rw [List.length_take, List.length_drop]
  omega

theorem groups_of_short {α : Type} {n : Nat} {l : List α} (h : l.length < n) :
    groups n l = [] := by
  rw [groups, Nat.div_eq_of_lt h]
  rfl

theorem groups_append {α : Type} {n : Nat} (hn : 0 < n) {first : List α}
    (hfirst : first.length = n) (rest : List α) :
    groups n (first ++ rest) = first :: groups n rest := by
  have hcount : (first ++ rest).length / n = rest.length / n + 1 := by
    rw [List.length_append, hfirst, Nat.add_comm, Nat.add_div_right _ hn]
  rw [groups, hcount, List.range_succ_eq_map, List.map_cons, List.map_map]
  congr 1
  · rw [Nat.mul_zero, List.drop_zero, List.take_left' hfirst]
  · rw [groups]
    apply List.map_congr_left
    intro i _
    have hdrop : (first ++ rest).drop (n * (i + 1)) = rest.drop (n * i) := by
      rw [Nat.mul_add, Nat.mul_one, Nat.add_comm, ← List.drop_drop, List.drop_left' hfirst]
    exact congrArg (List.take n) hdrop

theorem groups_flatMap {α β : Type} {n : Nat} (hn : 0 < n) (f : α → List β)
    (hf : ∀ x, (f x).length = n) (l : List α) : groups n (l.flatMap f) = l.map f := by
  induction l with
  | nil => exact groups_of_short hn
  | cons x l ih => rw [List.flatMap_cons, groups_append hn (hf x), ih, List.map_cons]

/-! ## Bytes -/

/-- The bits of a byte string. -/
def bits (bytes : List UInt8) : BitString := bytes.flatMap fun b => write 8 b.toNat

/-- The bytes of a bit string. -/
def octets (s : BitString) : List UInt8 := (groups 8 s).map fun o => UInt8.ofNat (value o)

@[simp] theorem bits_nil : bits [] = [] := rfl

theorem bits_cons (b : UInt8) (bytes : List UInt8) :
    bits (b :: bytes) = write 8 b.toNat ++ bits bytes := rfl

theorem bits_append (bytes rest : List UInt8) : bits (bytes ++ rest) = bits bytes ++ bits rest :=
  List.flatMap_append

@[simp] theorem length_bits (bytes : List UInt8) : (bits bytes).length = 8 * bytes.length := by
  induction bytes with
  | nil => rfl
  | cons b bytes ih =>
    rw [bits_cons, List.length_append, ih, length_write, List.length_cons]
    omega

theorem ofNat_value_write (b : UInt8) : UInt8.ofNat (value (write 8 b.toNat)) = b := by
  rw [value_write, UInt8.ofNat_mod_size, UInt8.ofNat_toNat]

theorem octets_bits (bytes : List UInt8) : octets (bits bytes) = bytes := by
  unfold octets bits
  rw [groups_flatMap (by decide) (fun b : UInt8 => write 8 b.toNat) (fun b => length_write 8 _),
    List.map_map]
  calc bytes.map ((fun o => UInt8.ofNat (value o)) ∘ fun b : UInt8 => write 8 b.toNat)
    _ = bytes.map id := List.map_congr_left fun b _ => ofNat_value_write b
    _ = bytes := List.map_id bytes

theorem drop_bits (k : Nat) (bytes : List UInt8) :
    (bits bytes).drop (8 * k) = bits (bytes.drop k) := by
  induction k generalizing bytes with
  | zero => rfl
  | succ k ih =>
    cases bytes with
    | nil => simp
    | cons b bytes =>
      rw [bits_cons, show 8 * (k + 1) = 8 + 8 * k by omega, ← List.drop_drop,
        List.drop_left' (length_write 8 b.toNat), ih, List.drop_succ_cons]

theorem take_bits (k : Nat) (bytes : List UInt8) :
    (bits bytes).take (8 * k) = bits (bytes.take k) := by
  induction k generalizing bytes with
  | zero => rfl
  | succ k ih =>
    cases bytes with
    | nil => simp
    | cons b bytes =>
      rw [bits_cons, show 8 * (k + 1) = 8 + 8 * k by omega, List.take_add,
        List.take_left' (length_write 8 b.toNat), List.drop_left' (length_write 8 b.toNat), ih,
        List.take_succ_cons, bits_cons]

/-- Groups of whole bytes are the bits of groups of bytes. -/
theorem groups_bits (k : Nat) (bytes : List UInt8) :
    groups (8 * k) (bits bytes) = (groups k bytes).map bits := by
  rw [groups, groups, List.map_map, length_bits, Nat.mul_div_mul_left _ _ (by omega)]
  apply List.map_congr_left
  intro i _
  rw [Nat.mul_assoc, drop_bits, take_bits]
  rfl

theorem bits_replicate_zero (n : Nat) :
    bits (List.replicate n 0) = List.replicate (8 * n) false := by
  induction n with
  | zero => rfl
  | succ n ih =>
    rw [List.replicate_succ, bits_cons, ih, show (0 : UInt8).toNat = 0 from rfl, write_zero,
      List.replicate_append_replicate]
    congr 1
    omega

end TradePlat.BitStrings
