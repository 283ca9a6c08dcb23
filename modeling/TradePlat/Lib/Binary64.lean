import Mathlib.Order.Monotone.Basic
import Mathlib.Data.Nat.Log
import Mathlib.Tactic.Linarith
import Mathlib.Tactic.Ring

/-!
# Binary64

A double is its 64 bits. The bits below the sign, read as a number, are its
`magnitude`: they order the finite doubles and the infinity, and everything above
the infinity is a NaN. `units m` is the value of magnitude `m` in units of
`2 ^ -1074`, in which every finite double is an integer, so a sum is exact before
it is rounded. Rounding is to the nearest, ties to even; it is monotone
(`roundMagnitude_mono`) and exact on what is representable
(`roundMagnitude_units`), which is all that `le_add` and `sub_le` need. A double that
is rounded to an integer is a double again (`exists_units_roundQuotient`).
-/

namespace TradePlat.Binary64

/-! ## Magnitudes and their values -/

/-- The value of the magnitude `m`, in units of `2 ^ -1074`. -/
def units (m : Nat) : Nat :=
  if m / 2 ^ 52 = 0 then m % 2 ^ 52 else (2 ^ 52 + m % 2 ^ 52) * 2 ^ (m / 2 ^ 52 - 1)

theorem units_normal (k f : Nat) (hf : f ≤ 2 ^ 52) :
    units ((k + 1) * 2 ^ 52 + f) = (2 ^ 52 + f) * 2 ^ k := by
  unfold units
  rcases Nat.lt_or_eq_of_le hf with hf | rfl
  · have hdiv : ((k + 1) * 2 ^ 52 + f) / 2 ^ 52 = k + 1 := by omega
    have hmod : ((k + 1) * 2 ^ 52 + f) % 2 ^ 52 = f := by omega
    rw [hdiv, hmod, if_neg (by omega), Nat.add_sub_cancel]
  · have hdiv : ((k + 1) * 2 ^ 52 + 2 ^ 52) / 2 ^ 52 = k + 2 := by omega
    have hmod : ((k + 1) * 2 ^ 52 + 2 ^ 52) % 2 ^ 52 = 0 := by omega
    rw [hdiv, hmod, if_neg (by omega)]
    have hdouble : 2 ^ (k + 2 - 1) = 2 * 2 ^ k := by
      rw [show k + 2 - 1 = k + 1 by omega, Nat.pow_succ]
      ring
    rw [hdouble]
    ring

theorem units_small {m : Nat} (h : m ≤ 2 ^ 53) : units m = m := by
  rcases Nat.lt_or_ge m (2 ^ 52) with hm | hm
  · unfold units
    rw [if_pos (by omega)]
    omega
  · obtain ⟨f, rfl⟩ : ∃ f, m = (0 + 1) * 2 ^ 52 + f := ⟨m - 2 ^ 52, by omega⟩
    rw [units_normal 0 f (by omega)]
    omega

theorem units_lt_succ (m : Nat) : units m < units (m + 1) := by
  rcases Nat.lt_or_ge m (2 ^ 52) with hm | hm
  · rw [units_small (by omega), units_small (by omega)]
    exact Nat.lt_succ_self m
  · obtain ⟨k, f, hf, rfl⟩ : ∃ k f, f < 2 ^ 52 ∧ m = (k + 1) * 2 ^ 52 + f :=
      ⟨m / 2 ^ 52 - 1, m % 2 ^ 52, Nat.mod_lt _ (by omega), by omega⟩
    rw [units_normal k f hf.le, Nat.add_assoc, units_normal k (f + 1) hf]
    exact Nat.mul_lt_mul_of_pos_right (by omega) (Nat.two_pow_pos k)

theorem units_strictMono : StrictMono units := strictMono_nat_of_lt_succ units_lt_succ

/-! ## Rounding -/

/-- The greatest magnitude of value at most `n`. -/
def floorMagnitude (n : Nat) : Nat := (n.log2 - 52) * 2 ^ 52 + n / 2 ^ (n.log2 - 52)

theorem floorMagnitude_spec (n : Nat) :
    units (floorMagnitude n) ≤ n ∧ n < units (floorMagnitude n + 1) := by
  unfold floorMagnitude
  rw [Nat.log2_eq_log_two]
  rcases Nat.lt_or_ge n (2 ^ 53) with hn | hn
  · have hk : Nat.log 2 n - 52 = 0 := by
      rcases Nat.eq_zero_or_pos n with rfl | hpos
      · simp
      · have := Nat.log_lt_of_lt_pow hpos.ne' hn
        omega
    rw [hk, Nat.zero_mul, Nat.pow_zero, Nat.div_one, Nat.zero_add, units_small hn.le,
      units_small (by omega)]
    omega
  · obtain ⟨k, hk⟩ : ∃ k, Nat.log 2 n = k + 52 :=
      ⟨Nat.log 2 n - 52, by have := Nat.le_log_of_pow_le (by omega) hn; omega⟩
    have hlo : 2 ^ (k + 52) ≤ n := hk ▸ Nat.pow_log_le_self 2 (by omega)
    have hhi : n < 2 ^ (k + 52 + 1) := hk ▸ Nat.lt_pow_succ_log_self (by omega) n
    have hpos := Nat.two_pow_pos k
    -- the leading 53 bits of `n`
    have hq₁ : 2 ^ 52 ≤ n / 2 ^ k := by
      rw [Nat.le_div_iff_mul_le hpos, ← Nat.pow_add, Nat.add_comm]
      exact hlo
    have hq₂ : n / 2 ^ k < 2 ^ 53 := by
      rw [Nat.div_lt_iff_lt_mul hpos, ← Nat.pow_add, Nat.add_comm]
      exact hhi
    have hdiv := Nat.div_add_mod n (2 ^ k)
    have hmod := Nat.mod_lt n hpos
    generalize hq : n / 2 ^ k = q at *
    obtain ⟨f, rfl⟩ : ∃ f, q = 2 ^ 52 + f := ⟨q - 2 ^ 52, by omega⟩
    have hm : (k + 52 - 52) * 2 ^ 52 + n / 2 ^ (k + 52 - 52) = (k + 1) * 2 ^ 52 + f := by
      rw [Nat.add_sub_cancel, hq]
      ring
    rw [hk, hm, units_normal k f (by omega), Nat.add_assoc, units_normal k (f + 1) (by omega)]
    constructor
    · calc (2 ^ 52 + f) * 2 ^ k = 2 ^ k * (2 ^ 52 + f) := Nat.mul_comm _ _
        _ ≤ n := by omega
    · calc n < 2 ^ k * (2 ^ 52 + f) + 2 ^ k := by omega
        _ = (2 ^ 52 + (f + 1)) * 2 ^ k := by ring

/-- The magnitude of value nearest to `n`, the even one of two. -/
def roundMagnitude (n : Nat) : Nat :=
  let m := floorMagnitude n
  if 2 * n < units m + units (m + 1) then m
  else if units m + units (m + 1) < 2 * n then m + 1
  else if m % 2 = 0 then m else m + 1

theorem roundMagnitude_units (m : Nat) : roundMagnitude (units m) = m := by
  have hfloor : floorMagnitude (units m) = m := by
    obtain ⟨h₁, h₂⟩ := floorMagnitude_spec (units m)
    have := units_strictMono.le_iff_le.mp h₁
    have := units_strictMono.lt_iff_lt.mp h₂
    omega
  have := units_lt_succ m
  unfold roundMagnitude
  rw [hfloor, if_pos (by omega)]

theorem roundMagnitude_mono : Monotone roundMagnitude := by
  intro n n' h
  obtain ⟨h₁, h₂⟩ := floorMagnitude_spec n
  obtain ⟨h₁', h₂'⟩ := floorMagnitude_spec n'
  have hfloor : floorMagnitude n < floorMagnitude n' + 1 :=
    units_strictMono.lt_iff_lt.mp (h₁.trans_lt (h.trans_lt h₂'))
  unfold roundMagnitude
  dsimp only
  rcases Nat.lt_or_eq_of_le (Nat.le_of_lt_succ hfloor) with hlt | heq
  · split_ifs <;> omega
  · rw [heq]
    split_ifs <;> omega

/-- The same for the quotient `n / d`. -/
def roundRatio (n d : Nat) : Nat :=
  let m := floorMagnitude (n / d)
  if 2 * n < (units m + units (m + 1)) * d then m
  else if (units m + units (m + 1)) * d < 2 * n then m + 1
  else if m % 2 = 0 then m else m + 1

theorem roundRatio_one (n : Nat) : roundRatio n 1 = roundMagnitude n := by
  simp only [roundRatio, roundMagnitude, Nat.div_one, Nat.mul_one]

/-! ## Integers -/

/-- The integer nearest to `n / d`, the even one of two. -/
def roundQuotient (n d : Nat) : Nat :=
  if 2 * (n % d) < d then n / d
  else if d < 2 * (n % d) then n / d + 1
  else if n / d % 2 = 0 then n / d else n / d + 1

theorem roundQuotient_le (n d : Nat) : roundQuotient n d ≤ n / d + 1 := by
  unfold roundQuotient
  split_ifs <;> omega

theorem roundQuotient_mul (q : Nat) {d : Nat} (h : 0 < d) : roundQuotient (q * d) d = q := by
  unfold roundQuotient
  rw [Nat.mul_mod_left, Nat.mul_div_cancel _ h, if_pos (by omega)]

theorem exists_units_double (m : Nat) : ∃ m', units m' = 2 * units m := by
  rcases Nat.lt_or_ge m (2 ^ 52) with hm | hm
  · exact ⟨2 * m, by rw [units_small (by omega), units_small (by omega)]⟩
  · obtain ⟨k, f, hf, rfl⟩ : ∃ k f, f < 2 ^ 52 ∧ m = (k + 1) * 2 ^ 52 + f :=
      ⟨m / 2 ^ 52 - 1, m % 2 ^ 52, Nat.mod_lt _ (by omega), by omega⟩
    refine ⟨(k + 1 + 1) * 2 ^ 52 + f, ?_⟩
    rw [units_normal (k + 1) f hf.le, units_normal k f hf.le, Nat.pow_succ]
    ring

/-- Numbers of 53 bits are representable, at every scale. -/
theorem exists_units {n : Nat} (hn : n ≤ 2 ^ 53) (k : Nat) : ∃ m, units m = n * 2 ^ k := by
  induction k with
  | zero => exact ⟨n, by rw [units_small hn, Nat.pow_zero, Nat.mul_one]⟩
  | succ k ih =>
    obtain ⟨m, hm⟩ := ih
    obtain ⟨m', hm'⟩ := exists_units_double m
    exact ⟨m', by rw [hm', hm, Nat.pow_succ]; ring⟩

/-- A number of 53 bits stays below a power of two that is far enough up. -/
theorem lt_of_scale {m n k j : Nat} (hn : n ≤ 2 ^ 53) (hkj : k + 1 < j)
    (h : units m = n * 2 ^ k) : m < (j + 1) * 2 ^ 52 := by
  have htop := units_normal j 0 (Nat.zero_le _)
  rw [Nat.add_zero, Nat.add_zero] at htop
  have hpow : 2 ^ (k + 1) < 2 ^ j := Nat.pow_lt_pow_right (by omega) hkj
  rw [← units_strictMono.lt_iff_lt, h, htop]
  calc n * 2 ^ k ≤ 2 ^ 53 * 2 ^ k := Nat.mul_le_mul_right _ hn
    _ = 2 ^ 52 * 2 ^ (k + 1) := by rw [Nat.pow_succ 2 52, Nat.pow_succ 2 k]; ring
    _ < 2 ^ 52 * 2 ^ j := Nat.mul_lt_mul_of_pos_left hpow (Nat.two_pow_pos 52)

/-- A double of more than 53 bits is a multiple of its last place. -/
theorem pow_dvd_units {m k : Nat} (h : 2 ^ 53 * 2 ^ k ≤ units m) : 2 ^ k ∣ units m := by
  have hk := Nat.two_pow_pos k
  rcases Nat.lt_or_ge m (2 ^ 52) with hm | hm
  · rw [units_small (by omega)] at h
    have : 2 ^ 53 * 1 ≤ 2 ^ 53 * 2 ^ k := Nat.mul_le_mul_left _ hk
    omega
  · obtain ⟨j, f, hf, rfl⟩ : ∃ j f, f < 2 ^ 52 ∧ m = (j + 1) * 2 ^ 52 + f :=
      ⟨m / 2 ^ 52 - 1, m % 2 ^ 52, Nat.mod_lt _ (by omega), by omega⟩
    rw [units_normal j f hf.le] at h ⊢
    rcases Nat.lt_or_ge j k with hjk | hjk
    · have hlt : (2 ^ 52 + f) * 2 ^ j < 2 ^ 53 * 2 ^ k :=
        Nat.mul_lt_mul_of_lt_of_le (by omega) (Nat.pow_le_pow_right (by omega) hjk.le) hk
      omega
    · exact Dvd.dvd.mul_left (Nat.pow_dvd_pow 2 hjk) _

/-! ## Doubles -/

structure Double where
  bits : UInt64
  deriving DecidableEq, Repr

/-- The magnitude of the infinities. -/
def infMagnitude : Nat := 0x7FF0000000000000

/-- A finite double is finite after it is rounded to a multiple of `2 ^ k`. -/
theorem exists_units_roundQuotient {m k : Nat} (hk : k + 1 < 2046) (h : m < infMagnitude) :
    ∃ m' < infMagnitude, units m' = roundQuotient (units m) (2 ^ k) * 2 ^ k := by
  rcases Nat.lt_or_ge (units m / 2 ^ k) (2 ^ 53) with hsmall | hlarge
  · have hle := roundQuotient_le (units m) (2 ^ k)
    have hbits : roundQuotient (units m) (2 ^ k) ≤ 2 ^ 53 := by omega
    obtain ⟨m', hm'⟩ := exists_units hbits k
    exact ⟨m', lt_of_scale hbits hk hm', hm'⟩
  · obtain ⟨q, hq⟩ := pow_dvd_units ((Nat.le_div_iff_mul_le (Nat.two_pow_pos k)).mp hlarge)
    refine ⟨m, h, ?_⟩
    rw [hq, Nat.mul_comm, roundQuotient_mul q (Nat.two_pow_pos k)]

namespace Double

def negative (a : Double) : Bool := 2 ^ 63 ≤ a.bits.toNat
def magnitude (a : Double) : Nat := a.bits.toNat % 2 ^ 63

def IsNaN (a : Double) : Prop := infMagnitude < a.magnitude
def IsFinite (a : Double) : Prop := a.magnitude < infMagnitude

instance (a : Double) : Decidable a.IsNaN := inferInstanceAs (Decidable (_ < _))
instance (a : Double) : Decidable a.IsFinite := inferInstanceAs (Decidable (_ < _))

theorem IsFinite.not_nan {a : Double} (h : a.IsFinite) : ¬ a.IsNaN := Nat.lt_asymm h

/-- The position of a double that is not a NaN: the two zeros share one. -/
def key (a : Double) : Int := if a.negative then -(a.magnitude : Int) else a.magnitude

/-- `a < b`, false where either is a NaN. -/
instance : LT Double := ⟨fun a b => ¬ a.IsNaN ∧ ¬ b.IsNaN ∧ a.key < b.key⟩

/-- `a <= b`, false where either is a NaN. -/
instance : LE Double := ⟨fun a b => ¬ a.IsNaN ∧ ¬ b.IsNaN ∧ a.key ≤ b.key⟩

/-- `a == b`: the two zeros are equal, a NaN equals nothing. -/
def Eqv (a b : Double) : Prop := ¬ a.IsNaN ∧ ¬ b.IsNaN ∧ a.key = b.key

instance : DecidableLT Double := fun a b =>
  inferInstanceAs (Decidable (¬ a.IsNaN ∧ ¬ b.IsNaN ∧ a.key < b.key))
instance : DecidableLE Double := fun a b =>
  inferInstanceAs (Decidable (¬ a.IsNaN ∧ ¬ b.IsNaN ∧ a.key ≤ b.key))
instance (a b : Double) : Decidable (a.Eqv b) :=
  inferInstanceAs (Decidable (¬ a.IsNaN ∧ ¬ b.IsNaN ∧ a.key = b.key))

theorem lt_def {a b : Double} : a < b ↔ ¬ a.IsNaN ∧ ¬ b.IsNaN ∧ a.key < b.key := Iff.rfl
theorem le_def {a b : Double} : a ≤ b ↔ ¬ a.IsNaN ∧ ¬ b.IsNaN ∧ a.key ≤ b.key := Iff.rfl

/-- The double of a sign and a magnitude. -/
def make (negative : Bool) (m : Nat) : Double :=
  ⟨UInt64.ofNat (if negative then 2 ^ 63 + m else m)⟩

def zero : Double := make false 0
def inf : Double := make false infMagnitude
def nan : Double := make false 0x7FF8000000000000

theorem make_toNat {negative : Bool} {m : Nat} (h : m < 2 ^ 63) :
    (make negative m).bits.toNat = if negative then 2 ^ 63 + m else m := by
  unfold make
  rw [UInt64.toNat_ofNat_of_lt']
  cases negative
  · exact h.trans (by decide)
  · exact Nat.lt_of_lt_of_le (Nat.add_lt_add_left h _) (by decide)

theorem make_magnitude {negative : Bool} {m : Nat} (h : m < 2 ^ 63) :
    (make negative m).magnitude = m := by
  rw [magnitude, make_toNat h]
  cases negative
  · exact Nat.mod_eq_of_lt h
  · simpa using Nat.mod_eq_of_lt h

theorem make_negative {b : Bool} {m : Nat} (h : m < 2 ^ 63) :
    (make b m).negative = b := by
  rw [negative, make_toNat h]
  cases b
  · simpa using h
  · simp

/-! ## Sums -/

/-- The value of a finite double, in units of `2 ^ -1074`. -/
def value (a : Double) : Int :=
  if a.negative then -(units a.magnitude : Int) else units a.magnitude

/-- The integer nearest to a finite double, without its sign. -/
def nearest (a : Double) : Nat := roundQuotient (units a.magnitude) (2 ^ 1074)

/-- `b` is the integer nearest to `a`, exactly. An infinity is its own. -/
structure IsRounded (a b : Double) : Prop where
  negative : b.negative = a.negative
  finite : a.IsFinite → b.IsFinite ∧ units b.magnitude = a.nearest * 2 ^ 1074
  infinite : ¬ a.IsFinite → b.magnitude = a.magnitude

theorem eq_of_magnitude {a b : Double} (hneg : a.negative = b.negative)
    (hmag : a.magnitude = b.magnitude) : a = b := by
  have ha := UInt64.toNat_lt a.bits
  have hb := UInt64.toNat_lt b.bits
  have hbits : a.bits.toNat = b.bits.toNat := by
    simp only [negative, decide_eq_decide] at hneg
    simp only [magnitude] at hmag
    omega
  cases a
  cases b
  exact congrArg Double.mk (UInt64.toNat_inj.mp hbits)

/-- There is one such double. -/
theorem IsRounded.unique {a b b' : Double} (h : a.IsRounded b) (h' : a.IsRounded b') : b = b' := by
  refine eq_of_magnitude (h.negative.trans h'.negative.symm) ?_
  by_cases hfin : a.IsFinite
  · exact units_strictMono.injective ((h.finite hfin).2.trans (h'.finite hfin).2.symm)
  · exact (h.infinite hfin).trans (h'.infinite hfin).symm

/-- The double nearest to `z` units, an infinity where the nearest is beyond the range. -/
def ofValue (z : Int) : Double := make (z < 0) (min (roundMagnitude z.natAbs) infMagnitude)

def add (a b : Double) : Double :=
  if a.IsNaN ∨ b.IsNaN then nan
  else if ¬ a.IsFinite then
    if ¬ b.IsFinite ∧ a.negative ≠ b.negative then nan else a
  else if ¬ b.IsFinite then b
  else if a.value + b.value = 0 then make (a.negative && b.negative) 0
  else ofValue (a.value + b.value)

def neg (a : Double) : Double := make (!a.negative) a.magnitude

def sub (a b : Double) : Double := add a b.neg

theorem magnitude_lt (a : Double) : a.magnitude < 2 ^ 63 := Nat.mod_lt _ (by decide)

theorem neg_value (a : Double) : a.neg.value = -a.value := by
  unfold value neg
  rw [make_negative a.magnitude_lt, make_magnitude a.magnitude_lt]
  cases a.negative <;> simp

theorem neg_isFinite {a : Double} : a.neg.IsFinite ↔ a.IsFinite := by
  unfold IsFinite neg
  rw [make_magnitude a.magnitude_lt]

theorem ofValue_key (z : Int) :
    (ofValue z).key =
      if z < 0 then -((min (roundMagnitude z.natAbs) infMagnitude : Nat) : Int)
      else (min (roundMagnitude z.natAbs) infMagnitude : Nat) := by
  have hm : min (roundMagnitude z.natAbs) infMagnitude < 2 ^ 63 :=
    Nat.lt_of_le_of_lt (Nat.min_le_right _ _) (by decide)
  unfold ofValue key
  rw [make_negative hm, make_magnitude hm]
  simp

theorem ofValue_not_nan (z : Int) : ¬ (ofValue z).IsNaN := by
  unfold IsNaN ofValue
  rw [make_magnitude (Nat.lt_of_le_of_lt (Nat.min_le_right _ _) (by decide))]
  omega

/-- Rounding is monotone. -/
theorem ofValue_mono {z z' : Int} (h : z ≤ z') : (ofValue z).key ≤ (ofValue z').key := by
  rw [ofValue_key, ofValue_key]
  have hzero : roundMagnitude 0 = 0 := roundMagnitude_units 0
  rcases Int.lt_or_le z 0 with hz | hz
  · rcases Int.lt_or_le z' 0 with hz' | hz'
    · have := roundMagnitude_mono (show z'.natAbs ≤ z.natAbs by omega)
      rw [if_pos hz, if_pos hz']
      omega
    · rw [if_pos hz, if_neg (by omega)]
      omega
  · have := roundMagnitude_mono (show z.natAbs ≤ z'.natAbs by omega)
    rw [if_neg (by omega), if_neg (by omega)]
    omega

/-- Rounding gives a finite double back. -/
theorem ofValue_value {a : Double} (h : a.IsFinite) : (ofValue a.value).key = a.key := by
  have hround : roundMagnitude a.value.natAbs = a.magnitude := by
    have : a.value.natAbs = units a.magnitude := by
      unfold value
      split <;> omega
    rw [this, roundMagnitude_units]
  have hle : a.magnitude < infMagnitude := h
  rw [ofValue_key, hround, Nat.min_eq_left hle.le]
  unfold key value
  have hpos : a.magnitude = 0 ∨ 0 < units a.magnitude := by
    rcases Nat.eq_zero_or_pos a.magnitude with h | h
    · exact Or.inl h
    · exact Or.inr (Nat.lt_of_le_of_lt (Nat.zero_le _) (units_strictMono h))
  cases a.negative
  · rw [if_neg (by simp), if_neg (by simp)]
  · rcases hpos with h | h
    · simp [h]
    · rw [if_pos (by simpa using h), if_pos rfl]

/-- The sum of finite doubles is the rounded exact sum, up to the sign of a zero. -/
theorem add_key {a b : Double} (ha : a.IsFinite) (hb : b.IsFinite) :
    ¬ (a.add b).IsNaN ∧ (a.add b).key = (ofValue (a.value + b.value)).key := by
  unfold add
  rw [if_neg (not_or.mpr ⟨ha.not_nan, hb.not_nan⟩), if_neg (not_not.mpr ha),
    if_neg (not_not.mpr hb)]
  split
  · rename_i hz
    have hkey : (ofValue (0 : Int)).key = 0 := by decide
    rw [hz, hkey, IsNaN, key, make_negative (by decide), make_magnitude (by decide)]
    refine ⟨by decide, ?_⟩
    split <;> rfl
  · exact ⟨ofValue_not_nan _, rfl⟩

/-- Adding a non-negative amount does not lower a finite double. -/
theorem le_add {a b : Double} (ha : a.IsFinite) (hb : b.IsFinite) (h : 0 ≤ b.value) :
    a ≤ a.add b := by
  obtain ⟨hnan, hkey⟩ := add_key ha hb
  refine le_def.mpr ⟨ha.not_nan, hnan, ?_⟩
  rw [hkey, ← ofValue_value ha]
  exact ofValue_mono (by omega)

/-- Subtracting a non-negative amount does not raise a finite double. -/
theorem sub_le {a b : Double} (ha : a.IsFinite) (hb : b.IsFinite) (h : 0 ≤ b.value) :
    a.sub b ≤ a := by
  obtain ⟨hnan, hkey⟩ := add_key ha (neg_isFinite.mpr hb)
  refine le_def.mpr ⟨hnan, ha.not_nan, ?_⟩
  rw [← ofValue_value ha]
  refine hkey.trans_le (ofValue_mono ?_)
  rw [neg_value]
  omega

end Double

end TradePlat.Binary64
