import TradePlat.Lib.BitStrings
import Mathlib.Algebra.Order.Group.Nat

/-!
# SHA-1

The hash function of FIPS 180-4 on bit strings: the padding of section 5.1.1, the
parsing of section 5.2.1, and the computation of section 6.1.2 on 32-bit words. A
digest is 160 bits; `sha1` reads its octets.
-/

namespace TradePlat.SecureHash
open BitStrings

/-! ## Preprocessing -/

theorem exists_zeros (ℓ : Nat) : ∃ k, (ℓ + 1 + k) % 512 = 448 :=
  ⟨959 - ℓ % 512, by omega⟩

/-- The smallest `k` with `ℓ + 1 + k ≡ 448` modulo 512. -/
def zeros (ℓ : Nat) : Nat := Nat.find (exists_zeros ℓ)

theorem zeros_spec (ℓ : Nat) : (ℓ + 1 + zeros ℓ) % 512 = 448 := Nat.find_spec (exists_zeros ℓ)

theorem zeros_eq {ℓ k : Nat} (hk : k < 512) (h : (ℓ + 1 + k) % 512 = 448) : zeros ℓ = k := by
  have hle : zeros ℓ ≤ k := Nat.find_min' _ h
  have hspec := zeros_spec ℓ
  omega

/-- The padded message: a one, the zeros, and the length of the message in 64 bits. -/
def pad (m : BitString) : BitString :=
  m ++ ([true] ++ (List.replicate (zeros m.length) false ++ write 64 m.length))

/-- The word that a string of 32 bits writes. -/
def word (s : BitString) : UInt32 := UInt32.ofNat (value s)

/-! ## Computation -/

def rotl (n x : UInt32) : UInt32 := (x <<< n) ||| (x >>> (32 - n))

def ch (x y z : UInt32) : UInt32 := (x &&& y) ^^^ (~~~x &&& z)

def parity (x y z : UInt32) : UInt32 := x ^^^ y ^^^ z

def maj (x y z : UInt32) : UInt32 := (x &&& y) ^^^ (x &&& z) ^^^ (y &&& z)

/-- The function of round `t`. -/
def f (t : Nat) : UInt32 → UInt32 → UInt32 → UInt32 :=
  if t ≤ 19 then ch else if t ≤ 39 then parity else if t ≤ 59 then maj else parity

/-- The constant of round `t`. -/
def k (t : Nat) : UInt32 :=
  if t ≤ 19 then 0x5a827999
  else if t ≤ 39 then 0x6ed9eba1
  else if t ≤ 59 then 0x8f1bbcdc
  else 0xca62c1d6

/-- The message schedule of a block of 512 bits. -/
def schedule (block : BitString) (t : Nat) : UInt32 :=
  if t ≤ 15 then word ((block.drop (32 * t)).take 32)
  else rotl 1 (schedule block (t - 3) ^^^ schedule block (t - 8) ^^^ schedule block (t - 14) ^^^
    schedule block (t - 16))

theorem schedule_first (block : BitString) {t : Nat} (h : t ≤ 15) :
    schedule block t = word ((block.drop (32 * t)).take 32) := by
  rw [schedule, if_pos h]

theorem schedule_later (block : BitString) {t : Nat} (h : 15 < t) :
    schedule block t = rotl 1 (schedule block (t - 3) ^^^ schedule block (t - 8) ^^^
      schedule block (t - 14) ^^^ schedule block (t - 16)) := by
  rw [schedule, if_neg (by omega)]

/-- The working variables, and the hash value. -/
structure Hash where
  a : UInt32
  b : UInt32
  c : UInt32
  d : UInt32
  e : UInt32

def Hash.add (h g : Hash) : Hash := ⟨h.a + g.a, h.b + g.b, h.c + g.c, h.d + g.d, h.e + g.e⟩

def initial : Hash := ⟨0x67452301, 0xefcdab89, 0x98badcfe, 0x10325476, 0xc3d2e1f0⟩

/-- Round `t`, with the schedule `w`. -/
def round (w : Nat → UInt32) (s : Hash) (t : Nat) : Hash :=
  ⟨rotl 5 s.a + f t s.b s.c s.d + s.e + k t + w t, s.a, rotl 30 s.b, s.c, s.d⟩

/-- One block. -/
def compress (h : Hash) (block : BitString) : Hash :=
  h.add ((List.range 80).foldl (round (schedule block)) h)

def digest (m : BitString) : BitString :=
  let h := (groups 512 (pad m)).foldl compress initial
  [h.a, h.b, h.c, h.d, h.e].flatMap fun x => write 32 x.toNat

/-- The octets of the digest of a message of octets. -/
def sha1 (message : List UInt8) : List UInt8 := octets (digest (bits message))

/-! ## Messages of octets -/

/-- The zeros behind the one bit of a message of octets fill whole octets. -/
theorem zeros_octets (n : Nat) : zeros (8 * n) = 7 + 8 * ((119 - n % 64) % 64) :=
  zeros_eq (by omega) (by omega)

/-- A round function as a disjunction. -/
theorem ch_eq_or (x y z : UInt32) : ch x y z = (x &&& y) ||| (~~~x &&& z) := by
  apply UInt32.toBitVec_inj.mp
  apply BitVec.eq_of_getLsbD_eq
  intro i hi
  simp only [ch, UInt32.toBitVec_xor, UInt32.toBitVec_or, UInt32.toBitVec_and,
    UInt32.toBitVec_not, BitVec.getLsbD_xor, BitVec.getLsbD_or, BitVec.getLsbD_and,
    BitVec.getLsbD_not, hi, decide_true, Bool.true_and]
  cases x.toBitVec.getLsbD i <;> cases y.toBitVec.getLsbD i <;>
    cases z.toBitVec.getLsbD i <;> rfl

theorem maj_eq_or (x y z : UInt32) : maj x y z = (x &&& y) ||| (x &&& z) ||| (y &&& z) := by
  apply UInt32.toBitVec_inj.mp
  apply BitVec.eq_of_getLsbD_eq
  intro i _
  simp only [maj, UInt32.toBitVec_xor, UInt32.toBitVec_or, UInt32.toBitVec_and,
    BitVec.getLsbD_xor, BitVec.getLsbD_or, BitVec.getLsbD_and]
  cases x.toBitVec.getLsbD i <;> cases y.toBitVec.getLsbD i <;>
    cases z.toBitVec.getLsbD i <;> rfl

end TradePlat.SecureHash
