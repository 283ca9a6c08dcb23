import TradePlat.Gateway.Handshake
import TradePlat.Lib.SecureHash
import TradePlat.Lib.Base64
import Mathlib.Data.List.GetD

/-!
# The accept key (`TCPServer.cpp`)

The SHA-1 and the Base64 of the handshake are the standard ones: `sha1_eq` and
`base64_eq_rfc` hold for every byte string, so the accept key is the one every client
computes (`websocketAccept_eq`).

The proof follows the code: the padding (`bits_sha1Pad`), the words of a block
(`sha1Word_eq`), the schedule (`sha1Schedule_getD`), the rounds (`sha1Rounds_eq`),
the blocks (`sha1Blocks_eq`), and the bytes of the result.
-/

namespace TradePlat.Gateway
open BitStrings

/-! ## Padding -/

/-- `while ((data.size() % 64) != 56) data.push_back(0)`, on fuel. -/
def pushZeros : Nat → Bytes → Bytes
  | 0, data => data
  | fuel + 1, data => if data.length % 64 ≠ 56 then pushZeros fuel (data ++ [0]) else data

theorem pushZeros_eq {fuel n : Nat} {data : Bytes} (hn : n ≤ fuel)
    (hend : (data.length + n) % 64 = 56) (hbefore : ∀ i < n, (data.length + i) % 64 ≠ 56) :
    pushZeros fuel data = data ++ List.replicate n 0 := by
  induction n generalizing fuel data with
  | zero =>
    rw [List.replicate_zero, List.append_nil]
    cases fuel with
    | zero => rfl
    | succ fuel =>
      have hstop : data.length % 64 = 56 := hend
      rw [pushZeros, if_neg (not_not.mpr hstop)]
  | succ n ih =>
    obtain ⟨fuel, rfl⟩ : ∃ k, fuel = k + 1 := ⟨fuel - 1, by omega⟩
    have hlength : (data ++ [(0 : UInt8)]).length = data.length + 1 := by simp
    have hpush : data.length % 64 ≠ 56 := hbefore 0 (by omega)
    rw [pushZeros, if_pos hpush, ih (by omega), List.append_assoc, List.replicate_succ]
    · rfl
    · rw [hlength]
      omega
    · intro i hi
      have := hbefore (i + 1) (by omega)
      rw [hlength]
      omega

/-- The zeros of `sha1Pad` are those that the loop pushes. -/
theorem sha1Pad_eq_loop (input : Bytes) :
    sha1Pad input = pushZeros 64 (input ++ [0x80]) ++ bigEndian 8 (input.length * 8 % 2 ^ 64) := by
  have hlength : (input ++ [(0x80 : UInt8)]).length = input.length + 1 := by simp
  rw [pushZeros_eq (n := (119 - input.length % 64) % 64)]
  · rfl
  · omega
  · rw [hlength]
    omega
  · intro i hi
    rw [hlength]
    omega

theorem bits_bigEndian (n v : Nat) : bits (bigEndian n v) = write (8 * n) v := by
  induction n with
  | zero => rfl
  | succ n ih =>
    have hbyte : (UInt8.ofNat (v >>> (n * 8))).toNat = v / 2 ^ (8 * n) % 2 ^ 8 := by
      rw [UInt8.toNat_ofNat', Nat.shiftRight_eq_div_pow, Nat.mul_comm n 8]
    rw [bigEndian_succ, bits_cons, ih, hbyte, write_mod (Nat.le_refl 8),
      show 8 * (n + 1) = 8 + 8 * n by omega, write_add]

theorem sha1Pad_length (input : Bytes) : (sha1Pad input).length % 64 = 0 := by
  simp only [sha1Pad, List.length_append, List.length_cons, List.length_nil,
    List.length_replicate, bigEndian_length]
  omega

theorem bits_sha1Pad (input : Bytes) : bits (sha1Pad input) = SecureHash.pad (bits input) := by
  have hone : bits [0x80] = [true] ++ List.replicate 7 false := by decide
  unfold sha1Pad SecureHash.pad
  rw [bits_append, bits_append, bits_append, bits_replicate_zero, bits_bigEndian, length_bits,
    SecureHash.zeros_octets, hone, ← List.replicate_append_replicate, write_mod (Nat.le_refl 64),
    Nat.mul_comm input.length 8]
  simp only [List.append_assoc]

/-! ## Words -/

theorem toNat_word (a b c d : UInt8) :
    value (bits [a, b, c, d]) =
      a.toNat * 2 ^ 24 + (b.toNat * 2 ^ 16 + (c.toNat * 2 ^ 8 + d.toNat)) := by
  simp only [bits_cons, bits_nil, List.append_nil, value_append, value_write, length_write,
    List.length_append, Nat.mod_eq_of_lt (UInt8.toNat_lt _)]

/-- The word of four bytes, as the code puts it together. -/
theorem sha1Word_eq (a b c d : UInt8) :
    (a.toUInt32 <<< 24) ||| (b.toUInt32 <<< 16) ||| (c.toUInt32 <<< 8) ||| d.toUInt32 =
      SecureHash.word (bits [a, b, c, d]) := by
  have ha := a.toNat_lt
  have hb := b.toNat_lt
  have hc := c.toNat_lt
  have hd := d.toNat_lt
  apply UInt32.toNat_inj.mp
  have hword : (SecureHash.word (bits [a, b, c, d])).toNat =
      a.toNat * 2 ^ 24 + (b.toNat * 2 ^ 16 + (c.toNat * 2 ^ 8 + d.toNat)) := by
    rw [SecureHash.word, toNat_word, UInt32.toNat_ofNat', Nat.mod_eq_of_lt (by omega)]
  have hor : ∀ {n x y : Nat}, y < 2 ^ n → x * 2 ^ n ||| y = x * 2 ^ n + y := by
    intro n x y hy
    rw [← Nat.shiftLeft_eq, Nat.shiftLeft_add_eq_or_of_lt hy]
  rw [hword]
  simp only [UInt32.toNat_or, UInt32.toNat_shiftLeft, UInt8.toNat_toUInt32]
  simp only [show (24 : UInt32).toNat % 32 = 24 from rfl, show (16 : UInt32).toNat % 32 = 16 from rfl,
    show (8 : UInt32).toNat % 32 = 8 from rfl, Nat.shiftLeft_eq]
  rw [Nat.mod_eq_of_lt (show a.toNat * 2 ^ 24 < 2 ^ 32 by omega),
    Nat.mod_eq_of_lt (show b.toNat * 2 ^ 16 < 2 ^ 32 by omega),
    Nat.mod_eq_of_lt (show c.toNat * 2 ^ 8 < 2 ^ 32 by omega), Nat.or_assoc, Nat.or_assoc,
    hor hd, hor (show c.toNat * 2 ^ 8 + d.toNat < 2 ^ 16 by omega),
    hor (show b.toNat * 2 ^ 16 + (c.toNat * 2 ^ 8 + d.toNat) < 2 ^ 24 by omega)]

theorem take_four {l : Bytes} {i : Nat} (h : i + 4 ≤ l.length) :
    (l.drop i).take 4 = [l.getD i 0, l.getD (i + 1) 0, l.getD (i + 2) 0, l.getD (i + 3) 0] := by
  rw [List.drop_eq_getElem_cons (show i < l.length by omega),
    List.drop_eq_getElem_cons (show i + 1 < l.length by omega),
    List.drop_eq_getElem_cons (show i + 1 + 1 < l.length by omega),
    List.drop_eq_getElem_cons (show i + 1 + 1 + 1 < l.length by omega),
    List.getD_eq_getElem l 0 (show i < l.length by omega),
    List.getD_eq_getElem l 0 (show i + 1 < l.length by omega),
    List.getD_eq_getElem l 0 (show i + 2 < l.length by omega),
    List.getD_eq_getElem l 0 (show i + 3 < l.length by omega)]
  rfl

/-- The word at position `i` of a block of 64 bytes. -/
theorem sha1Word_getD {block : Bytes} (hblock : block.length = 64) {i : Nat} (hi : i < 16) :
    ((block.getD (i * 4) 0).toUInt32 <<< 24) ||| ((block.getD (i * 4 + 1) 0).toUInt32 <<< 16) |||
        ((block.getD (i * 4 + 2) 0).toUInt32 <<< 8) ||| (block.getD (i * 4 + 3) 0).toUInt32 =
      SecureHash.word (((bits block).drop (32 * i)).take 32) := by
  rw [sha1Word_eq, ← take_four (by omega), show 32 * i = 8 * (i * 4) by omega, drop_bits,
    take_bits 4]

/-! ## Schedule and rounds -/

theorem rol_eq (x n : UInt32) : rol x n = SecureHash.rotl n x := rfl

/-- The words that `sha1Schedule` starts with. -/
theorem sha1Schedule_push {block : BitString} {w : Array UInt32} (hsize : w.size = 16)
    (hfirst : ∀ t < 16, w.getD t 0 = SecureHash.schedule block t) (n : Nat) :
    let extended := (List.range' 16 n).foldl
      (fun w i => w.push (rol (w.getD (i - 3) 0 ^^^ w.getD (i - 8) 0 ^^^ w.getD (i - 14) 0 ^^^
        w.getD (i - 16) 0) 1)) w
    extended.size = 16 + n ∧ ∀ t < 16 + n, extended.getD t 0 = SecureHash.schedule block t := by
  induction n with
  | zero => exact ⟨hsize, hfirst⟩
  | succ n ih =>
    obtain ⟨ihsize, ihwords⟩ := ih
    rw [List.range'_concat, List.foldl_append, Nat.one_mul]
    simp only [List.foldl_cons, List.foldl_nil]
    generalize (List.range' 16 n).foldl _ w = v at ihsize ihwords ⊢
    refine ⟨by rw [Array.size_push, ihsize]; rfl, fun t ht => ?_⟩
    rcases Nat.lt_or_ge t (16 + n) with hlt | hge
    · rw [← ihwords t hlt, Array.getD_eq_getD_getElem?, Array.getElem?_push_lt (by omega),
        ← Array.getElem?_eq_getElem, ← Array.getD_eq_getD_getElem?]
    · obtain rfl : t = v.size := by omega
      rw [Array.getD_eq_getD_getElem?, Array.getElem?_push_size, Option.getD_some, ihsize,
        ihwords (16 + n - 3) (by omega), ihwords (16 + n - 8) (by omega),
        ihwords (16 + n - 14) (by omega), ihwords (16 + n - 16) (by omega), rol_eq,
        ← SecureHash.schedule_later block (show 15 < 16 + n by omega)]

theorem sha1Schedule_getD {block : Bytes} (hblock : block.length = 64) {t : Nat} (ht : t < 80) :
    (sha1Schedule block).getD t 0 = SecureHash.schedule (bits block) t := by
  unfold sha1Schedule
  refine (sha1Schedule_push (by simp) (fun i hi => ?_) 64).2 t ht
  rw [SecureHash.schedule_first _ (by omega), ← sha1Word_getD hblock hi,
    Array.getD_eq_getD_getElem?, List.getElem?_toArray, List.getElem?_map,
    List.getElem?_range hi]
  rfl

/-- The state of the code as a hash value. -/
def Sha1.hash (s : Sha1) : SecureHash.Hash := ⟨s.h0, s.h1, s.h2, s.h3, s.h4⟩

theorem sha1Round_eq {w : Array UInt32} {schedule : Nat → UInt32} {i : Nat}
    (hw : w.getD i 0 = schedule i) (s : Sha1) :
    (sha1Round w s i).hash = SecureHash.round schedule s.hash i := by
  obtain ⟨a, b, c, d, e⟩ := s
  unfold sha1Round SecureHash.round SecureHash.f SecureHash.k Sha1.hash
  simp only [hw, rol_eq]
  by_cases h20 : i < 20
  · simp only [if_pos h20, if_pos (show i ≤ 19 by omega), SecureHash.ch_eq_or]
  · by_cases h40 : i < 40
    · simp only [if_neg h20, if_pos h40, if_neg (show ¬i ≤ 19 by omega),
        if_pos (show i ≤ 39 by omega), SecureHash.parity]
    · by_cases h60 : i < 60
      · simp only [if_neg h20, if_neg h40, if_pos h60, if_neg (show ¬i ≤ 19 by omega),
          if_neg (show ¬i ≤ 39 by omega), if_pos (show i ≤ 59 by omega), SecureHash.maj_eq_or]
      · simp only [if_neg h20, if_neg h40, if_neg h60, if_neg (show ¬i ≤ 19 by omega),
          if_neg (show ¬i ≤ 39 by omega), if_neg (show ¬i ≤ 59 by omega), SecureHash.parity]

theorem sha1Rounds_eq {w : Array UInt32} {schedule : Nat → UInt32} {rounds : List Nat}
    (hw : ∀ i ∈ rounds, w.getD i 0 = schedule i) (s : Sha1) :
    (rounds.foldl (sha1Round w) s).hash = rounds.foldl (SecureHash.round schedule) s.hash := by
  induction rounds generalizing s with
  | nil => rfl
  | cons i rounds ih =>
    rw [List.foldl_cons, List.foldl_cons, ih fun j hj => hw j (List.mem_cons_of_mem i hj),
      sha1Round_eq (hw i List.mem_cons_self)]

theorem sha1Block_eq {block : Bytes} (hblock : block.length = 64) (s : Sha1) :
    (sha1Block s block).hash = SecureHash.compress s.hash (bits block) := by
  have hrounds := sha1Rounds_eq
    (fun i hi => sha1Schedule_getD hblock (List.mem_range.mp hi)) s
  unfold SecureHash.compress
  rw [← hrounds]
  rfl

/-! ## Blocks -/

theorem sha1Blocks_eq {blocks : List Bytes} (hblocks : ∀ b ∈ blocks, b.length = 64) (s : Sha1) :
    (blocks.foldl sha1Block s).hash =
      (blocks.map bits).foldl SecureHash.compress s.hash := by
  induction blocks generalizing s with
  | nil => rfl
  | cons b blocks ih =>
    rw [List.foldl_cons, List.map_cons, List.foldl_cons,
      ih fun c hc => hblocks c (List.mem_cons_of_mem b hc), sha1Block_eq (hblocks b List.mem_cons_self)]

theorem sha1_eq (input : Bytes) : sha1 input = SecureHash.sha1 input := by
  have hgroups : groups 512 (SecureHash.pad (bits input)) =
      (groups 64 (sha1Pad input)).map bits := by
    rw [← bits_sha1Pad, show 512 = 8 * 64 from rfl, groups_bits]
  have hblocks : ((groups 64 (sha1Pad input)).foldl sha1Block sha1Init).hash =
      (groups 512 (SecureHash.pad (bits input))).foldl SecureHash.compress SecureHash.initial := by
    rw [sha1Blocks_eq fun b hb => length_of_mem_groups hb, hgroups]
    rfl
  have hcode : (groups 64 (sha1Pad input)).foldl sha1Block sha1Init =
      (List.range ((sha1Pad input).length / 64)).foldl
        (fun s i => sha1Block s (((sha1Pad input).drop (i * 64)).take 64)) sha1Init := by
    rw [groups, List.foldl_map]
    simp only [Nat.mul_comm 64]
  unfold SecureHash.sha1 SecureHash.digest sha1
  simp only [← hblocks, ← hcode]
  generalize (groups 64 (sha1Pad input)).foldl sha1Block sha1Init = s
  have hword : ∀ h : UInt32, write 32 h.toNat = bits (bigEndian 4 h.toNat) := fun h =>
    (bits_bigEndian 4 h.toNat).symm
  simp only [Sha1.hash, List.flatMap_cons, List.flatMap_nil, List.append_nil, hword,
    ← bits_append, octets_bits]

/-- **The hand-written SHA-1 is the standard one**: of every byte string it is the
digest of FIPS 180-4; the padded buffer is a whole number of blocks, so no byte that a
block reads is outside it. -/
theorem sha1_meets_fips (input : Bytes) :
    sha1 input = SecureHash.sha1 input ∧
      (sha1Pad input).length % 64 = 0 ∧
      ∀ chunk < (sha1Pad input).length, chunk % 64 = 0 →
        ∀ j < 64, chunk + j < (sha1Pad input).length := by
  have hpad := sha1Pad_length input
  exact ⟨sha1_eq input, hpad, fun chunk hchunk haligned j hj => by omega⟩

/-! ## Base64 -/

theorem base64Char_eq (n : Nat) : base64Char n = Base64.sextet n := by
  have htable : base64Table = Base64.alphabet := by decide
  rw [base64Char, htable, Base64.sextet]

/-- **The hand-written Base64 is the standard one.** -/
theorem base64_eq_rfc (data : Bytes) : base64 data = Base64.encode data := by
  induction data using base64.induct with
  | case1 => rfl
  | case2 a =>
    rw [Base64.encode_one, base64]
    simp only [base64Char_eq]
  | case3 a b =>
    rw [Base64.encode_two, base64]
    simp only [base64Char_eq]
  | case4 a b c rest ih =>
    rw [Base64.encode_quantum, base64, ih]
    simp only [base64Char_eq]

/-- The accept key is the one of the protocol. -/
theorem websocketAccept_eq (key : Bytes) :
    websocketAccept key = Base64.encode (SecureHash.sha1 (key ++ wsGuid)) := by
  rw [websocketAccept, base64_eq_rfc, sha1_eq]

end TradePlat.Gateway
