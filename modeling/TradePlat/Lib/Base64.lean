import TradePlat.Lib.BitStrings

/-!
# Base64

The encoding of RFC 4648, section 4: the bits of the input, with zero bits added on
the right up to a multiple of 6, are cut into groups of 6 that index the alphabet,
and the text is filled with `=` up to a multiple of 4 characters.

`encode_quantum`, `encode_one` and `encode_two` give it quantum by quantum.
-/

namespace TradePlat.Base64
open BitStrings

/-- The alphabet, in ASCII: `A` to `Z`, `a` to `z`, `0` to `9`, `+` and `/`. -/
def alphabet : List UInt8 :=
  (List.range' 65 26 ++ List.range' 97 26 ++ List.range' 48 10 ++ [43, 47]).map UInt8.ofNat

def character (group : BitString) : UInt8 := alphabet.getD (value group) 0

def encode (bytes : List UInt8) : List UInt8 :=
  let s := bits bytes
  let text := (groups 6 (s ++ List.replicate ((6 - s.length % 6) % 6) false)).map character
  text ++ List.replicate ((4 - text.length % 4) % 4) 61

/-- The character for the last 6 bits of a number. -/
def sextet (v : Nat) : UInt8 := alphabet.getD (v % 64) 0

theorem character_write (v : Nat) : character (write 6 v) = sextet v := by
  rw [character, value_write]
  rfl

/-! ## Bits of a quantum -/

theorem bits_one (a : UInt8) :
    bits [a] ++ List.replicate 4 false =
      write 6 (a.toNat * 2 ^ 16 / 2 ^ 18) ++ write 6 (a.toNat * 2 ^ 16 / 2 ^ 12) := by
  have hvalue : write 12 (a.toNat * 2 ^ 4) = write 8 a.toNat ++ write 4 0 := by
    rw [write_add 8 4, Nat.mul_div_cancel _ (by decide), ← write_mod (Nat.le_refl 4),
      Nat.mul_mod_left]
  rw [bits_cons, bits_nil, List.append_nil, ← write_zero, ← hvalue, write_add 6 6,
    show a.toNat * 2 ^ 4 / 2 ^ 6 = a.toNat * 2 ^ 16 / 2 ^ 18 by omega,
    show a.toNat * 2 ^ 16 / 2 ^ 12 = a.toNat * 2 ^ 4 by omega]

theorem bits_two (a b : UInt8) :
    bits [a, b] ++ List.replicate 2 false =
      write 6 ((a.toNat * 2 ^ 16 + b.toNat * 2 ^ 8) / 2 ^ 18) ++
        (write 6 ((a.toNat * 2 ^ 16 + b.toNat * 2 ^ 8) / 2 ^ 12) ++
          write 6 ((a.toNat * 2 ^ 16 + b.toNat * 2 ^ 8) / 2 ^ 6)) := by
  have hb := b.toNat_lt
  have hvalue : write 18 (a.toNat * 2 ^ 10 + b.toNat * 2 ^ 2) =
      write 8 a.toNat ++ (write 8 b.toNat ++ write 2 0) := by
    rw [write_add 8 10, write_add 8 2,
      show (a.toNat * 2 ^ 10 + b.toNat * 2 ^ 2) / 2 ^ 10 = a.toNat by omega,
      ← write_mod (Nat.le_refl 8) ((a.toNat * 2 ^ 10 + b.toNat * 2 ^ 2) / 2 ^ 2),
      show (a.toNat * 2 ^ 10 + b.toNat * 2 ^ 2) / 2 ^ 2 % 2 ^ 8 = b.toNat by omega,
      ← write_mod (Nat.le_refl 2) (a.toNat * 2 ^ 10 + b.toNat * 2 ^ 2),
      show (a.toNat * 2 ^ 10 + b.toNat * 2 ^ 2) % 2 ^ 2 = 0 by omega]
  rw [bits_cons, bits_cons, bits_nil, List.append_nil, List.append_assoc, ← write_zero, ← hvalue,
    write_add 6 12, write_add 6 6,
    show (a.toNat * 2 ^ 10 + b.toNat * 2 ^ 2) / 2 ^ 12 =
      (a.toNat * 2 ^ 16 + b.toNat * 2 ^ 8) / 2 ^ 18 by omega,
    show (a.toNat * 2 ^ 10 + b.toNat * 2 ^ 2) / 2 ^ 6 =
      (a.toNat * 2 ^ 16 + b.toNat * 2 ^ 8) / 2 ^ 12 by omega,
    show (a.toNat * 2 ^ 16 + b.toNat * 2 ^ 8) / 2 ^ 6 =
      a.toNat * 2 ^ 10 + b.toNat * 2 ^ 2 by omega]

theorem bits_three (a b c : UInt8) :
    bits [a, b, c] =
      write 6 ((a.toNat * 2 ^ 16 + b.toNat * 2 ^ 8 + c.toNat) / 2 ^ 18) ++
        (write 6 ((a.toNat * 2 ^ 16 + b.toNat * 2 ^ 8 + c.toNat) / 2 ^ 12) ++
          (write 6 ((a.toNat * 2 ^ 16 + b.toNat * 2 ^ 8 + c.toNat) / 2 ^ 6) ++
            write 6 (a.toNat * 2 ^ 16 + b.toNat * 2 ^ 8 + c.toNat))) := by
  generalize hn : a.toNat * 2 ^ 16 + b.toNat * 2 ^ 8 + c.toNat = n
  have hb := b.toNat_lt
  have hc := c.toNat_lt
  have hvalue : write 24 n = write 8 a.toNat ++ (write 8 b.toNat ++ write 8 c.toNat) := by
    rw [write_add 8 16, write_add 8 8, show n / 2 ^ 16 = a.toNat by omega,
      ← write_mod (Nat.le_refl 8) (n / 2 ^ 8), show n / 2 ^ 8 % 2 ^ 8 = b.toNat by omega,
      ← write_mod (Nat.le_refl 8) n, show n % 2 ^ 8 = c.toNat by omega]
  rw [bits_cons, bits_cons, bits_cons, bits_nil, List.append_nil, ← hvalue, write_add 6 18,
    write_add 6 12, write_add 6 6]

/-! ## Encoding quantum by quantum -/

theorem groups_write (v : Nat) (rest : BitString) :
    groups 6 (write 6 v ++ rest) = write 6 v :: groups 6 rest :=
  groups_append (by decide) (length_write 6 v) rest

theorem groups_write_last (v : Nat) : groups 6 (write 6 v) = [write 6 v] := by
  have hnil : groups 6 ([] : BitString) = [] := groups_of_short (by decide)
  have hgroups := groups_write v []
  rwa [List.append_nil, hnil] at hgroups

@[simp] theorem encode_nil : encode [] = [] := rfl

theorem encode_one (a : UInt8) :
    encode [a] = [sextet (a.toNat * 2 ^ 16 / 2 ^ 18), sextet (a.toNat * 2 ^ 16 / 2 ^ 12), 61, 61] := by
  have hlength : (bits [a]).length = 8 := length_bits [a]
  unfold encode
  simp only [hlength]
  rw [show (6 - 8 % 6) % 6 = 4 from rfl, bits_one, groups_write, groups_write_last, List.map_cons,
    List.map_cons, List.map_nil, character_write, character_write]
  rfl

theorem encode_two (a b : UInt8) :
    encode [a, b] = [sextet ((a.toNat * 2 ^ 16 + b.toNat * 2 ^ 8) / 2 ^ 18),
      sextet ((a.toNat * 2 ^ 16 + b.toNat * 2 ^ 8) / 2 ^ 12),
      sextet ((a.toNat * 2 ^ 16 + b.toNat * 2 ^ 8) / 2 ^ 6), 61] := by
  have hlength : (bits [a, b]).length = 16 := length_bits [a, b]
  unfold encode
  simp only [hlength]
  rw [show (6 - 16 % 6) % 6 = 2 from rfl, bits_two, groups_write, groups_write, groups_write_last,
    List.map_cons, List.map_cons, List.map_cons, List.map_nil, character_write, character_write,
    character_write]
  rfl

/-- Three bytes are four characters, and the rest is encoded by itself. -/
theorem encode_quantum (a b c : UInt8) (rest : List UInt8) :
    encode (a :: b :: c :: rest) =
      [sextet ((a.toNat * 2 ^ 16 + b.toNat * 2 ^ 8 + c.toNat) / 2 ^ 18),
        sextet ((a.toNat * 2 ^ 16 + b.toNat * 2 ^ 8 + c.toNat) / 2 ^ 12),
        sextet ((a.toNat * 2 ^ 16 + b.toNat * 2 ^ 8 + c.toNat) / 2 ^ 6),
        sextet (a.toNat * 2 ^ 16 + b.toNat * 2 ^ 8 + c.toNat)] ++ encode rest := by
  have hsplit : bits (a :: b :: c :: rest) = bits [a, b, c] ++ bits rest :=
    bits_append [a, b, c] rest
  have hlength : (bits (a :: b :: c :: rest)).length % 6 = (bits rest).length % 6 := by
    rw [hsplit, List.length_append, length_bits [a, b, c]]
    exact Nat.mul_add_mod 6 4 _
  unfold encode
  simp only [hlength]
  rw [hsplit, bits_three]
  simp only [List.append_assoc, groups_write, List.map_cons, character_write, List.length_cons,
    Nat.add_assoc, Nat.reduceAdd, Nat.add_mod_right, List.cons_append, List.nil_append]

/-! ## The text of an encoding -/

/-- A character is one of the alphabet, or fills the text. -/
theorem mem_encode {bytes : List UInt8} {c : UInt8} (h : c ∈ encode bytes) :
    c ∈ alphabet ∨ c = 61 := by
  rcases List.mem_append.mp h with htext | hfill
  · obtain ⟨g, hg, rfl⟩ := List.mem_map.mp htext
    have hvalue : value g < alphabet.length := by
      have hlt := value_lt g
      rwa [length_of_mem_groups hg] at hlt
    left
    rw [character, List.getD_eq_getElem?_getD, List.getElem?_eq_getElem hvalue]
    exact List.getElem_mem hvalue
  · exact .inr (List.eq_of_mem_replicate hfill)

theorem encode_ne_nil {bytes : List UInt8} (h : bytes ≠ []) : encode bytes ≠ [] := by
  match bytes, h with
  | [a], _ => simp [encode_one]
  | [a, b], _ => simp [encode_two]
  | a :: b :: c :: rest, _ => simp [encode_quantum]

end TradePlat.Base64
