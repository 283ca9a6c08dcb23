import Mathlib.Tactic.Linarith

/-!
# Decimal numbers in print

The digits of a number, and a separator between groups of three of them. Without the
separators the digits are there again (`filter_grouped`), whatever their number.
-/

namespace TradePlat.Decimals

/-! ## Digits in groups -/

/-- The list, with `sep` before each group of three that follows something. -/
def grouped {α : Type} (sep : α) : List α → List α
  | [] => []
  | c :: digits =>
    if digits ≠ [] ∧ digits.length % 3 = 0 then c :: sep :: grouped sep digits
    else c :: grouped sep digits

theorem filter_grouped {α : Type} [DecidableEq α] {sep : α} {digits : List α}
    (h : sep ∉ digits) : (grouped sep digits).filter (· ≠ sep) = digits := by
  induction digits with
  | nil => rfl
  | cons c digits ih =>
    rw [List.mem_cons, not_or] at h
    have hc : c ≠ sep := Ne.symm h.1
    rw [grouped]
    split
    · rw [List.filter_cons_of_pos (by simpa using hc), List.filter_cons_of_neg (by simp), ih h.2]
    · rw [List.filter_cons_of_pos (by simpa using hc), ih h.2]

theorem mem_grouped {α : Type} {sep a : α} {digits : List α} (h : a ∈ grouped sep digits) :
    a = sep ∨ a ∈ digits := by
  induction digits with
  | nil => cases h
  | cons c digits ih =>
    rw [List.mem_cons]
    rw [grouped] at h
    split at h
    · rcases List.mem_cons.mp h with hc | h
      · exact Or.inr (Or.inl hc)
      · rcases List.mem_cons.mp h with hsep | h
        · exact Or.inl hsep
        · exact (ih h).imp_right Or.inr
    · rcases List.mem_cons.mp h with hc | h
      · exact Or.inr (Or.inl hc)
      · exact (ih h).imp_right Or.inr

example : grouped ',' "1234567".toList = "1,234,567".toList := by decide

/-! ## Digits as characters -/

/-- The digits of `n`. -/
def digits (n : Nat) : List Char := Nat.toDigits 10 n

theorem digits_ne_nil (n : Nat) : digits n ≠ [] := Nat.toDigits_ne_nil

theorem ofDigitChars_digits (n : Nat) : Nat.ofDigitChars 10 (digits n) 0 = n :=
  Nat.ofDigitChars_ten_toDigits

theorem isDigit_of_mem_digits {n : Nat} {c : Char} (h : c ∈ digits n) : c.isDigit = true :=
  Nat.isDigit_of_mem_toDigits (by decide) (by decide) h

theorem notMem_digits {n : Nat} {c : Char} (h : c.isDigit = false) : c ∉ digits n := by
  intro hc
  rw [isDigit_of_mem_digits hc] at h
  cases h

/-- There are ten digits. -/
theorem exists_digitChar {c : Char} (h : c.isDigit = true) : ∃ d < 10, c = Nat.digitChar d := by
  obtain ⟨hlo, hhi⟩ := Char.isDigit_iff_toNat.mp h
  have hzero : '0'.toNat = 48 := rfl
  have hnine : '9'.toNat = 57 := rfl
  refine ⟨c.toNat - 48, by omega, Char.toNat_inj.mp ?_⟩
  rw [Nat.toNat_digitChar_of_lt_ten (by omega)]
  omega

end TradePlat.Decimals
