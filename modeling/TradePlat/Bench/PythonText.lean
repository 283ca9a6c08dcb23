import Mathlib.Data.List.TakeWhile
import TradePlat.Bench.Readiness
import TradePlat.Lib.Binary64
import TradePlat.Lib.Decimals

/-!
# Lines and numbers, as Python has them

A text of lines is split line by line (`splitlines_append`), whatever breaks there are in
the lines themselves. `formatInt` and `formatFloat` print numbers with thousands
separators, `int` and `float` read numbers. What is printed is read again once the
separators are out (`int_digits`, `float_formatFloat`): an integer of any length up to the
limit of the interpreter, and a double rounded to an integer, which is still a double.
-/

namespace TradePlat.Bench
open Binary64 Binary64.Double Decimals

/-! ## Lines -/

section Lines
variable {line text rest : Text} {c : Char}

theorem splitlinesFrom_newline (line rest : Text) :
    splitlinesFrom line ('\n' :: rest) = line :: splitlines rest := by
  rw [splitlinesFrom, if_pos (by decide)]
  · rfl
  · intro _ h
    cases h

theorem splitlinesFrom_crlf (line rest : Text) :
    splitlinesFrom line ('\r' :: '\n' :: rest) = line :: splitlines rest := by
  rw [splitlinesFrom]
  rfl

theorem splitlinesFrom_cons (h : c = '\r' → rest.head? ≠ some '\n') :
    splitlinesFrom line (c :: rest) =
      if c ∈ lineBreaks then line :: splitlines rest else splitlinesFrom (line ++ [c]) rest := by
  rw [splitlinesFrom]
  · rfl
  · rintro tail rfl rfl
    exact h rfl rfl

theorem splitlinesFrom_of_notMem (h : c ∉ lineBreaks) (line rest : Text) :
    splitlinesFrom line (c :: rest) = splitlinesFrom (line ++ [c]) rest := by
  rw [splitlinesFrom_cons, if_neg h]
  rintro rfl
  exact absurd (by decide) h

/-- The lines of a text up to a newline, and those behind it. -/
theorem splitlinesFrom_append (line text rest : Text) :
    splitlinesFrom line (text ++ '\n' :: rest) =
      splitlinesFrom line (text ++ ['\n']) ++ splitlines rest := by
  fun_induction splitlinesFrom line text with
  | case1 line | case2 line =>
    rw [List.nil_append, List.nil_append, splitlinesFrom_newline, splitlinesFrom_newline]
    rfl
  | case3 line text ih =>
    simp only [List.cons_append, splitlinesFrom_crlf]
    exact congrArg (line :: ·) ih
  | case4 line c text hno hbreak ih =>
    by_cases hcr : c = '\r' ∧ text = []
    · -- the newline belongs to this break
      rw [hcr.1, hcr.2]
      simp only [List.cons_append, List.nil_append, splitlinesFrom_crlf]
      rfl
    · have hhead : ∀ more, c = '\r' → (text ++ '\n' :: more).head? ≠ some '\n' := by
        intro more hc hnewline
        cases text with
        | nil => exact hcr ⟨hc, rfl⟩
        | cons d text =>
          rw [List.cons_append, List.head?_cons, Option.some.injEq] at hnewline
          exact hno text hc (by rw [hnewline])
      rw [List.cons_append, List.cons_append, splitlinesFrom_cons (hhead rest),
        splitlinesFrom_cons (hhead []), if_pos hbreak, if_pos hbreak]
      exact congrArg (line :: ·) ih
  | case5 line c text hno hbreak ih =>
    rw [List.cons_append, List.cons_append, splitlinesFrom_of_notMem hbreak,
      splitlinesFrom_of_notMem hbreak]
    exact ih

theorem splitlines_append (text rest : Text) :
    splitlines (text ++ '\n' :: rest) = splitlines (text ++ ['\n']) ++ splitlines rest :=
  splitlinesFrom_append [] text rest

/-- A text without breaks is one line. -/
theorem splitlines_line (h : ∀ c ∈ text, c ∉ lineBreaks) :
    splitlines (text ++ ['\n']) = [text] := by
  have hfrom : ∀ line, splitlinesFrom line (text ++ ['\n']) = [line ++ text] := by
    induction text with
    | nil =>
      intro line
      rw [List.nil_append, splitlinesFrom_newline, List.append_nil]
      rfl
    | cons c text ih =>
      intro line
      rw [List.forall_mem_cons] at h
      rw [List.cons_append, splitlinesFrom_of_notMem h.1, ih h.2, List.append_assoc]
      rfl
  exact hfrom []

/-- Every line is a part of the text. -/
theorem infix_of_mem_splitlinesFrom (h : text ∈ splitlinesFrom line rest) :
    text <:+: line ++ rest := by
  fun_induction splitlinesFrom line rest with
  | case1 => cases h
  | case2 line =>
    rw [List.mem_singleton.mp h, List.append_nil]
  | case3 line rest ih =>
    rcases List.mem_cons.mp h with rfl | h
    · exact List.prefix_append _ _ |>.isInfix
    · exact (ih h).trans ⟨line ++ ['\r', '\n'], [], by simp⟩
  | case4 line c rest _ _ ih =>
    rcases List.mem_cons.mp h with rfl | h
    · exact List.prefix_append _ _ |>.isInfix
    · exact (ih h).trans ⟨line ++ [c], [], by simp⟩
  | case5 line c rest _ _ ih =>
    have := ih h
    rwa [List.append_assoc] at this

theorem infix_of_mem_splitlines (h : line ∈ splitlines text) : line <:+: text :=
  infix_of_mem_splitlinesFrom h

/-- `strip` takes the blanks off, and nothing else of a text without any. -/
theorem strip_padded {left right : Text} (hleft : ∀ c ∈ left, isSpace c)
    (hright : ∀ c ∈ right, isSpace c) (hne : text ≠ []) (h : ∀ c ∈ text, isSpace c = false) :
    strip (left ++ (text ++ right)) = text := by
  have hdrop : ∀ {front text behind : Text}, (∀ c ∈ front, isSpace c) → text ≠ [] →
      (∀ c ∈ text, isSpace c = false) →
        (front ++ (text ++ behind)).dropWhile isSpace = text ++ behind := by
    intro front text behind hfront hne h
    rw [List.dropWhile_append_of_pos hfront]
    cases text with
    | nil => exact absurd rfl hne
    | cons c text =>
      rw [List.cons_append, List.dropWhile_cons_of_neg (by simp [h c List.mem_cons_self])]
  have hback : (right.reverse ++ (text.reverse ++ [])).dropWhile isSpace = text.reverse ++ [] :=
    hdrop (by simpa using hright) (by simpa using hne) (by simpa using h)
  rw [strip, hdrop hleft hne h, List.reverse_append, ← List.append_nil text.reverse, hback,
    List.append_nil, List.reverse_reverse]

end Lines

/-! ## Printing -/

/-- `f"{n:,}"`. With `maxStrDigits` the interpreter refuses longer numbers, unless it is 0. -/
def formatInt (maxStrDigits n : Nat) : Option Text :=
  if 0 < maxStrDigits ∧ maxStrDigits < (digits n).length then none
  else some (grouped ',' (digits n))

/-- The interpreter prints `n`. -/
def Fits (maxStrDigits n : Nat) : Prop := maxStrDigits = 0 ∨ (digits n).length ≤ maxStrDigits

theorem isSome_formatInt_iff {maxStrDigits n : Nat} :
    (formatInt maxStrDigits n).isSome ↔ Fits maxStrDigits n := by
  unfold formatInt Fits
  split
  · simp only [Option.isSome_none, Bool.false_eq_true, false_iff]
    omega
  · simp only [Option.isSome_some, true_iff]
    omega

def sign (negative : Bool) : Text := if negative then ['-'] else []

/-- `f"{x:,.0f}"`. -/
def formatFloat (x : Double) : Text :=
  if x.IsNaN then "nan".toList
  else if x.IsFinite then sign x.negative ++ grouped ',' (digits x.nearest)
  else sign x.negative ++ "inf".toList

/-- The characters of a printed number. -/
def isFigure (c : Char) : Bool := c.isDigit || c ∈ [',', '-', 'i', 'n', 'f', 'a']

theorem isSpace_of_isFigure {c : Char} (h : isFigure c = true) : isSpace c = false := by
  have hdigits : ∀ d < 10, isSpace (Nat.digitChar d) = false := by decide
  have hothers : ∀ c ∈ [',', '-', 'i', 'n', 'f', 'a'], (!isSpace c) = true :=
    List.all_eq_true.mp (by decide)
  rw [isFigure, Bool.or_eq_true, decide_eq_true_eq] at h
  rcases h with hdigit | hother
  · obtain ⟨d, hd, rfl⟩ := exists_digitChar hdigit
    exact hdigits d hd
  · simpa using hothers c hother

theorem isFigure_of_mem_grouped {n : Nat} {c : Char} (h : c ∈ grouped ',' (digits n)) :
    isFigure c = true := by
  rcases mem_grouped h with rfl | hc
  · rfl
  · rw [isFigure, isDigit_of_mem_digits hc, Bool.true_or]

theorem isFigure_of_mem_formatInt {maxStrDigits n : Nat} {shown : Text}
    (h : formatInt maxStrDigits n = some shown) {c : Char} (hc : c ∈ shown) :
    isFigure c = true := by
  unfold formatInt at h
  split at h
  · cases h
  · rw [← Option.some.inj h] at hc
    exact isFigure_of_mem_grouped hc

theorem isFigure_of_mem_formatFloat {x : Double} {c : Char} (h : c ∈ formatFloat x) :
    isFigure c = true := by
  have hsign : ∀ c ∈ sign x.negative, isFigure c = true :=
    List.all_eq_true.mp (by cases x.negative <;> decide)
  have hinf : ∀ c ∈ "inf".toList, isFigure c = true := List.all_eq_true.mp (by decide)
  have hnan : ∀ c ∈ "nan".toList, isFigure c = true := List.all_eq_true.mp (by decide)
  unfold formatFloat at h
  split at h
  · exact hnan c h
  · split at h
    · rcases List.mem_append.mp h with h | h
      · exact hsign c h
      · exact isFigure_of_mem_grouped h
    · rcases List.mem_append.mp h with h | h
      · exact hsign c h
      · exact hinf c h

section Letters
variable {c : Char} (hc : isFigure c = false)
include hc

/-- A letter that is in no figure. -/
theorem notMem_formatInt {maxStrDigits n : Nat} {shown : Text}
    (h : formatInt maxStrDigits n = some shown) : c ∉ shown := by
  intro hmem
  rw [isFigure_of_mem_formatInt h hmem] at hc
  cases hc

theorem notMem_formatFloat (x : Double) : c ∉ formatFloat x := by
  intro hmem
  rw [isFigure_of_mem_formatFloat hmem] at hc
  cases hc

end Letters

/-! ## Reading -/

/-- The zeros among the decimal digits of Unicode 14, but for that of ASCII. Each of them
is followed by its other digits. -/
def decimalZeros : List Nat :=
  [0x660, 0x6F0, 0x7C0, 0x966, 0x9E6, 0xA66, 0xAE6, 0xB66, 0xBE6, 0xC66, 0xCE6, 0xD66, 0xDE6,
    0xE50, 0xED0, 0xF20, 0x1040, 0x1090, 0x17E0, 0x1810, 0x1946, 0x19D0, 0x1A80, 0x1A90, 0x1B50,
    0x1BB0, 0x1C40, 0x1C50, 0xA620, 0xA8D0, 0xA900, 0xA9D0, 0xA9F0, 0xAA50, 0xABF0, 0xFF10,
    0x104A0, 0x10D30, 0x11066, 0x110F0, 0x11136, 0x111D0, 0x112F0, 0x11450, 0x114D0, 0x11650,
    0x116C0, 0x11730, 0x118E0, 0x11950, 0x11C50, 0x11D50, 0x11DA0, 0x16A60, 0x16AC0, 0x16B50,
    0x1D7CE, 0x1D7D8, 0x1D7E2, 0x1D7EC, 0x1D7F6, 0x1E140, 0x1E2F0, 0x1E950, 0x1FBF0]

def asciiDigit (c : Char) : Char :=
  match decimalZeros.find? fun base => base ≤ c.toNat && c.toNat < base + 10 with
  | some base => Char.ofNat ('0'.toNat + (c.toNat - base))
  | none => c

/-- The text without underscores, all of which stand between two digits. -/
def dropUnderscores (before : Char) : Text → Option Text
  | [] => if before = '_' then none else some []
  | c :: text =>
    if c = '_' then if before.isDigit then dropUnderscores c text else none
    else if before = '_' ∧ ¬ c.isDigit then none
    else (dropUnderscores c text).map (c :: ·)

def takeSign : Text → Bool × Text
  | '+' :: text => (false, text)
  | '-' :: text => (true, text)
  | text => (false, text)

/-- What `int` and `float` do first, on a text that is stripped already. -/
def normalize (text : Text) : Option (Bool × Text) :=
  (dropUnderscores ' ' (text.map asciiDigit)).map takeSign

def signed (negative : Bool) (digits : Text) : Option Int :=
  if digits = [] ∨ ¬ digits.all Char.isDigit then none
  else if negative then some (-(Nat.ofDigitChars 10 digits 0 : Int))
  else some (Nat.ofDigitChars 10 digits 0)

/-- `int(text)`. `none` is a `ValueError`. -/
def int (maxStrDigits : Nat) (text : Text) : Option Int :=
  (normalize text).bind fun (negative, digits) =>
    if 0 < maxStrDigits ∧ maxStrDigits < digits.length then none else signed negative digits

/-- What may follow the digits of a `float`. -/
def exponent : Text → Option Int
  | [] => some 0
  | c :: text =>
    if c = 'e' ∨ c = 'E' then signed (takeSign text).1 (takeSign text).2 else none

/-- A decimal number `n * 10 ^ e`. -/
def decimal (text : Text) : Option (Nat × Int) :=
  let whole := text.takeWhile Char.isDigit
  let rest := text.dropWhile Char.isDigit
  let point := rest.head? = some '.'
  let fraction := if point then (rest.drop 1).takeWhile Char.isDigit else []
  let behind := if point then (rest.drop 1).dropWhile Char.isDigit else rest
  if whole ++ fraction = [] then none
  else (exponent behind).map fun e =>
    (Nat.ofDigitChars 10 (whole ++ fraction) 0, e - fraction.length)

/-- The double nearest to a decimal number, an infinity beyond the range. -/
def ofDecimal (negative : Bool) (n : Nat) (e : Int) : Double :=
  make negative (min (roundRatio (n * 10 ^ e.toNat * 2 ^ 1074) (10 ^ (-e).toNat)) infMagnitude)

/-- `float(text)`. `none` is a `ValueError`. -/
def float (text : Text) : Option Double :=
  (normalize text).bind fun (negative, body) =>
    let lower := body.map Char.toLower
    if lower = "inf".toList ∨ lower = "infinity".toList then some (make negative infMagnitude)
    else if lower = "nan".toList then some (make negative nan.magnitude)
    else (decimal body).map fun (n, e) => ofDecimal negative n e

/-! ## Characters -/

section Characters
variable {c : Char} {text : Text}

theorem isDigit_ascii (h : c.isDigit = true) : c.toNat < 128 := by
  have hle : c.toNat ≤ '9'.toNat := (Char.isDigit_iff_toNat.mp h).2
  exact Nat.lt_of_le_of_lt hle (by decide)

theorem toLower_of_isDigit (h : c.isDigit = true) : c.toLower = c := by
  obtain ⟨d, hd, rfl⟩ := exists_digitChar h
  have hall : ∀ d < 10, (Nat.digitChar d).toLower = Nat.digitChar d := by decide
  exact hall d hd

theorem asciiDigit_of_ascii (h : c.toNat < 128) : asciiDigit c = c := by
  have hnone : decimalZeros.find? (fun base => base ≤ c.toNat && c.toNat < base + 10) = none := by
    have hall : ∀ base ∈ decimalZeros, 128 ≤ base := by decide
    rw [List.find?_eq_none]
    intro base hbase
    have := hall base hbase
    simp only [Bool.and_eq_true, decide_eq_true_eq]
    omega
  rw [asciiDigit, hnone]

theorem dropUnderscores_of_notMem {before : Char} (hb : before ≠ '_') (h : '_' ∉ text) :
    dropUnderscores before text = some text := by
  induction text generalizing before with
  | nil => rw [dropUnderscores, if_neg hb]
  | cons c text ih =>
    rw [List.mem_cons, not_or] at h
    rw [dropUnderscores, if_neg (Ne.symm h.1), if_neg (fun hc => hb hc.1), ih (Ne.symm h.1) h.2]
    rfl

theorem normalize_of_ascii (h : ∀ c ∈ text, c.toNat < 128) (hunderscore : '_' ∉ text) :
    normalize text = some (takeSign text) := by
  have hascii : text.map asciiDigit = text := by
    rw [List.map_congr_left fun c hc => asciiDigit_of_ascii (h c hc), List.map_id']
  rw [normalize, hascii, dropUnderscores_of_notMem (by decide) hunderscore]
  rfl

theorem takeSign_sign (h : ∀ c, text.head? = some c → c ≠ '+' ∧ c ≠ '-') (negative : Bool) :
    takeSign (sign negative ++ text) = (negative, text) := by
  cases negative with
  | true => rfl
  | false =>
    cases text with
    | nil => rfl
    | cons c text =>
      obtain ⟨hplus, hminus⟩ := h c rfl
      show takeSign (c :: text) = (false, c :: text)
      unfold takeSign
      split
      · rename_i heq
        exact absurd (List.cons.inj heq).1 hplus
      · rename_i heq
        exact absurd (List.cons.inj heq).1 hminus
      · rfl

/-- A signed text of ASCII letters, without signs or underscores in it. -/
theorem normalize_sign (hascii : ∀ c ∈ text, c.toNat < 128) (hunderscore : '_' ∉ text)
    (hplus : '+' ∉ text) (hminus : '-' ∉ text) (negative : Bool) :
    normalize (sign negative ++ text) = some (negative, text) := by
  have hsign : ∀ c ∈ sign negative, c = '-' := by cases negative <;> simp [sign]
  rw [normalize_of_ascii, takeSign_sign]
  · intro c hc
    have hmem := List.mem_of_mem_head? hc
    exact ⟨fun hc => hplus (hc ▸ hmem), fun hc => hminus (hc ▸ hmem)⟩
  · intro c hc
    rcases List.mem_append.mp hc with hc | hc
    · rw [hsign c hc]
      decide
    · exact hascii c hc
  · intro hmem
    rcases List.mem_append.mp hmem with hmem | hmem
    · exact absurd (hsign _ hmem) (by decide)
    · exact hunderscore hmem

end Characters

/-! ## Reading what is printed -/

section Numbers
variable {n : Nat}

theorem all_isDigit_digits (n : Nat) : (digits n).all Char.isDigit = true :=
  List.all_eq_true.mpr fun _ => isDigit_of_mem_digits

theorem normalize_digits (negative : Bool) (n : Nat) :
    normalize (sign negative ++ digits n) = some (negative, digits n) := by
  exact normalize_sign (fun c hc => isDigit_ascii (isDigit_of_mem_digits hc))
    (notMem_digits (by decide)) (notMem_digits (by decide)) (notMem_digits (by decide)) negative

theorem signed_digits (negative : Bool) (n : Nat) :
    signed negative (digits n) = some (if negative then -(n : Int) else n) := by
  have hvalid : ¬ (digits n = [] ∨ ¬ (digits n).all Char.isDigit) := by
    rw [not_or, not_not]
    exact ⟨digits_ne_nil n, all_isDigit_digits n⟩
  rw [signed, if_neg hvalid, ofDigitChars_digits]
  cases negative <;> rfl

/-- **An integer that is printed is read again.** -/
theorem int_digits {maxStrDigits : Nat}
    (h : ¬ (0 < maxStrDigits ∧ maxStrDigits < (digits n).length)) :
    int maxStrDigits (digits n) = some (n : Int) := by
  have hplain : normalize (digits n) = some (false, digits n) := normalize_digits false n
  rw [int, hplain, Option.bind_some]
  simp only [if_neg h, signed_digits]
  rfl

theorem decimal_digits (n : Nat) : decimal (digits n) = some (n, 0) := by
  have htake : (digits n).takeWhile Char.isDigit = digits n :=
    List.takeWhile_eq_self_iff.mpr fun _ => isDigit_of_mem_digits
  have hdrop : (digits n).dropWhile Char.isDigit = [] :=
    List.dropWhile_eq_nil_iff.mpr fun _ => isDigit_of_mem_digits
  simp [decimal, htake, hdrop, digits_ne_nil, ofDigitChars_digits, exponent]

theorem float_digits (negative : Bool) (n : Nat) :
    float (sign negative ++ digits n) =
      some (make negative (min (roundMagnitude (n * 2 ^ 1074)) infMagnitude)) := by
  have hlower : (digits n).map Char.toLower = digits n := by
    rw [List.map_congr_left fun c hc => toLower_of_isDigit (isDigit_of_mem_digits hc), List.map_id']
  have hword : ∀ word : Text, word.all Char.isDigit = false → digits n ≠ word := by
    rintro word hall rfl
    rw [all_isDigit_digits] at hall
    cases hall
  rw [float, normalize_digits, Option.bind_some]
  simp only [hlower]
  rw [if_neg, if_neg (hword _ (by decide)), decimal_digits]
  · simp only [Option.map_some, ofDecimal, Int.toNat_zero, Int.neg_zero, Nat.pow_zero, Nat.mul_one,
      roundRatio_one]
  · rw [not_or]
    exact ⟨hword _ (by decide), hword _ (by decide)⟩

theorem float_inf (negative : Bool) :
    float (sign negative ++ "inf".toList) = some (make negative infMagnitude) := by
  rw [float, normalize_sign (by simp) (by decide) (by decide) (by decide), Option.bind_some]
  simp only
  rw [if_pos (Or.inl (by decide))]

/-- **A rate that is printed is read as the integer it was rounded to**, exactly. -/
theorem float_formatFloat {x : Double} (h : ¬ x.IsNaN) :
    ∃ y, float ((formatFloat x).filter (· ≠ ',')) = some y ∧ x.IsRounded y := by
  have hsign : (sign x.negative).filter (· ≠ ',') = sign x.negative := by
    cases x.negative <;> rfl
  rw [formatFloat, if_neg h]
  by_cases hfin : x.IsFinite
  · obtain ⟨m, hm, hunits⟩ := exists_units_roundQuotient (k := 1074) (by omega) hfin
    have hround : roundMagnitude (x.nearest * 2 ^ 1074) = m := by
      rw [nearest, ← hunits, roundMagnitude_units]
    have hlt : m < 2 ^ 63 := hm.trans (by decide)
    rw [if_pos hfin, List.filter_append, hsign, filter_grouped (notMem_digits (by decide)),
      float_digits, hround, Nat.min_eq_left hm.le]
    refine ⟨_, rfl, make_negative hlt, fun _ => ?_, fun hinf => absurd hfin hinf⟩
    rw [IsFinite, make_magnitude hlt]
    exact ⟨hm, hunits⟩
  · have hinf : x.magnitude = infMagnitude := by
      unfold IsNaN at h
      unfold IsFinite at hfin
      omega
    have hword : "inf".toList.filter (· ≠ ',') = "inf".toList := by decide
    rw [if_neg hfin, List.filter_append, hsign, hword, float_inf]
    refine ⟨_, rfl, make_negative (by decide), fun hx => absurd hx hfin, fun _ => ?_⟩
    rw [make_magnitude (by decide), hinf]

end Numbers

end TradePlat.Bench
