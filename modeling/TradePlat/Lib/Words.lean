import Mathlib.Data.List.Infix

/-!
# Words in a text

A text is a list and a word is a part of it. `after` finds the first occurrence of a
word, and `remove` takes all of them out, from left to right. Where the text in front
does not have the first letter of a word, the word cannot start in it, so the search
gets through (`after_append`, `remove_append`).
-/

namespace TradePlat.Words

variable {α : Type} [DecidableEq α]

/-- What is behind the first occurrence of `word`. -/
def after (word : List α) : List α → Option (List α)
  | [] => if word = [] then some [] else none
  | a :: text =>
    if word <+: a :: text then some ((a :: text).drop word.length) else after word text

/-- The loop of `remove`, with how much of an occurrence is still to be skipped. -/
def removeFrom (word : List α) : Nat → List α → List α
  | _, [] => []
  | skip + 1, _ :: text => removeFrom word skip text
  | 0, a :: text =>
    if word <+: a :: text then removeFrom word (word.length - 1) text
    else a :: removeFrom word 0 text

/-- The text without the occurrences of `word`, which is not empty. -/
def remove (word text : List α) : List α := removeFrom word 0 text

variable {a : α} {word front rest text : List α}

/-! ## The first occurrence -/

theorem isSome_after_iff : (after word text).isSome ↔ word <:+: text := by
  induction text with
  | nil =>
    rw [List.infix_nil, after]
    split <;> simp_all
  | cons b text ih =>
    rw [List.infix_cons_iff, after]
    split
    · simp_all
    · simp_all

theorem infix_of_after (h : after word text = some rest) : word <:+: text := by
  rw [← isSome_after_iff, h]
  rfl

theorem after_append (h : a ∉ front) :
    after (a :: word) (front ++ (a :: word ++ rest)) = some rest := by
  induction front with
  | nil =>
    simp [after]
  | cons b front ih =>
    rw [List.mem_cons, not_or] at h
    have hno : ¬ a :: word <+: b :: (front ++ (a :: word ++ rest)) := by
      rw [List.cons_prefix_cons]
      exact fun hb => h.1 hb.1
    rw [List.cons_append, after, if_neg hno]
    exact ih h.2

theorem after_eq_some (h : a ∉ front) (htext : text = front ++ (a :: word ++ rest)) :
    after (a :: word) text = some rest := by
  rw [htext]
  exact after_append h

/-! ## Removal -/

theorem removeFrom_append (word front rest : List α) :
    removeFrom word front.length (front ++ rest) = remove word rest := by
  induction front with
  | nil => rfl
  | cons b front ih => exact ih

theorem remove_cons_of_ne {b : α} (h : a ≠ b) :
    remove (a :: word) (b :: text) = b :: remove (a :: word) text := by
  have hno : ¬ a :: word <+: b :: text := by
    rw [List.cons_prefix_cons]
    exact fun hb => h hb.1
  rw [remove, removeFrom, if_neg hno]
  rfl

theorem remove_append (h : a ∉ front) :
    remove (a :: word) (front ++ (a :: word ++ rest)) = front ++ remove (a :: word) rest := by
  induction front with
  | nil =>
    have hprefix : a :: word <+: a :: (word ++ rest) := List.prefix_append (a :: word) rest
    rw [List.nil_append, List.cons_append, remove, removeFrom, if_pos hprefix]
    exact removeFrom_append (a :: word) word rest
  | cons b front ih =>
    rw [List.mem_cons, not_or] at h
    rw [List.cons_append, remove_cons_of_ne h.1, ih h.2, List.cons_append]

theorem remove_of_notMem (h : a ∉ text) : remove (a :: word) text = text := by
  induction text with
  | nil => rfl
  | cons b text ih =>
    rw [List.mem_cons, not_or] at h
    rw [remove_cons_of_ne h.1, ih h.2]

/-- A word of one letter. -/
theorem remove_singleton (a : α) (text : List α) : remove [a] text = text.filter (· ≠ a) := by
  induction text with
  | nil => rfl
  | cons b text ih =>
    by_cases h : a = b
    · subst h
      have hword : [a] <+: a :: text := List.prefix_append [a] text
      rw [remove, removeFrom, if_pos hword, List.filter_cons_of_neg (by simp)]
      exact ih
    · rw [remove_cons_of_ne h, ih, List.filter_cons_of_pos (by simpa using Ne.symm h)]

end TradePlat.Words
