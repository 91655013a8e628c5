import LsmTree.Base.Bytes

/-!
# Words of a line

What programs take from a line of text by `stream >> x`, and trimming.

* `word`, `word_append`: the next word, and the text behind it.
* `readSize`, `readSize_decimal`: a `size_t`, which is 0 where no number stands.
* `trimmed`, `trimmed_eq_self`: a text without the blanks around it.
-/

namespace LsmTree.Base

/-- `stream >> s`: the bytes between blanks, and the rest. At the end of the text the word is empty. -/
def word (s : Bytes) : Bytes × Bytes := (s.dropWhile isSpace).span fun b => !isSpace b

/-- `stream >> n` of a `size_t`. Too large a number gives the largest one, and a minus sign negates
modulo `2^64`. -/
def readSize (s : Bytes) : ℕ :=
  let (neg, ds) := scanInteger s
  if 2 ^ 64 ≤ digitsValue ds then 2 ^ 64 - 1
  else if neg then (2 ^ 64 - digitsValue ds) % 2 ^ 64
  else digitsValue ds

def trimmed (blank : UInt8 → Bool) (s : Bytes) : Bytes := (s.dropWhile blank).rdropWhile blank

/-- A text that `stream >> s` takes as one. -/
structure IsWord (s : Bytes) : Prop where
  ne_nil : s ≠ []
  solid : ∀ b ∈ s, isSpace b = false

theorem word_space (s : Bytes) : word (32 :: s) = word s := rfl

/-- **A word** ends at a blank. -/
theorem word_append {w : Bytes} (h : IsWord w) (rest : Bytes) : word (w ++ 32 :: rest) = (w, 32 :: rest) := by
  have hskip : (w ++ 32 :: rest).dropWhile isSpace = w ++ 32 :: rest := by
    obtain ⟨b, t, rfl⟩ := List.exists_cons_of_ne_nil h.ne_nil
    rw [List.cons_append, List.dropWhile_cons_of_neg]
    simp [h.solid b List.mem_cons_self]
  unfold word
  rw [hskip, List.span_eq_takeWhile_dropWhile, List.takeWhile_append_of_pos, List.dropWhile_append_of_pos]
  · simp [isSpace]
  · exact fun b hb => by simp [h.solid b hb]
  · exact fun b hb => by simp [h.solid b hb]

/-- **A number** is read back. -/
theorem readSize_decimal {n : ℕ} (h : n < 2 ^ 64) : readSize (32 :: decimal n) = n := by
  have hscan : scanInteger (32 :: decimal n) = (false, decimal n) :=
    scanInteger_digits isDigit_of_mem_decimal
  unfold readSize
  rw [hscan]
  simp only [digitsValue_decimal]
  rw [if_neg (by omega)]
  rfl

variable {blank : UInt8 → Bool}

theorem trimmed_eq_self {s : Bytes} (hhead : ∀ b ∈ s.head?, blank b = false)
    (hlast : ∀ b ∈ s.getLast?, blank b = false) :
    trimmed blank s = s := by
  have hdrop : s.dropWhile blank = s := by
    cases s with
    | nil => rfl
    | cons b t => exact List.dropWhile_cons_of_neg (by simp [hhead b rfl])
  unfold trimmed
  rw [hdrop, List.rdropWhile_eq_self_iff]
  intro hne
  rw [hlast _ (List.getLast?_eq_some_getLast hne)]
  exact Bool.false_ne_true

end LsmTree.Base
