import Mathlib.Data.List.TakeWhile
import Mathlib.Data.Nat.Digits.Defs

/-!
# Text as lines, words and numerals

A text is a list over an arbitrary alphabet.  `lines` is what a reader gets who
takes one line after the other: a newline ends a line, and a text that does not
end in one has a last line all the same.  `words` are the longest pieces of a
line without blanks.

A numeral has its most significant digit first, and zero has one digit.
`readDigits` reads the digits a text begins with.

## Main results

* `lines_append_cons` — the first line of a text.
* `words_pair` — a line of two words.
* `readDigits_numeral` — a numeral is read as the number it was written for.
-/

namespace SHMemora.Verified.TextLines

variable {α : Type*}

/-! ## Lines -/

section Lines

variable [DecidableEq α]

/-- The lines of a text. -/
def lines (newline : α) : List α → List (List α)
  | [] => []
  | c :: text =>
      if c = newline then [] :: lines newline text
      else
        match lines newline text with
        | [] => [[c]]
        | line :: rest => (c :: line) :: rest

variable {newline : α} {line text : List α}

/-- A line and the text behind its newline. -/
theorem lines_append_cons (h : newline ∉ line) :
    lines newline (line ++ newline :: text) = line :: lines newline text := by
  induction line with
  | nil => simp [lines]
  | cons c line ih =>
      simp only [List.mem_cons, not_or] at h
      simp [lines, Ne.symm h.1, ih h.2]

/-- Lines written one after the other are read as they are. -/
theorem lines_flatMap {ls : List (List α)} (h : ∀ l ∈ ls, newline ∉ l) :
    lines newline (ls.flatMap fun l => l ++ [newline]) = ls := by
  induction ls with
  | nil => rfl
  | cons l ls ih =>
      rw [List.flatMap_cons, List.append_assoc, List.singleton_append,
        lines_append_cons (h l List.mem_cons_self),
        ih fun m hm => h m (List.mem_cons_of_mem _ hm)]

end Lines

/-! ## Words -/

/-- The words of a line. -/
def words (blank : α → Bool) (line : List α) : List (List α) :=
  (line.splitOnP blank).filter fun word => !word.isEmpty

variable {blank : α → Bool} {w w' line : List α} {s : α}

@[simp] theorem words_nil : words blank [] = [] := rfl

theorem words_append_cons (hs : blank s = true) :
    words blank (w ++ s :: line) = words blank w ++ words blank line := by
  simp [words, List.splitOnP_append_cons _ _ hs]

theorem words_of_word (hne : w ≠ []) (hword : ∀ c ∈ w, blank c = false) :
    words blank w = [w] := by
  simp [words, List.splitOnP_eq_singleton hword, hne]

/-- Two words with a blank between them. -/
theorem words_pair (hs : blank s = true) (hne : w ≠ [])
    (hword : ∀ c ∈ w, blank c = false) (hne' : w' ≠ [])
    (hword' : ∀ c ∈ w', blank c = false) :
    words blank (w ++ s :: w') = [w, w'] := by
  simp [words_append_cons hs, words_of_word hne hword,
    words_of_word hne' hword']

/-- A blank in front of a word does not matter. -/
theorem words_cons (hs : blank s = true) (hne : w ≠ [])
    (hword : ∀ c ∈ w, blank c = false) : words blank (s :: w) = [w] := by
  have hcons : words blank ([] ++ s :: w) = words blank [] ++ words blank w :=
    words_append_cons hs
  simpa [words_of_word hne hword] using hcons

/-- A word has no blank in it. -/
theorem blank_of_mem_words (hw : w ∈ words blank line) :
    ∀ c ∈ w, blank c = false := by
  induction line generalizing w with
  | nil => cases hw
  | cons c line ih =>
      have hrest : ∀ w ∈ line.splitOnP blank, ∀ c ∈ w, blank c = false := by
        intro w hw
        cases w with
        | nil => simp
        | cons d w => exact ih (List.mem_filter.mpr ⟨hw, rfl⟩)
      have hmem := (List.mem_filter.mp hw).1
      rw [List.splitOnP_cons_eq_if_modifyHead] at hmem
      split at hmem
      · rcases List.mem_cons.mp hmem with rfl | hmem
        · simp
        · exact hrest w hmem
      · rename_i hc
        cases hparts : line.splitOnP blank with
        | nil => simp [hparts] at hmem
        | cons first parts =>
            rw [hparts] at hmem hrest
            rcases List.mem_cons.mp hmem with rfl | hmem
            · intro d hd
              rcases List.mem_cons.mp hd with rfl | hd
              · simpa using hc
              · exact hrest first List.mem_cons_self d hd
            · exact hrest w (List.mem_cons_of_mem _ hmem)

/-! ## Numerals -/

section Numerals

variable (digit : Nat → α) (value : α → Option Nat) (base : Nat)

/-- A number in positional notation. -/
def numeral (n : Nat) : List α :=
  if n = 0 then [digit 0] else ((base.digits n).map digit).reverse

/-- The number written by the digits at the beginning of a text; `0` if there
is none. -/
def readDigits (text : List α) : Nat :=
  ((text.takeWhile fun c => (value c).isSome).filterMap value).foldl
    (fun n d => base * n + d) 0

variable {digit value base} {n : Nat}

theorem numeral_ne_nil : numeral digit base n ≠ [] := by
  unfold numeral
  split
  · simp
  · simpa [Nat.digits_ne_nil_iff_ne_zero]

/-- The characters of a numeral are digits. -/
theorem mem_numeral (hbase : 1 < base) {c : α}
    (hc : c ∈ numeral digit base n) : ∃ d < base, digit d = c := by
  unfold numeral at hc
  split at hc
  · rw [List.mem_singleton] at hc
    exact ⟨0, by omega, hc.symm⟩
  · simp only [List.mem_reverse, List.mem_map] at hc
    obtain ⟨d, hd, rfl⟩ := hc
    exact ⟨d, Nat.digits_lt_base hbase hd, rfl⟩

/-- The values of the digits, the most significant one first. -/
theorem foldl_digits (n : Nat) :
    (base.digits n).reverse.foldl (fun n d => base * n + d) 0 = n := by
  rw [List.foldl_reverse]
  conv_rhs => rw [← Nat.ofDigits_digits base n, Nat.ofDigits_eq_foldr]
  simp [Nat.add_comm]

theorem filterMap_digits {ds : List Nat}
    (h : ∀ d ∈ ds, value (digit d) = some d) :
    (ds.map digit).filterMap value = ds := by
  induction ds with
  | nil => rfl
  | cons d ds ih =>
      simp only [List.map_cons, List.filterMap_cons, h d List.mem_cons_self]
      rw [ih fun e he => h e (List.mem_cons_of_mem _ he)]

/-- **A numeral is read as the number it was written for.** -/
theorem readDigits_numeral (hbase : 1 < base)
    (hvalue : ∀ d < base, value (digit d) = some d) :
    readDigits value base (numeral digit base n) = n := by
  have hdigits : ∀ c ∈ numeral digit base n, (value c).isSome = true := by
    intro c hc
    obtain ⟨d, hd, rfl⟩ := mem_numeral hbase hc
    simp [hvalue d hd]
  rw [readDigits, List.takeWhile_eq_self_iff.mpr hdigits]
  unfold numeral
  split
  · rename_i hzero
    simp [hvalue 0 (by omega), hzero]
  · rw [List.filterMap_reverse, filterMap_digits fun d hd =>
      hvalue d (Nat.digits_lt_base hbase hd), foldl_digits]

end Numerals

end SHMemora.Verified.TextLines
