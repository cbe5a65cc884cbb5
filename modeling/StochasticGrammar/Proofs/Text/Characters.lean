import Mathlib
import StochasticGrammar.Formula.Parser

/-!
The characters of numbers and names by their codes. They leave a mark, and neither begin a literal nor
a comment.
-/

namespace StochasticGrammar.Text

/-- Neither blank nor the beginning of a literal or a comment. -/
structure Inked (c : Char) : Prop where
  blank : isBlank c = false
  quote : c ≠ '"'
  comment : c ≠ '#'

theorem inked_of_toNat {c : Char} (low : 36 ≤ c.toNat) (high : c.toNat ≤ 126) : Inked c where
  blank := by
    simp only [isBlank, inRanges, blankRanges, List.any_cons, List.any_nil, Bool.or_false, Bool.or_eq_false_iff,
      Bool.and_eq_false_iff, decide_eq_false_iff_not]
    omega
  quote := by
    rintro rfl
    exact absurd low (by decide)
  comment := by
    rintro rfl
    exact absurd low (by decide)

theorem isSpace_of_isBlank {c : Char} (mark : isBlank c = false) : Formula.isSpace c = false := by
  have other (d : Char) (blank : isBlank d = true) : c ≠ d := by
    rintro rfl
    exact Bool.false_ne_true (mark.symm.trans blank)
  simp [Formula.isSpace, other ' ' (by decide), other '\t' (by decide), other '\r' (by decide),
    other '\n' (by decide)]

theorem isAlpha_toNat {c : Char} (alpha : c.isAlpha = true) :
    65 ≤ c.toNat ∧ c.toNat ≤ 90 ∨ 97 ≤ c.toNat ∧ c.toNat ≤ 122 := by
  simpa [Char.isAlpha, Char.isUpper, Char.isLower, UInt32.le_iff_toNat_le] using alpha

theorem isDigit_toNat {c : Char} (digit : c.isDigit = true) : 48 ≤ c.toNat ∧ c.toNat ≤ 57 :=
  Char.isDigit_iff_toNat.mp digit

theorem startsName_toNat {c : Char} (first : Formula.startsName c = true) :
    65 ≤ c.toNat ∧ c.toNat ≤ 122 := by
  rcases Bool.or_eq_true_iff.mp first with alpha | bar
  · have := isAlpha_toNat alpha
    omega
  · rw [beq_iff_eq.mp bar]
    decide

theorem continuesName_toNat {c : Char} (later : Formula.continuesName c = true) :
    46 ≤ c.toNat ∧ c.toNat ≤ 122 := by
  simp only [Formula.continuesName, Char.isAlphanum, Bool.or_eq_true, beq_iff_eq] at later
  rcases later with ((alpha | digit) | rfl) | rfl
  · have := isAlpha_toNat alpha
    omega
  · have := isDigit_toNat digit
    omega
  · decide
  · decide

theorem startsName_of_isDigit {c : Char} (digit : c.isDigit = true) : Formula.startsName c = false := by
  have range := isDigit_toNat digit
  rw [Bool.eq_false_iff]
  intro first
  have := startsName_toNat first
  omega

end StochasticGrammar.Text
