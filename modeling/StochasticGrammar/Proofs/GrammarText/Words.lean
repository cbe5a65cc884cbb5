import StochasticGrammar.Proofs.Formula.Reading
import StochasticGrammar.Proofs.GrammarText.Comments

/-!
The parts of a line. Each part is read from its own text up to the text that follows it; marks and
spaces hold no comment, and in a literal a comment does not begin.
-/

namespace StochasticGrammar

namespace Text

/-- A text is not shortened at its ends when both of its ends leave a mark. -/
theorem trimChars_eq {text : List Char} (first : ∀ c ∈ text.head?, isBlank c = false)
    (last : ∀ c ∈ text.getLast?, isBlank c = false) : trimChars text = text := by
  have kept {word : List Char} (mark : ∀ c ∈ word.head?, isBlank c = false) :
      word.dropWhile isBlank = word := by
    cases word with
    | nil => rfl
    | cons c word => simp [mark c rfl]
  have reversed : ∀ c ∈ text.reverse.head?, isBlank c = false := by
    rwa [List.head?_reverse]
  rw [trimChars, dropTrailing, kept first, kept reversed, List.reverse_reverse]

end Text

namespace GrammarText

open Decimal

section

variable {rest : List Char}

/-- What a 64-bit number with sign can be. -/
def Fits (i : Int) : Prop := -0x8000000000000000 ≤ i ∧ i < 0x8000000000000000

theorem integer_digits {n : Nat} (negative : Bool) (fits : Fits (if negative then -(n : Int) else n))
    (stop : ∀ c ∈ rest.head?, c.isDigit = false) :
    integer? ((if negative then '-' :: Nat.toDigits 10 n else Nat.toDigits 10 n) ++ rest) =
      some (if negative then -(n : Int) else n, rest) := by
  have digits := splitDigits_append (isDigit_toDigits n) stop
  have value := digitsValue_toDigits n
  have all := isDigit_toDigits n
  have some : Nat.toDigits 10 n ≠ [] := Nat.toDigits_ne_nil
  generalize Nat.toDigits 10 n = word at digits value all some
  cases word with
  | nil => exact absurd rfl some
  | cons c word =>
    have other : c ≠ '-' := by
      rintro rfl
      exact absurd (all '-' List.mem_cons_self) (by decide)
    cases negative with
    | false =>
      simp only [List.cons_append] at digits
      simp only [Bool.false_eq_true, if_false, List.cons_append] at fits ⊢
      unfold integer?
      split
      rename_i negative after sign
      split at sign
      · rename_i same
        cases same
        exact absurd rfl other
      · cases sign
        simp only [digits, value]
        exact if_pos fits
    | true =>
      simp only [if_true, List.cons_append] at digits fits ⊢
      unfold integer?
      simp only [digits, value, if_true]
      exact if_pos fits

theorem toList_toString (i : Int) : (toString i).toList =
    if decide (i < 0) then '-' :: Nat.toDigits 10 i.natAbs else Nat.toDigits 10 i.natAbs := by
  cases i with
  | ofNat n =>
    have least : ¬ Int.ofNat n < 0 := Int.not_lt.mpr (Int.natCast_nonneg n)
    rw [decide_eq_false least]
    exact Nat.toList_repr
  | negSucc n =>
    have less : Int.negSucc n < 0 := Int.negSucc_lt_zero n
    rw [decide_eq_true less]
    change ("-" ++ Nat.repr (n + 1)).toList = _
    rw [String.toList_append, Nat.toList_repr]
    rfl

theorem integer_text {i : Int} (fits : Fits i) (stop : ∀ c ∈ rest.head?, c.isDigit = false) :
    integer? ((toString i).toList ++ rest) = some (i, rest) := by
  have same : (if decide (i < 0) = true then -(i.natAbs : Int) else i.natAbs) = i := by
    by_cases less : i < 0
    · rw [decide_eq_true less, if_pos rfl]
      omega
    · rw [decide_eq_false less, if_neg Bool.false_ne_true]
      omega
  have read := integer_digits (n := i.natAbs) (decide (i < 0)) (by rwa [same]) stop
  rwa [same, ← toList_toString] at read

theorem number_text {x : Float} (finite : x.isFinite = true) (separated : Separated rest) :
    number? ((Decimal.text x).toList ++ rest) = some (x, rest) := by
  rw [number?, scan_text finite separated]

theorem literalBody_literal (literal rest : List Char) :
    literalBody? (literal.flatMap Text.literalChar ++ '"' :: rest) = some (literal, rest) := by
  induction literal with
  | nil => rfl
  | cons c literal ih =>
    rw [List.flatMap_cons, List.append_assoc, Text.literalChar]
    split
    · rename_i special
      simp only [List.cons_append, List.nil_append]
      rw [literalBody?, if_pos special, ih]
      rfl
    · rename_i plain
      rw [not_or] at plain
      simp only [List.cons_append, List.nil_append]
      rw [literalBody?.eq_def]
      split
      · simp_all
      · simp_all
      · simp_all
      · rename_i same
        cases same
        rw [ih]
        rfl
      · simp_all

theorem literal_literal (literal rest : List Char) :
    literal? (Text.literalChars literal ++ rest) = some (String.ofList literal, rest) := by
  rw [Text.literalChars, List.cons_append, literal?, List.append_assoc]
  simp only [List.cons_append, List.nil_append, literalBody_literal]
  rfl

end

/-- The characters outside literals of the lines that are written. -/
def Plain (text : List Char) : Prop := ∀ c ∈ text, Text.Inked c ∨ c = ' '

theorem balanced_of_plain {text : List Char} (plain : Plain text) : Balanced text := by
  apply balanced_of_chars
  intro c member
  rcases plain c member with inked | rfl
  · exact ⟨inked.quote, inked.comment⟩
  · decide

theorem escaped_literal (literal : List Char) : Escaped (literal.flatMap Text.literalChar) := by
  induction literal with
  | nil => exact .nil
  | cons c literal ih =>
    rw [List.flatMap_cons, Text.literalChar]
    split
    · exact .pair c ih
    · rename_i plain
      rw [not_or] at plain
      exact .char plain.1 plain.2 ih

theorem balanced_literal (literal : List Char) : Balanced (Text.literalChars literal) :=
  .literal (escaped_literal literal) .nil

theorem splitLines_append {line : List Char} (single : '\n' ∉ line) (rest : List Char) :
    splitLines (line ++ '\n' :: rest) = line :: splitLines rest := by
  induction line with
  | nil => rw [List.nil_append, splitLines, if_pos rfl]
  | cons c line ih =>
    rw [List.mem_cons, not_or] at single
    rw [List.cons_append, splitLines, if_neg (Ne.symm single.1), ih single.2]

/-- A last line needs no line feed. -/
theorem splitLines_last {line : List Char} (single : '\n' ∉ line) :
    splitLines line = if line = [] then [] else [line] := by
  induction line with
  | nil => rfl
  | cons c line ih =>
    rw [List.mem_cons, not_or] at single
    rw [splitLines, if_neg (Ne.symm single.1), ih single.2, if_neg (List.cons_ne_nil c line)]
    by_cases none : line = []
    · rw [if_pos none, none]
    · rw [if_neg none]

/-- Lines that are joined come apart again. -/
theorem splitLines_join {lines : List (List Char)} (single : ∀ line ∈ lines, '\n' ∉ line) :
    splitLines (lines.flatMap (· ++ ['\n'])) = lines := by
  induction lines with
  | nil => rfl
  | cons line lines ih =>
    rw [List.flatMap_cons, List.append_assoc, List.cons_append, List.nil_append,
      splitLines_append (single line List.mem_cons_self),
      ih fun other inside => single other (List.mem_cons_of_mem line inside)]

end GrammarText

end StochasticGrammar
