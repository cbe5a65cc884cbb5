import StochasticGrammar.Proofs.GrammarText.Words

/-!
The text of one line. Every line with numbers in range, proper names and finite numbers, whose literal
has no line feed, is read back from its text, which is one line without a comment.
-/

namespace StochasticGrammar.GrammarText

open Decimal hiding text
open Formula (IsName EndsInked name_append inked_name inked_text)

def formulaSuffix : Option String → List Char
  | none => []
  | some text => ' ' :: ':' :: ' ' :: text.toList

def boundsSuffix : Option (Float × Float) → List Char
  | none => []
  | some (lower, upper) =>
    ' ' :: 'i' :: 'n' :: ' ' :: '[' ::
      ((Decimal.text lower).toList ++ ',' :: ' ' :: ((Decimal.text upper).toList ++ [']']))

def Line.text : Line → List Char
  | .start symbol => 's' :: 't' :: 'a' :: 'r' :: 't' :: ' ' :: (toString symbol).toList
  | .parameter name value bounds =>
    'p' :: 'a' :: 'r' :: 'a' :: 'm' :: ' ' ::
      (name.toList ++ ' ' :: '=' :: ' ' :: ((Decimal.text value).toList ++ boundsSuffix bounds))
  | .terminalRule rule =>
    (toString rule.lhs).toList ++ ' ' :: '-' :: '>' :: ' ' ::
      (Text.literalChars rule.literal.toList ++ formulaSuffix rule.formula)
  | .binaryRule rule =>
    (toString rule.lhs).toList ++ ' ' :: '-' :: '>' :: ' ' ::
      ((toString rule.left).toList ++ ' ' :: ((toString rule.right).toList ++ formulaSuffix rule.formula))

/-- A text whose first character leaves a mark. -/
def Begins (text : List Char) : Prop := ∃ c rest, text = c :: rest ∧ Text.Inked c

/-- The text of a formula as it stands in a line. -/
structure Trimmed (text : List Char) : Prop where
  plain : Plain text
  begins : Begins text
  ends : EndsInked text []

/-- A line that reads back. -/
def Line.Printable : Line → Prop
  | .start symbol => Fits symbol
  | .parameter name value bounds =>
    IsName name ∧ value.isFinite = true ∧ ∀ b ∈ bounds, b.1.isFinite = true ∧ b.2.isFinite = true
  | .terminalRule rule =>
    Fits rule.lhs ∧ '\n' ∉ rule.literal.toList ∧ ∀ text ∈ rule.formula, Trimmed text.toList
  | .binaryRule rule =>
    Fits rule.lhs ∧ Fits rule.left ∧ Fits rule.right ∧ ∀ text ∈ rule.formula, Trimmed text.toList

section

variable {text rest : List Char}

theorem Begins.append (begins : Begins text) (rest : List Char) : Begins (text ++ rest) := by
  obtain ⟨c, tail, rfl, inked⟩ := begins
  exact ⟨c, tail ++ rest, rfl, inked⟩

theorem begins_cons (c : Char) (low : 36 ≤ c.toNat) (high : c.toNat ≤ 126) (rest : List Char) :
    Begins (c :: rest) :=
  ⟨c, rest, rfl, Text.inked_of_toNat low high⟩

theorem begins_of_inked (some : text ≠ []) (inked : ∀ c ∈ text, Text.Inked c) : Begins text := by
  cases text with
  | nil => exact absurd rfl some
  | cons c rest => exact ⟨c, rest, rfl, inked c List.mem_cons_self⟩

theorem skipGap_begins (begins : Begins text) : skipGap text = text ∧ skipGap (' ' :: text) = text := by
  obtain ⟨c, tail, rfl, inked⟩ := begins
  have other (d : Char) (blank : Text.isBlank d = true) : c ≠ d := by
    rintro rfl
    exact Bool.false_ne_true (inked.blank.symm.trans blank)
  have mark : isGap c = false := by simp [isGap, other ' ' (by decide), other '\t' (by decide)]
  have kept : skipGap (c :: tail) = c :: tail := by
    rw [skipGap, List.dropWhile_cons_of_neg (by rw [mark]; exact Bool.false_ne_true)]
  refine ⟨kept, ?_⟩
  rw [← kept, skipGap, List.dropWhile_cons_of_pos (by decide), ← skipGap, kept, kept]

theorem gap_begins (begins : Begins text) : gap? (' ' :: text) = some text := by
  unfold gap?
  rw [(skipGap_begins begins).2]
  exact if_pos (Nat.lt_succ_self _)

theorem inked_toString (i : Int) : ∀ c ∈ (toString i).toList, Text.Inked c := by
  have digits (n : Nat) : ∀ c ∈ Nat.toDigits 10 n, Text.Inked c := by
    intro c inside
    have range := Text.isDigit_toNat (isDigit_toDigits n c inside)
    exact Text.inked_of_toNat (by omega) (by omega)
  rw [toList_toString]
  intro c inside
  split at inside
  · rcases List.mem_cons.mp inside with rfl | digit
    · exact Text.inked_of_toNat (by decide) (by decide)
    · exact digits _ c digit
  · exact digits _ c inside

theorem toString_ne_nil (i : Int) : (toString i).toList ≠ [] := by
  rw [toList_toString]
  split
  · exact List.cons_ne_nil _ _
  · exact Nat.toDigits_ne_nil

theorem begins_toString (i : Int) : Begins (toString i).toList :=
  begins_of_inked (toString_ne_nil i) (inked_toString i)

theorem begins_number {x : Float} (finite : x.isFinite = true) : Begins (Decimal.text x).toList := by
  obtain ⟨negative, v, written, -⟩ := text_written finite
  obtain ⟨c, tail, shape, -⟩ := written_digit v
  apply begins_of_inked _ (inked_text finite)
  rw [written, shape]
  split <;> exact List.cons_ne_nil _ _

theorem begins_name {name : String} (word : IsName name) : Begins name.toList := by
  apply begins_of_inked _ (inked_name word)
  obtain ⟨c, tail, shape, -⟩ := word
  rw [shape]
  exact List.cons_ne_nil c tail

theorem endsInked_getLast (ends : EndsInked text []) : ∀ c ∈ text.getLast?, Text.isBlank c = false := by
  obtain ⟨front, c, rfl, inked, -⟩ := ends
  intro d last
  rw [List.getLast?_append] at last
  cases last
  exact inked.blank

theorem Begins.head (begins : Begins text) : ∀ c ∈ text.head?, Text.isBlank c = false := by
  obtain ⟨c, tail, rfl, inked⟩ := begins
  intro d first
  cases first
  exact inked.blank

/-- The formula at the end of a line, or that there is none. -/
theorem formulaText_suffix {formula : Option String} (trimmed : ∀ text ∈ formula, Trimmed text.toList) :
    formulaText (formulaSuffix formula) = (formula, []) := by
  cases formula with
  | none => rfl
  | some text =>
    obtain ⟨plain, begins, ends⟩ := trimmed text rfl
    have kept := Text.trimChars_eq begins.head (endsInked_getLast ends)
    obtain ⟨c, tail, shape, inked⟩ := begins
    have trim : Text.trimChars (' ' :: text.toList) = text.toList := by
      rw [← kept]
      conv_lhs => rw [Text.trimChars, List.dropWhile_cons_of_pos (by decide), kept]
      rfl
    have colon : word? [':'] (skipGap (formulaSuffix (some text))) = some (' ' :: text.toList) := by
      rw [formulaSuffix, (skipGap_begins (begins_cons ':' (by decide) (by decide) _)).2]
      rfl
    unfold formulaText
    rw [colon]
    simp only [trim]
    split
    · simp_all
    · rw [String.ofList_toList]

theorem formulaSuffix_not_isDigit (formula : Option String) :
    ∀ c ∈ (formulaSuffix formula).head?, c.isDigit = false := by
  intro c first
  cases formula with
  | none => cases first
  | some text =>
    cases first
    decide

theorem bounds_suffix {lower upper : Float} (finite : lower.isFinite = true)
    (finite' : upper.isFinite = true) :
    bounds? (boundsSuffix (some (lower, upper))) = some ((lower, upper), []) := by
  have first := number_text finite
    (separated_cons (.inr (.inr (.inl rfl))) (' ' :: ((Decimal.text upper).toList ++ [']'])))
  have second := number_text finite' (separated_cons (.inr (.inr (.inr rfl))) [])
  have word : Begins ('i' :: 'n' :: ' ' :: '[' ::
      ((Decimal.text lower).toList ++ ',' :: ' ' :: ((Decimal.text upper).toList ++ [']']))) :=
    begins_cons 'i' (by decide) (by decide) _
  have open_eq := (skipGap_begins (begins_cons '[' (by decide) (by decide)
    ((Decimal.text lower).toList ++ ',' :: ' ' :: ((Decimal.text upper).toList ++ [']'])))).2
  have comma := (skipGap_begins (begins_cons ',' (by decide) (by decide)
    (' ' :: ((Decimal.text upper).toList ++ [']'])))).1
  have close := (skipGap_begins (begins_cons ']' (by decide) (by decide) [])).1
  have lower_eq := (skipGap_begins ((begins_number finite).append
    (',' :: ' ' :: ((Decimal.text upper).toList ++ [']'])))).1
  have upper_eq := (skipGap_begins ((begins_number finite').append [']'])).2
  simp only [bounds?, boundsSuffix, gap_begins word, word?, open_eq, lower_eq, first, comma, upper_eq,
    second, close, Option.bind_eq_bind, Option.bind_some, if_pos]
  rfl

end

section

variable {rest : List Char}

theorem start_word (rest : List Char) :
    word? "start".toList ('s' :: 't' :: 'a' :: 'r' :: 't' :: rest) = some rest := by
  have word : "start".toList = ['s', 't', 'a', 'r', 't'] := rfl
  rw [word]
  rfl

theorem param_word (rest : List Char) :
    word? "param".toList ('p' :: 'a' :: 'r' :: 'a' :: 'm' :: rest) = some rest := by
  have word : "param".toList = ['p', 'a', 'r', 'a', 'm'] := rfl
  rw [word]
  rfl

theorem start_none {c : Char} (other : 's' ≠ c) (rest : List Char) : start? (c :: rest) = none := by
  have word : "start".toList = ['s', 't', 'a', 'r', 't'] := rfl
  rw [start?, word, word?, if_neg other]
  rfl

theorem parameter_none {c : Char} (other : 'p' ≠ c) (rest : List Char) : parameter? (c :: rest) = none := by
  have word : "param".toList = ['p', 'a', 'r', 'a', 'm'] := rfl
  rw [parameter?, word, word?, if_neg other]
  rfl

theorem start_text {symbol : Int} (fits : Fits symbol) :
    line? (Line.start symbol).text = some (.start symbol) := by
  have digits : integer? ((toString symbol).toList ++ []) = some (symbol, []) :=
    integer_text fits (by simp)
  rw [List.append_nil] at digits
  have read : start? (Line.start symbol).text = some (.start symbol, []) := by
    rw [start?, Line.text, start_word]
    simp only [Option.bind_eq_bind, Option.bind_some, gap_begins (begins_toString symbol), digits]
    rfl
  rw [line?, read]
  rfl

theorem parameter_text {name : String} {value : Float} {bounds : Option (Float × Float)} (word : IsName name)
    (finite : value.isFinite = true)
    (finite' : ∀ b ∈ bounds, b.1.isFinite = true ∧ b.2.isFinite = true) :
    line? (Line.parameter name value bounds).text = some (.parameter name value bounds) := by
  have read : parameter? (Line.parameter name value bounds).text =
      some (.parameter name value bounds, []) := by
    have begins := (begins_name word).append
      (' ' :: '=' :: ' ' :: ((Decimal.text value).toList ++ boundsSuffix bounds))
    have stop : ∀ c ∈ (' ' :: '=' :: ' ' :: ((Decimal.text value).toList ++
        boundsSuffix bounds)).head?, Formula.continuesName c = false := by
      intro c first
      cases first
      decide
    have named := name_append word stop
    have equals := (skipGap_begins (begins_cons '=' (by decide) (by decide)
      (' ' :: ((Decimal.text value).toList ++ boundsSuffix bounds)))).2
    have skipped := (skipGap_begins ((begins_number finite).append (boundsSuffix bounds))).2
    have separated : Separated (boundsSuffix bounds) := by
      cases bounds with
      | none => exact separated_nil
      | some b => exact separated_cons (.inl rfl) _
    rw [parameter?, Line.text, param_word]
    simp only [Option.bind_eq_bind, Option.bind_some, gap_begins begins, named, equals, word?, if_pos,
      skipped, number_text finite separated]
    cases bounds with
    | none => rfl
    | some b =>
      obtain ⟨lower, upper⟩ := finite' b rfl
      rw [bounds_suffix lower upper]
      rfl
  have none : start? (Line.parameter name value bounds).text = none := start_none (by decide) _
  rw [line?, none, read]
  rfl

/-- The number at the beginning of a rule is no other word. -/
theorem rule_line {i : Int} {line : Line} (read : rule? ((toString i).toList ++ rest) = some (line, [])) :
    line? ((toString i).toList ++ rest) = some line := by
  have inked := inked_toString i
  have digit : ∀ c ∈ (toString i).toList, c ≠ 's' ∧ c ≠ 'p' := by
    rw [toList_toString]
    intro c inside
    have number : ∀ c ∈ Nat.toDigits 10 i.natAbs, c ≠ 's' ∧ c ≠ 'p' := by
      intro c digit
      have range := Text.isDigit_toNat (isDigit_toDigits _ c digit)
      constructor
      · rintro rfl
        exact absurd range (by decide)
      · rintro rfl
        exact absurd range (by decide)
    split at inside
    · rcases List.mem_cons.mp inside with rfl | digit
      · decide
      · exact number c digit
    · exact number c inside
  have some := toString_ne_nil i
  generalize (toString i).toList = word at read digit some
  cases word with
  | nil => exact absurd rfl some
  | cons c word =>
    obtain ⟨start, param⟩ := digit c List.mem_cons_self
    rw [List.cons_append] at read ⊢
    rw [line?, start_none start.symm, parameter_none param.symm, read]
    rfl

theorem terminalRule_text {rule : TerminalDeclaration} (fits : Fits rule.lhs)
    (trimmed : ∀ text ∈ rule.formula, Trimmed text.toList) :
    line? (Line.terminalRule rule).text = some (.terminalRule rule) := by
  have stop : ∀ c ∈ (' ' :: '-' :: '>' :: ' ' ::
      (Text.literalChars rule.literal.toList ++ formulaSuffix rule.formula)).head?, c.isDigit = false := by
    intro c first
    cases first
    decide
  have arrow := (skipGap_begins (begins_cons '-' (by decide) (by decide)
    ('>' :: ' ' :: (Text.literalChars rule.literal.toList ++ formulaSuffix rule.formula)))).2
  have literal := literal_literal rule.literal.toList (formulaSuffix rule.formula)
  have skipped : skipGap (' ' :: (Text.literalChars rule.literal.toList ++ formulaSuffix rule.formula)) =
      Text.literalChars rule.literal.toList ++ formulaSuffix rule.formula := rfl
  apply rule_line
  rw [rule?]
  simp only [integer_text fits stop, Option.bind_eq_bind, Option.bind_some, arrow, word?, if_pos, skipped,
    literal, formulaText_suffix trimmed, String.ofList_toList]
  rfl

theorem binaryRule_text {rule : BinaryDeclaration} (fits : Fits rule.lhs) (left : Fits rule.left)
    (right : Fits rule.right) (trimmed : ∀ text ∈ rule.formula, Trimmed text.toList) :
    line? (Line.binaryRule rule).text = some (.binaryRule rule) := by
  have stop (rest : List Char) : ∀ c ∈ (' ' :: rest).head?, c.isDigit = false := by
    intro c first
    cases first
    decide
  have second := (begins_toString rule.right).append (formulaSuffix rule.formula)
  have first := (begins_toString rule.left).append
    (' ' :: ((toString rule.right).toList ++ formulaSuffix rule.formula))
  have arrow := (skipGap_begins (begins_cons '-' (by decide) (by decide)
    ('>' :: ' ' :: ((toString rule.left).toList ++ ' ' ::
      ((toString rule.right).toList ++ formulaSuffix rule.formula))))).2
  have literal : literal? ((toString rule.left).toList ++ ' ' ::
      ((toString rule.right).toList ++ formulaSuffix rule.formula)) = none := by
    obtain ⟨c, tail, shape, inked⟩ := first
    rw [shape]
    unfold literal?
    split
    · rename_i same
      cases same
      exact absurd rfl inked.quote
    · rfl
  apply rule_line
  rw [rule?]
  simp only [integer_text fits (stop _), Option.bind_eq_bind, Option.bind_some, arrow, word?, if_pos,
    (skipGap_begins first).2, literal, integer_text left (stop _), gap_begins second,
    integer_text right (formulaSuffix_not_isDigit _), formulaText_suffix trimmed]
  rfl

/-- A line reads back from its text. -/
theorem line_text {line : Line} (printable : line.Printable) : line? line.text = some line := by
  cases line with
  | start symbol => exact start_text printable
  | parameter name value bounds => exact parameter_text printable.1 printable.2.1 printable.2.2
  | terminalRule rule => exact terminalRule_text printable.1 printable.2.2
  | binaryRule rule =>
    exact binaryRule_text printable.1 printable.2.1 printable.2.2.1 printable.2.2.2

end

end StochasticGrammar.GrammarText
