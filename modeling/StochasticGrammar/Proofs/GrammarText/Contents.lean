import StochasticGrammar.Proofs.GrammarText.Lines

/-!
The text of a line as it stands in a grammar text. It is one line, no comment begins in it, and no
white space is cut off at its ends, so that its content is the text itself.
-/

namespace StochasticGrammar.GrammarText

open Decimal hiding text
open Formula (IsName EndsInked inked_name inked_text)

section

variable {text : List Char}

theorem plain_append {front : List Char} (first : Plain front) (second : Plain text) :
    Plain (front ++ text) :=
  List.forall_mem_append.mpr ⟨first, second⟩

theorem plain_text (word : List Char)
    (codes : word.all (fun c => decide (36 ≤ c.toNat ∧ c.toNat ≤ 126 ∨ c = ' ')) = true) : Plain word := by
  intro c inside
  have code := of_decide_eq_true (List.all_eq_true.mp codes c inside)
  exact code.imp_left fun range => Text.inked_of_toNat range.1 range.2

theorem plain_of_inked (inked : ∀ c ∈ text, Text.Inked c) : Plain text :=
  fun c inside => .inl (inked c inside)

theorem plain_number {x : Float} (finite : x.isFinite = true) : Plain (Decimal.text x).toList :=
  plain_of_inked (inked_text finite)

theorem plain_formula {formula : Option String} (trimmed : ∀ text ∈ formula, Trimmed text.toList) :
    Plain (formulaSuffix formula) := by
  cases formula with
  | none => exact List.forall_mem_nil _
  | some text =>
    have colon : Plain [' ', ':', ' '] := plain_text _ (by decide)
    exact plain_append colon (trimmed text rfl).plain

theorem boundsSuffix_some (b : Float × Float) : boundsSuffix (some b) =
    [' ', 'i', 'n', ' ', '['] ++ (Decimal.text b.1).toList ++
      ([',', ' '] ++ (Decimal.text b.2).toList ++ [']']) := by
  simp [boundsSuffix]

theorem plain_bounds {bounds : Option (Float × Float)}
    (finite : ∀ b ∈ bounds, b.1.isFinite = true ∧ b.2.isFinite = true) : Plain (boundsSuffix bounds) := by
  cases bounds with
  | none => exact List.forall_mem_nil _
  | some b =>
    obtain ⟨lower, upper⟩ := finite b rfl
    have word : Plain [' ', 'i', 'n', ' ', '['] := plain_text _ (by decide)
    have comma : Plain [',', ' '] := plain_text _ (by decide)
    have bracket : Plain [']'] := plain_text _ (by decide)
    rw [boundsSuffix_some]
    exact plain_append (plain_append word (plain_number lower))
      (plain_append (plain_append comma (plain_number upper)) bracket)

/-- A text whose last character is not blank. -/
def Closes (text : List Char) : Prop := ∀ c ∈ text.getLast?, Text.isBlank c = false

theorem Closes.append {front : List Char} (closes : Closes front) (closes' : Closes text) :
    Closes (front ++ text) := by
  intro c last
  rw [List.getLast?_append] at last
  cases shape : text.getLast? with
  | none =>
    rw [shape] at last
    exact closes c last
  | some d =>
    rw [shape] at last
    cases last
    exact closes' c shape

theorem closes_of_inked (inked : ∀ c ∈ text, Text.Inked c) : Closes text :=
  fun c last => (inked c (List.mem_of_mem_getLast? last)).blank

theorem Closes.after (closes : Closes text) (some : text ≠ []) (front : List Char) :
    Closes (front ++ text) := by
  intro c last
  rw [List.getLast?_append_of_ne_nil front some] at last
  exact closes c last

theorem closes_bounds (bounds : Option (Float × Float)) : Closes (boundsSuffix bounds) := by
  cases bounds with
  | none => exact closes_of_inked (List.forall_mem_nil _)
  | some b =>
    have bracket : Closes [']'] := by
      intro c last
      cases last
      decide
    rw [boundsSuffix_some, ← List.append_assoc]
    exact bracket.after (List.cons_ne_nil _ _) _

theorem closes_formula {formula : Option String} (trimmed : ∀ text ∈ formula, Trimmed text.toList) :
    Closes (formulaSuffix formula) := by
  cases formula with
  | none => exact closes_of_inked (List.forall_mem_nil _)
  | some text =>
    have ends : EndsInked (formulaSuffix (some text)) [] :=
      (((trimmed text rfl).ends.cons (.inr rfl)).cons (.inl (Text.inked_of_toNat (by decide) (by decide)))).cons
        (.inr rfl)
    exact endsInked_getLast ends

theorem not_mem_plain (plain : Plain text) : '\n' ∉ text := by
  intro inside
  rcases plain _ inside with inked | same
  · exact absurd inked.blank (by decide)
  · cases same

theorem not_mem_literal {literal : List Char} (single : '\n' ∉ literal) :
    '\n' ∉ Text.literalChars literal := by
  intro inside
  simp only [Text.literalChars, List.mem_cons, List.mem_append, List.mem_flatMap, List.not_mem_nil,
    or_false] at inside
  rcases inside with same | ⟨c, member, feed⟩ | same
  · cases same
  · unfold Text.literalChar at feed
    split at feed
    · simp only [List.mem_cons, List.not_mem_nil, or_false] at feed
      rcases feed with same | rfl
      · cases same
      · exact single member
    · rw [List.mem_singleton.mp feed] at single
      exact single member
  · cases same

theorem closes_literal (literal : List Char) : Closes (Text.literalChars literal) := by
  intro c last
  rw [Text.literalChars, ← List.cons_append, List.getLast?_append] at last
  cases last
  decide

/-- What the text of a line takes for its content to be all of it. -/
structure Whole (text : List Char) : Prop where
  begins : Begins text
  closes : Closes text
  bare : withoutComment false text = text
  single : '\n' ∉ text

theorem whole_of_plain (plain : Plain text) (begins : Begins text) (closes : Closes text) : Whole text :=
  ⟨begins, closes, (balanced_of_plain plain).withoutComment_eq, not_mem_plain plain⟩

theorem plain_arrow (i : Int) : Plain ((toString i).toList ++ [' ', '-', '>', ' ']) :=
  plain_append (plain_of_inked (inked_toString i)) (plain_text _ (by decide))

theorem Begins.ne_nil (begins : Begins text) : text ≠ [] := by
  obtain ⟨c, tail, rfl, -⟩ := begins
  exact List.cons_ne_nil c tail

/-- The text of a line is one line and holds no comment. -/
theorem whole_text {line : Line} (printable : line.Printable) : Whole line.text := by
  cases line with
  | start symbol =>
    have digits := inked_toString symbol
    have word : Plain ['s', 't', 'a', 'r', 't', ' '] := plain_text _ (by decide)
    apply whole_of_plain
    · exact plain_append word (plain_of_inked digits)
    · exact begins_cons 's' (by decide) (by decide) _
    · exact (closes_of_inked digits).after (toString_ne_nil symbol) ['s', 't', 'a', 'r', 't', ' ']
  | parameter name value bounds =>
    obtain ⟨named, finite, finite'⟩ := printable
    have shape : (Line.parameter name value bounds).text = (['p', 'a', 'r', 'a', 'm', ' '] ++ (name.toList ++
        [' ', '=', ' '])) ++ ((Decimal.text value).toList ++ boundsSuffix bounds) := by
      simp [Line.text]
    have word : Plain ['p', 'a', 'r', 'a', 'm', ' '] := plain_text _ (by decide)
    have equals : Plain [' ', '=', ' '] := plain_text _ (by decide)
    have number := begins_number finite
    rw [shape]
    apply whole_of_plain
    · exact plain_append (plain_append word (plain_append (plain_of_inked (inked_name named)) equals))
        (plain_append (plain_number finite) (plain_bounds finite'))
    · exact begins_cons 'p' (by decide) (by decide) _
    · exact ((closes_of_inked (inked_text finite)).append (closes_bounds bounds)).after
        (number.append _).ne_nil _
  | terminalRule rule =>
    obtain ⟨-, single, trimmed⟩ := printable
    have shape : (Line.terminalRule rule).text = ((toString rule.lhs).toList ++ [' ', '-', '>', ' ']) ++
        (Text.literalChars rule.literal.toList ++ formulaSuffix rule.formula) := by
      simp [Line.text]
    have front := plain_arrow rule.lhs
    have back := plain_formula trimmed
    rw [shape]
    refine ⟨((begins_toString rule.lhs).append _).append _, ?_, ?_, ?_⟩
    · exact ((closes_literal _).append (closes_formula trimmed)).after (by simp [Text.literalChars]) _
    · have literal := balanced_literal rule.literal.toList
      exact ((balanced_of_plain front).append (literal.append (balanced_of_plain back))).withoutComment_eq
    · exact List.not_mem_append (not_mem_plain front)
        (List.not_mem_append (not_mem_literal single) (not_mem_plain back))
  | binaryRule rule =>
    obtain ⟨-, -, -, trimmed⟩ := printable
    have shape : (Line.binaryRule rule).text = (((toString rule.lhs).toList ++ [' ', '-', '>', ' ']) ++
        ((toString rule.left).toList ++ [' '])) ++
          ((toString rule.right).toList ++ formulaSuffix rule.formula) := by
      simp [Line.text]
    have space : Plain [' '] := plain_text _ (by decide)
    have number (i : Int) : Plain (toString i).toList := plain_of_inked (inked_toString i)
    rw [shape]
    apply whole_of_plain
    · exact plain_append (plain_append (plain_arrow rule.lhs) (plain_append (number rule.left) space))
        (plain_append (number rule.right) (plain_formula trimmed))
    · exact (((begins_toString rule.lhs).append _).append _).append _
    · exact ((closes_of_inked (inked_toString rule.right)).append (closes_formula trimmed)).after
        ((begins_toString rule.right).append _).ne_nil _

/-- A line that is written has itself for its content. -/
theorem content_text {line : Line} (printable : line.Printable) : content line.text = line.text := by
  obtain ⟨begins, closes, bare, -⟩ := whole_text printable
  rw [content, bare]
  exact Text.trimChars_eq begins.head closes

theorem readLine_text {line : Line} (printable : line.Printable) (number : Nat) (progress : Progress) :
    readLine number progress line.text = line.declare number progress := by
  have some := (whole_text printable).begins.ne_nil
  unfold readLine
  rw [content_text printable]
  split
  · simp_all
  · rw [line_text printable]

end

end StochasticGrammar.GrammarText
