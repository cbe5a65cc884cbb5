import Mathlib
import StochasticGrammar.GrammarText.Reader

/-!
Where literals and comments begin and end. The text of a literal is cut by no comment, whatever
characters and escapes stand in it, and what is read of it is all that stands between its quotes. What
follows a text whose literals are closed can therefore be a comment, which leaves the content of the
line as it was.
-/

namespace StochasticGrammar

namespace Text

variable {text blanks : List Char}

theorem dropWhile_append_blank (blank : ∀ c ∈ blanks, isBlank c = true) :
    (text ++ blanks).dropWhile isBlank = text.dropWhile isBlank ++ blanks ∨
      (text ++ blanks).dropWhile isBlank = [] ∧ text.dropWhile isBlank = [] := by
  rw [List.dropWhile_append]
  split
  · rename_i none
    right
    refine ⟨?_, by simpa using none⟩
    rw [List.dropWhile_eq_nil_iff]
    exact fun c member => blank c member
  · exact .inl rfl

theorem trimChars_append_blank (blank : ∀ c ∈ blanks, isBlank c = true) :
    trimChars (text ++ blanks) = trimChars text := by
  have reversed : ∀ c ∈ blanks.reverse, isBlank c = true :=
    fun c member => blank c (List.mem_reverse.mp member)
  unfold trimChars dropTrailing
  rcases dropWhile_append_blank blank with kept | ⟨none, none'⟩
  · rw [kept, List.reverse_append, List.dropWhile_append_of_pos reversed]
  · rw [none, none']

/-- Only white space is taken off at the ends. -/
theorem exists_trimChars (text : List Char) : ∃ before after, text = before ++ trimChars text ++ after ∧
    (∀ c ∈ before, isBlank c = true) ∧ ∀ c ∈ after, isBlank c = true := by
  have ends (text : List Char) : ∃ after, text = dropTrailing isBlank text ++ after ∧
      ∀ c ∈ after, isBlank c = true := by
    refine ⟨(text.reverse.takeWhile isBlank).reverse, ?_, ?_⟩
    · rw [dropTrailing, ← List.reverse_append, List.takeWhile_append_dropWhile, List.reverse_reverse]
    · intro c member
      exact List.mem_takeWhile_imp (List.mem_reverse.mp member)
  rcases ends (text.dropWhile isBlank) with ⟨after, split, blank⟩
  refine ⟨text.takeWhile isBlank, after, ?_, fun c => List.mem_takeWhile_imp, blank⟩
  rw [List.append_assoc, trimChars, ← split, List.takeWhile_append_dropWhile]

end Text

namespace GrammarText

/-- The text of a literal up to some place in it. A backslash takes the next character with it, and a
quote stands only behind one. -/
inductive Escaped : List Char → Prop
  | nil : Escaped []
  | char {c : Char} {text : List Char} (quote : c ≠ '"') (slash : c ≠ '\\') (later : Escaped text) :
    Escaped (c :: text)
  | pair (c : Char) {text : List Char} (later : Escaped text) : Escaped ('\\' :: c :: text)

/-- A text in which every literal is closed and no comment begins. -/
inductive Balanced : List Char → Prop
  | nil : Balanced []
  | char {c : Char} {text : List Char} (quote : c ≠ '"') (comment : c ≠ '#') (later : Balanced text) :
    Balanced (c :: text)
  | literal {body text : List Char} (inside : Escaped body) (later : Balanced text) :
    Balanced ('"' :: (body ++ '"' :: text))

/-- The end of the line stands outside of a literal, in a comment or not. -/
def Finished (line : List Char) : Prop :=
  Balanced line ∨ ∃ front comment, Balanced front ∧ line = front ++ '#' :: comment

section

variable {front body text : List Char}

theorem withoutComment_quote (inLiteral : Bool) (rest : List Char) :
    withoutComment inLiteral ('"' :: rest) = '"' :: withoutComment (!inLiteral) rest := by
  rw [withoutComment.eq_def]
  simp

theorem withoutComment_hash (rest : List Char) : withoutComment false ('#' :: rest) = [] := by
  rw [withoutComment.eq_def]
  simp

theorem withoutComment_char {c : Char} (quote : c ≠ '"') (comment : c ≠ '#') (rest : List Char) :
    withoutComment false (c :: rest) = c :: withoutComment false rest := by
  rw [withoutComment.eq_def]
  simp [quote, comment]

theorem withoutComment_char_literal {c : Char} (quote : c ≠ '"') (slash : c ≠ '\\') (rest : List Char) :
    withoutComment true (c :: rest) = c :: withoutComment true rest := by
  rw [withoutComment.eq_def]
  simp [quote, slash]

/-- No comment begins in a literal. -/
theorem Escaped.withoutComment_append (inside : Escaped body) (rest : List Char) :
    withoutComment true (body ++ rest) = body ++ withoutComment true rest := by
  induction inside with
  | nil => rfl
  | char quote slash later ih =>
    rw [List.cons_append, withoutComment_char_literal quote slash, ih, List.cons_append]
  | pair c later ih =>
    rw [List.cons_append, List.cons_append, withoutComment, ih, List.cons_append, List.cons_append]

theorem Balanced.withoutComment_append (balanced : Balanced front) (rest : List Char) :
    withoutComment false (front ++ rest) = front ++ withoutComment false rest := by
  induction balanced with
  | nil => rfl
  | char quote comment later ih =>
    rw [List.cons_append, withoutComment_char quote comment, ih, List.cons_append]
  | literal inside later ih =>
    simp only [List.cons_append, List.append_assoc]
    rw [withoutComment_quote, Bool.not_false, inside.withoutComment_append, withoutComment_quote,
      Bool.not_true, ih]

theorem Balanced.withoutComment_eq (balanced : Balanced text) : withoutComment false text = text := by
  have all := balanced.withoutComment_append []
  rwa [List.append_nil, withoutComment, List.append_nil] at all

/-- A `#` in a literal is kept, whatever stands before it in the literal and behind it. -/
theorem withoutComment_inside (balanced : Balanced front) (inside : Escaped body) (rest : List Char) :
    withoutComment false (front ++ '"' :: (body ++ '#' :: rest)) =
      front ++ '"' :: (body ++ '#' :: withoutComment true rest) := by
  have hash := withoutComment_char_literal (c := '#') (by decide) (by decide) rest
  rw [balanced.withoutComment_append, withoutComment_quote, Bool.not_false, inside.withoutComment_append, hash]

theorem Balanced.append (balanced : Balanced front) (later : Balanced text) : Balanced (front ++ text) := by
  induction balanced with
  | nil => exact later
  | char quote comment _ ih => exact .char quote comment ih
  | literal inside _ ih =>
    simp only [List.cons_append, List.append_assoc]
    exact .literal inside ih

theorem balanced_of_chars (marks : ∀ c ∈ text, c ≠ '"' ∧ c ≠ '#') : Balanced text := by
  induction text with
  | nil => exact .nil
  | cons c text ih =>
    rw [List.forall_mem_cons] at marks
    exact .char marks.1.1 marks.1.2 (ih marks.2)

theorem balanced_of_blank (blank : ∀ c ∈ text, Text.isBlank c = true) : Balanced text := by
  apply balanced_of_chars
  intro c member
  constructor <;> rintro rfl <;> exact absurd (blank _ member) (by decide)

theorem withoutComment_initial (inLiteral : Bool) (text : List Char) : withoutComment inLiteral text <+: text := by
  fun_induction withoutComment inLiteral text with
  | case1 => exact List.prefix_rfl
  | case2 c rest ih => exact (List.prefix_cons_inj _).mpr ((List.prefix_cons_inj _).mpr ih)
  | case3 inLiteral rest other ih => exact (List.prefix_cons_inj _).mpr ih
  | case4 => exact List.nil_prefix
  | case5 inLiteral c rest other quote hash ih => exact (List.prefix_cons_inj _).mpr ih

variable {blanks : List Char} (blank : ∀ c ∈ blanks, Text.isBlank c = true)

include blank

theorem withoutComment_blank (inLiteral : Bool) : ∀ c ∈ withoutComment inLiteral blanks, Text.isBlank c = true :=
  fun c member => blank c ((withoutComment_initial inLiteral blanks).subset member)

/-- White space at the end of a line stays there or falls to a comment. -/
theorem withoutComment_append_blank (inLiteral : Bool) (line : List Char) : ∃ kept,
    withoutComment inLiteral (line ++ blanks) = withoutComment inLiteral line ++ kept ∧
      ∀ c ∈ kept, Text.isBlank c = true := by
  fun_induction withoutComment inLiteral line with
  | case1 inLiteral => exact ⟨_, rfl, withoutComment_blank blank inLiteral⟩
  | case2 c rest ih =>
    rcases ih with ⟨kept, same, blank'⟩
    exact ⟨kept, by rw [List.cons_append, List.cons_append, withoutComment, same]; rfl, blank'⟩
  | case3 inLiteral rest other ih =>
    rcases ih with ⟨kept, same, blank'⟩
    exact ⟨kept, by rw [List.cons_append, withoutComment_quote, same]; rfl, blank'⟩
  | case4 inLiteral c rest other quote hash =>
    obtain ⟨rfl, outside⟩ := hash
    cases inLiteral with
    | true => cases outside
    | false => exact ⟨[], withoutComment_hash _, List.forall_mem_nil _⟩
  | case5 inLiteral c rest other quote hash ih =>
    rcases ih with ⟨kept, same, blank'⟩
    cases inLiteral with
    | false =>
      have comment : c ≠ '#' := fun same => hash ⟨same, rfl⟩
      exact ⟨kept, by rw [List.cons_append, withoutComment_char quote comment, same]; rfl, blank'⟩
    | true =>
      by_cases slash : c = '\\'
      · -- A backslash at the end takes the first of the white space with it.
        subst slash
        cases rest with
        | cons d rest => exact (other d rest rfl rfl rfl).elim
        | nil =>
          cases blanks with
          | nil => exact ⟨[], rfl, List.forall_mem_nil _⟩
          | cons d blanks =>
            rw [List.forall_mem_cons] at blank
            exact ⟨d :: withoutComment true blanks, rfl,
              List.forall_mem_cons.mpr ⟨blank.1, withoutComment_blank blank.2 true⟩⟩
      · exact ⟨kept, by rw [List.cons_append, withoutComment_char_literal quote slash, same]; rfl, blank'⟩

theorem content_append_blank (line : List Char) : content (line ++ blanks) = content line := by
  rcases withoutComment_append_blank blank false line with ⟨kept, same, blank'⟩
  rw [content, same, Text.trimChars_append_blank blank', content]

/-- A comment at the end of a line is not part of its content, nor is white space before it. -/
theorem content_append_comment {line : List Char} (finished : Finished line) (comment : List Char) :
    content (line ++ (blanks ++ '#' :: comment)) = content line := by
  unfold content
  rcases finished with closed | ⟨front, comment', closed, rfl⟩
  · rw [closed.withoutComment_append, (balanced_of_blank blank).withoutComment_append, withoutComment_hash,
      List.append_nil, Text.trimChars_append_blank blank, closed.withoutComment_eq]
  · rw [List.append_assoc, List.cons_append, closed.withoutComment_append, closed.withoutComment_append,
      withoutComment_hash, withoutComment_hash]

end

end GrammarText

end StochasticGrammar
