import StochasticGrammar.Proofs.GrammarText.Contents

/-!
Remarks in a grammar text. White space and comments may be added to lines, lines with nothing else may
be put between them, and lines may end with or without a carriage return: what is read is the same, and
so is what cannot be read, but for the numbers of the lines.
-/

namespace StochasticGrammar

/-- The same fault with the lines numbered anew. -/
def LineFault.renumber (place : Nat → Nat) : LineFault → LineFault
  | .startRepeated line => .startRepeated (place line)
  | fault => fault

def Error.renumber (place : Nat → Nat) : Error → Error
  | .line number fault => .line (place number) (fault.renumber place)
  | fault => fault

namespace GrammarText

/-- How a line ends; the last one need not. -/
inductive LineEnd where
  | none
  | feed
  | returnFeed

def LineEnd.chars : LineEnd → List Char
  | none => []
  | feed => ['\n']
  | returnFeed => ['\r', '\n']

/-- White space, and a comment after it if the line is not in a literal. -/
def Remark (line remark : List Char) : Prop :=
  ∃ blanks rest, remark = blanks ++ rest ∧ (∀ c ∈ blanks, Text.isBlank c = true) ∧
    (rest = [] ∨ Finished line ∧ ∃ comment, rest = '#' :: comment)

/-- Where the lines are when one is put before them that has kept its place. -/
def after (place : Nat → Nat) : Nat → Nat
  | 0 => 0
  | line + 1 => place line + 1

/-- The second text is the first with remarks, and a line of the first, counted from zero, has its place
in the second. -/
inductive Annotates : List Char → List Char → (Nat → Nat) → Prop
  | nil : Annotates [] [] id
  | line {line remark text text' : List Char} {place : Nat → Nat} (stop stop' : LineEnd)
    (single : '\n' ∉ line ++ remark) (noted : Remark line remark) (last : stop = .none → text = [])
    (last' : stop' = .none → text' = []) (later : Annotates text text' place) :
    Annotates (line ++ stop.chars ++ text) (line ++ remark ++ stop'.chars ++ text') (after place)
  | extra {remark text text' : List Char} {place : Nat → Nat} (stop : LineEnd) (single : '\n' ∉ remark)
    (noted : Remark [] remark) (last : stop = .none → text' = []) (later : Annotates text text' place) :
    Annotates text (remark ++ stop.chars ++ text') fun line => place line + 1

section

variable {line remark text text' : List Char}

theorem Remark.content_eq (noted : Remark line remark) : content (line ++ remark) = content line := by
  rcases noted with ⟨blanks, rest, rfl, blank, rfl | ⟨finished, comment, rfl⟩⟩
  · rw [List.append_nil]
    exact content_append_blank blank line
  · exact content_append_comment blank finished comment

/-- With its end a line reads like the line itself, or there is nothing to be read. -/
theorem splitLines_stop (stop : LineEnd) (single : '\n' ∉ line) (last : stop = .none → text = []) :
    (splitLines (line ++ stop.chars ++ text) = [] ∧ line = [] ∧ text = []) ∨
      ∃ whole, splitLines (line ++ stop.chars ++ text) = whole :: splitLines text ∧
        content whole = content line := by
  cases stop with
  | none =>
    rw [last rfl, LineEnd.chars, List.append_nil, List.append_nil, splitLines_last single]
    by_cases none : line = []
    · exact .inl ⟨if_pos none, none, rfl⟩
    · exact .inr ⟨line, if_neg none, rfl⟩
  | feed =>
    right
    refine ⟨line, ?_, rfl⟩
    rw [LineEnd.chars, List.append_assoc]
    exact splitLines_append single text
  | returnFeed =>
    right
    have single' : '\n' ∉ line ++ ['\r'] := List.not_mem_append single (by decide)
    have blank : ∀ c ∈ ['\r'], Text.isBlank c = true := List.forall_mem_singleton.mpr (by decide)
    refine ⟨line ++ ['\r'], ?_, content_append_blank blank line⟩
    rw [LineEnd.chars, ← splitLines_append single' text]
    simp

theorem readLine_empty {line : List Char} (empty : content line = []) (number : Nat) (progress : Progress) :
    readLine number progress line = .ok progress := by
  rw [readLine, empty]

theorem readLine_congr {line line' : List Char} (same : content line = content line') (number : Nat)
    (progress : Progress) : readLine number progress line = readLine number progress line' := by
  rw [readLine, readLine, same]

theorem readLines_stop (stop : LineEnd) (single : '\n' ∉ line) (last : stop = .none → text = [])
    (number : Nat) (progress : Progress) :
    readLines number progress (splitLines (line ++ stop.chars ++ text)) =
      match readLine number progress line with
      | .error fault => .error (.line number fault)
      | .ok progress => readLines (number + 1) progress (splitLines text) := by
  rcases splitLines_stop stop single last with ⟨none, rfl, rfl⟩ | ⟨whole, split, same⟩
  · rw [none, readLine_empty rfl]
    rfl
  · have read := readLine_congr same number progress
    cases outcome : readLine number progress line with
    | error fault => simp only [split, readLines, read, outcome]
    | ok progress' => simp only [split, readLines, read, outcome]

end

/-- The same progress with the lines numbered anew. -/
def Progress.renumber (place : Nat → Nat) (progress : Progress) : Progress :=
  { progress with startLine := progress.startLine.map place }

section

variable {place : Nat → Nat}

theorem declare_renumber (number : Nat) (progress : Progress) (line : Line) :
    line.declare (place number) (progress.renumber place) =
      ((line.declare number progress).map (·.renumber place)).mapError (·.renumber place) := by
  cases line with
  | start symbol =>
    rcases progress with ⟨declarations, _ | line⟩ <;> rfl
  | parameter name value bounds =>
    simp only [Line.declare, Progress.renumber]
    cases progress.declarations.parameters.add name value (bounds.getD (0.0, 1.0)).1 (bounds.getD (0.0, 1.0)).2 <;> rfl
  | terminalRule rule => rfl
  | binaryRule rule => rfl

theorem readLine_renumber (number : Nat) (progress : Progress) (line : List Char) :
    readLine (place number) (progress.renumber place) line =
      ((readLine number progress line).map (·.renumber place)).mapError (·.renumber place) := by
  unfold readLine
  split
  · rfl
  · split
    · rfl
    · exact declare_renumber number progress _

end

/-- Remarks change nothing but the numbers of the lines. -/
theorem Annotates.readLines_eq {text text' : List Char} {moved : Nat → Nat} (annotates : Annotates text text' moved)
    {place : Nat → Nat} {number number' : Nat} (placed : ∀ line, place (number + line) = number' + moved line)
    (progress : Progress) :
    readLines number' (progress.renumber place) (splitLines text') =
      ((readLines number progress (splitLines text)).map (·.renumber place)).mapError (·.renumber place) := by
  induction annotates generalizing number number' progress with
  | nil => rfl
  | line stop stop' single noted last last' later ih =>
    rename_i line remark text text' moved
    have here : place number = number' := placed 0
    have next : ∀ line, place (number + 1 + line) = number' + 1 + moved line := by
      intro line
      have below : place (number + (line + 1)) = number' + (moved line + 1) := placed (line + 1)
      rw [Nat.add_assoc, Nat.add_comm 1 line, below]
      omega
    have single' : '\n' ∉ line := fun inside => single (List.mem_append_left _ inside)
    rw [readLines_stop stop' single last', readLines_stop stop single' last, ← here,
      readLine_renumber number progress, readLine_congr noted.content_eq]
    cases readLine number progress line with
    | error fault => rfl
    | ok progress => rw [← here] at next; exact ih next progress
  | extra stop single noted last later ih =>
    rename_i remark text text' moved
    have empty : content remark = [] := noted.content_eq
    have next : ∀ line, place (number + line) = number' + 1 + moved line := by
      intro line
      have below : place (number + line) = number' + (moved line + 1) := placed line
      omega
    rw [readLines_stop stop single last, readLine_empty empty]
    exact ih next progress

theorem after_id : after id = id := by
  funext line
  cases line <;> rfl

theorem remark_nil (line : List Char) : Remark line [] := ⟨[], [], rfl, List.forall_mem_nil _, .inl rfl⟩

/-- Every text is its own without remarks. -/
theorem Annotates.refl (text : List Char) : Annotates text text id := by
  induction length : text.length using Nat.strong_induction_on generalizing text with
  | _ n ih =>
    by_cases feed : '\n' ∈ text
    · obtain ⟨line, rest, rfl, single⟩ := List.eq_append_cons_of_mem feed
      have shorter : rest.length < n := by
        rw [← length, List.length_append, List.length_cons]
        omega
      have kept := Annotates.line .feed .feed (by rwa [List.append_nil]) (remark_nil line)
        (fun same => by cases same) (fun same => by cases same) (ih _ shorter rest rfl)
      simpa [LineEnd.chars, after_id] using kept
    · have kept := Annotates.line .none .none (by rwa [List.append_nil]) (remark_nil text)
        (fun _ => rfl) (fun _ => rfl) .nil
      simpa [LineEnd.chars, after_id] using kept

section

variable {input rest : List Char}

/-- What is read of a literal is all that stands between its quotes. -/
theorem literalBody_shape {body : List Char} (read : literalBody? input = some (body, rest)) :
    input = body.flatMap Text.literalChar ++ '"' :: rest := by
  fun_induction literalBody? input generalizing body with
  | case1 =>
    cases read
    rfl
  | case2 c input special ih =>
    obtain ⟨⟨body', rest'⟩, inner, made⟩ := Option.map_eq_some_iff.mp read
    cases made
    rw [List.flatMap_cons, Text.literalChar, if_pos special, ih inner]
    rfl
  | case3 => cases read
  | case4 => cases read
  | case5 c input quote slash other ih =>
    obtain ⟨⟨body', rest'⟩, inner, made⟩ := Option.map_eq_some_iff.mp read
    cases made
    have plain : ¬ (c = '"' ∨ c = '\\') := by
      rintro (same | same)
      · exact quote same
      · cases input with
        | nil => exact other same rfl
        | cons d input => exact slash d input same rfl
    rw [List.flatMap_cons, Text.literalChar, if_neg plain, ih inner]
    rfl
  | case6 => cases read

theorem literal_shape {literal : String} (read : literal? input = some (literal, rest)) :
    input = Text.literalChars literal.toList ++ rest := by
  unfold literal? at read
  split at read
  · obtain ⟨⟨body, rest'⟩, inner, made⟩ := Option.map_eq_some_iff.mp read
    cases made
    rw [String.toList_ofList, Text.literalChars, literalBody_shape inner]
    simp
  · cases read

theorem balanced_of_digits {word : List Char} (digits : ∀ c ∈ word, c.isDigit = true) : Balanced word := by
  apply balanced_of_chars
  intro c member
  have range := Text.isDigit_toNat (digits c member)
  constructor <;> rintro rfl <;> exact absurd range (by decide)

/-- What stands before a literal opens neither a literal nor a comment. -/
theorem integer_shape {i : Int} (read : integer? input = some (i, rest)) :
    ∃ word, input = word ++ rest ∧ Balanced word := by
  have digits (word : List Char) : Balanced (word.takeWhile Char.isDigit) :=
    balanced_of_digits fun c => List.mem_takeWhile_imp
  unfold integer? at read
  split at read
  rename_i negative word sign
  have split_word : ∃ minus, input = minus ++ word ∧ Balanced minus := by
    split at sign
    · cases sign
      exact ⟨['-'], rfl, .char (by decide) (by decide) .nil⟩
    · cases sign
      exact ⟨[], rfl, .nil⟩
  obtain ⟨minus, rfl, balanced⟩ := split_word
  split at read
  · cases read
  · rename_i some parts
    simp only at read
    generalize (if negative = true then -(Decimal.digitsValue _ : Int) else Decimal.digitsValue _) = value at read
    split at read
    · cases read
      refine ⟨minus ++ word.takeWhile Char.isDigit, ?_, balanced.append (digits word)⟩
      obtain ⟨rfl, rfl⟩ := Prod.mk.inj parts
      rw [List.append_assoc, List.takeWhile_append_dropWhile]
    · cases read

theorem skipGap_shape (input : List Char) : ∃ gap, input = gap ++ skipGap input ∧ Balanced gap := by
  refine ⟨input.takeWhile isGap, List.takeWhile_append_dropWhile.symm, balanced_of_chars fun c member => ?_⟩
  have gap : isGap c = true := List.mem_takeWhile_imp member
  constructor <;> rintro rfl <;> exact absurd gap (by decide)

theorem word_shape {word : List Char} (read : word? word input = some rest) : input = word ++ rest := by
  fun_induction word? word input with
  | case1 =>
    cases read
    rfl
  | case2 word c input ih => rw [ih read, List.cons_append]
  | case3 => cases read
  | case4 => cases read

theorem rule_shape {rule : TerminalDeclaration} (read : rule? input = some (.terminalRule rule, rest)) :
    ∃ front later, input = front ++ (Text.literalChars rule.literal.toList ++ later) ∧ Balanced front := by
  simp only [rule?, Option.bind_eq_bind, Option.bind_eq_some_iff] at read
  obtain ⟨⟨lhs, input'⟩, number, input'', arrow, read⟩ := read
  obtain ⟨word, rfl, balanced⟩ := integer_shape number
  obtain ⟨gap, split, balanced'⟩ := skipGap_shape input'
  obtain ⟨gap', split', balanced''⟩ := skipGap_shape input''
  simp only at read arrow
  split at read
  · rename_i literal later found
    cases read
    refine ⟨word ++ (gap ++ (['-', '>'] ++ gap')), later, ?_, ?_⟩
    · rw [split, word_shape arrow, split', literal_shape found]
      simp
    · have mark : Balanced ['-', '>'] := .char (by decide) (by decide) (.char (by decide) (by decide) .nil)
      exact balanced.append (balanced'.append (mark.append balanced''))
  · simp only [Option.bind_eq_some_iff] at read
    obtain ⟨left, -, gap, -, right, -, made⟩ := read
    cases made

theorem line_shape {rule : TerminalDeclaration} (read : line? input = some (.terminalRule rule)) :
    ∃ front later, input = front ++ (Text.literalChars rule.literal.toList ++ later) ∧ Balanced front := by
  simp only [line?, Option.bind_eq_bind, Option.bind_eq_some_iff] at read
  obtain ⟨⟨line, last⟩, one, made⟩ := read
  simp only at made
  split at made
  · cases made
    simp only [Option.orElse_eq_orElse, Option.orElse_eq_or, Option.or_eq_some_iff] at one
    rcases one with start | ⟨-, parameter | ⟨-, rule⟩⟩
    · simp only [start?, Option.bind_eq_bind, Option.bind_eq_some_iff] at start
      obtain ⟨after, -, after', -, symbol, -, made⟩ := start
      cases made
    · simp only [parameter?, Option.bind_eq_bind, Option.bind_eq_some_iff] at parameter
      obtain ⟨after, -, after', -, ⟨name, last⟩, -, after'', -, ⟨value, last'⟩, -, made⟩ := parameter
      simp only at made
      split at made <;> cases made
    · exact rule_shape rule
  · cases made

/-- The literal that is read of a line is all that stands between its quotes, and no quote before them
opens another. -/
theorem content_shape {line : List Char} {rule : TerminalDeclaration}
    (read : line? (content line) = some (.terminalRule rule)) :
    ∃ front later, line = front ++ (Text.literalChars rule.literal.toList ++ later) ∧ Balanced front := by
  obtain ⟨front, later, split, balanced⟩ := line_shape read
  obtain ⟨before, behind, cut, blank, -⟩ := Text.exists_trimChars (withoutComment false line)
  obtain ⟨comment, whole⟩ := withoutComment_initial false line
  refine ⟨before ++ front, later ++ (behind ++ comment), ?_, (balanced_of_blank blank).append balanced⟩
  rw [content] at split
  rw [← whole, cut, split]
  simp only [List.append_assoc]

end

theorem Annotates.strictMono {text text' : List Char} {moved : Nat → Nat} (annotates : Annotates text text' moved) :
    StrictMono moved := by
  induction annotates with
  | nil => exact strictMono_id
  | line _ _ _ _ _ _ _ ih =>
    intro line line' before
    cases line' with
    | zero => cases before
    | succ line' =>
      cases line with
      | zero => exact Nat.succ_pos _
      | succ line => exact Nat.succ_lt_succ (ih (Nat.lt_of_succ_lt_succ before))
  | extra _ _ _ _ _ ih => exact fun line line' before => Nat.succ_lt_succ (ih before)

theorem Annotates.read_eq {text text' : String} {moved : Nat → Nat}
    (annotates : Annotates text.toList text'.toList moved) :
    read text' = (read text).mapError (·.renumber fun number => moved (number - 1) + 1) := by
  let place (number : Nat) : Nat := moved (number - 1) + 1
  have placed (line : Nat) : place (1 + line) = 1 + moved line := by
    change moved (1 + line - 1) + 1 = 1 + moved line
    rw [Nat.add_sub_cancel_left, Nat.add_comm]
  have lines : readLines 1 {} (splitLines text'.toList) =
      ((readLines 1 {} (splitLines text.toList)).map (·.renumber place)).mapError (·.renumber place) :=
    annotates.readLines_eq placed {}
  rw [read, read, lines]
  cases readLines 1 {} (splitLines text.toList) <;> rfl

/-- Remarks in a text leave what is read of it as it is, and the first line that cannot be read with what
is wrong with it, up to the numbers of the lines. In a literal a `#` begins no comment: the cut spares
it, the literal that is read is all that stands between its quotes, and every literal on one line can be
read. -/
theorem remarks_unread :
    (∀ (text text' : String) (moved : Nat → Nat), Annotates text.toList text'.toList moved →
      StrictMono moved ∧
        read text' = (read text).mapError (·.renumber fun number => moved (number - 1) + 1)) ∧
    (∀ front body rest : List Char, Balanced front → Escaped body →
      withoutComment false (front ++ '"' :: (body ++ '#' :: rest)) =
        front ++ '"' :: (body ++ '#' :: withoutComment true rest)) ∧
    (∀ (line : List Char) (rule : TerminalDeclaration), line? (content line) = some (.terminalRule rule) →
      ∃ front later, line = front ++ (Text.literalChars rule.literal.toList ++ later) ∧ Balanced front) ∧
    ∀ rule : TerminalDeclaration, (Line.terminalRule rule).Printable →
      line? (content (Line.terminalRule rule).text) = some (.terminalRule rule) := by
  refine ⟨fun text text' moved annotates => ⟨annotates.strictMono, annotates.read_eq⟩, ?_, ?_, ?_⟩
  · exact fun front body rest balanced inside => withoutComment_inside balanced inside rest
  · exact fun line rule => content_shape
  · intro rule printable
    rw [content_text printable]
    exact line_text printable

def sampleBare : String := "start 0\n0 -> \"#\"\nstart 1"

def sampleNoted : String := "start 0\t# 1\r\n#\n0 -> \"#\" # \"\nstart 1\n"

/-- A line was put behind the first one. -/
def sampleMoved : Nat → Nat := after fun line => after (after id) line + 1

theorem sample_annotates : Annotates sampleBare.toList sampleNoted.toList sampleMoved := by
  have start : Finished ['s', 't', 'a', 'r', 't', ' ', '0'] := .inl (balanced_of_chars (by simp))
  have empty : Finished [] := .inl .nil
  have rule : Finished ['0', ' ', '-', '>', ' ', '"', '#', '"'] := by
    have front : Balanced ['0', ' ', '-', '>', ' '] := balanced_of_chars (by simp)
    have literal : Balanced ['"', '#', '"'] := .literal (.char (by decide) (by decide) .nil) .nil
    exact .inl (front.append literal)
  have space : ∀ c ∈ [' '], Text.isBlank c = true := List.forall_mem_singleton.mpr (by decide)
  have tab : ∀ c ∈ ['\t'], Text.isBlank c = true := List.forall_mem_singleton.mpr (by decide)
  have last : Annotates (['s', 't', 'a', 'r', 't', ' ', '1'] ++ LineEnd.none.chars ++ []) _ (after id) :=
    .line .none .feed (by decide) (remark_nil _) (fun _ => rfl)
      (fun same => by cases same) .nil
  have noted : Annotates _ _ (after (after id)) :=
    .line .feed .feed (by decide) ⟨[' '], ['#', ' ', '"'], rfl, space, .inr ⟨rule, _, rfl⟩⟩
      (fun same => by cases same) (fun same => by cases same) last
  have extra : Annotates _ _ fun line => after (after id) line + 1 :=
    .extra .feed (by decide) ⟨[], ['#'], rfl, by simp, .inr ⟨empty, _, rfl⟩⟩ (fun same => by cases same) noted
  exact .line .feed .returnFeed (by decide) ⟨['\t'], ['#', ' ', '1'], rfl, tab, .inr ⟨start, _, rfl⟩⟩
    (fun same => by cases same) (fun same => by cases same) extra

theorem sample_remarks_unread :
    read sampleBare = .error (.line 3 (.startRepeated 1)) ∧
      read sampleNoted = .error (.line 4 (.startRepeated 1)) := by
  have bare : read sampleBare = .error (.line 3 (.startRepeated 1)) := rfl
  refine ⟨bare, ?_⟩
  rw [(remarks_unread.1 _ _ _ sample_annotates).2, bare]
  rfl

end GrammarText

end StochasticGrammar
