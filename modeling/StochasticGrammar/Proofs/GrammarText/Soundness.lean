import StochasticGrammar.Proofs.Formula.Spelling
import StochasticGrammar.Proofs.Grammar.Acceptance
import StochasticGrammar.Proofs.GrammarText.Rereading

/-!
What can be read. Numbers are in range, names are names, parameters are valid and distinct, and no
literal has a line feed, since each is read from one line.
-/

namespace StochasticGrammar.GrammarText

section

variable {input rest : List Char}

theorem integer_sound {i : Int} (read : integer? input = some (i, rest)) :
    Fits i ∧ ∀ c ∈ rest, c ∈ input := by
  have after : ∀ word : List Char, ∀ c ∈ (Decimal.splitDigits word).2, c ∈ word :=
    fun word c member => (List.dropWhile_suffix _).subset member
  unfold integer? at read
  split at read
  rename_i negative word sign
  have kept : ∀ c ∈ word, c ∈ input := by
    split at sign
    · cases sign
      exact fun c member => List.mem_cons_of_mem _ member
    · cases sign
      exact fun c member => member
  split at read
  · cases read
  · rename_i digits last some split
    simp only at read
    generalize (if negative = true then -(Decimal.digitsValue digits : Int)
      else Decimal.digitsValue digits) = value at read
    split at read
    · rename_i fits
      cases read
      refine ⟨fits, fun c member => kept c (after word c ?_)⟩
      rwa [split]
    · cases read

theorem word_sound {word : List Char} (read : word? word input = some rest) : ∀ c ∈ rest, c ∈ input := by
  induction word generalizing input with
  | nil =>
    cases read
    exact fun c member => member
  | cons w word ih =>
    cases input with
    | nil => cases read
    | cons d input =>
      rw [word?] at read
      split at read
      · exact fun c member => List.mem_cons_of_mem d (ih read c member)
      · cases read

theorem skipGap_subset (input : List Char) : ∀ c ∈ skipGap input, c ∈ input :=
  fun _ member => (List.dropWhile_suffix _).subset member

theorem literalBody_sound {body : List Char} (read : literalBody? input = some (body, rest)) :
    ∀ c ∈ body, c ∈ input := by
  fun_induction literalBody? input generalizing body with
  | case1 => simp_all
  | case2 c input special ih =>
    obtain ⟨⟨body', rest'⟩, inner, made⟩ := Option.map_eq_some_iff.mp read
    cases made
    intro d member
    rcases List.mem_cons.mp member with rfl | later
    · simp
    · exact List.mem_cons_of_mem _ (List.mem_cons_of_mem _ (ih inner d later))
  | case3 => cases read
  | case4 => cases read
  | case5 c input _ _ _ ih =>
    obtain ⟨⟨body', rest'⟩, inner, made⟩ := Option.map_eq_some_iff.mp read
    cases made
    intro d member
    rcases List.mem_cons.mp member with rfl | later
    · simp
    · exact List.mem_cons_of_mem _ (ih inner d later)
  | case6 => cases read

theorem literal_sound {literal : String} (read : literal? input = some (literal, rest)) :
    ∀ c ∈ literal.toList, c ∈ input := by
  unfold literal? at read
  split at read
  · obtain ⟨⟨body, rest'⟩, inner, made⟩ := Option.map_eq_some_iff.mp read
    cases made
    rw [String.toList_ofList]
    exact fun c member => List.mem_cons_of_mem _ (literalBody_sound inner c member)
  · cases read

end

/-- What every line that can be read keeps to. -/
def Line.Sound : Line → Prop
  | .start symbol => Fits symbol
  | .parameter name _ _ => Formula.IsName name
  | .terminalRule rule => Fits rule.lhs ∧ '\n' ∉ rule.literal.toList
  | .binaryRule rule => Fits rule.lhs ∧ Fits rule.left ∧ Fits rule.right

section

variable {input rest : List Char} {line : Line}

theorem start_sound (read : start? input = some (line, rest)) : line.Sound := by
  simp only [start?, Option.bind_eq_bind, Option.bind_eq_some_iff] at read
  obtain ⟨after, -, after', -, ⟨symbol, last⟩, number, made⟩ := read
  cases made
  exact (integer_sound number).1

theorem parameter_sound (read : parameter? input = some (line, rest)) : line.Sound := by
  simp only [parameter?, Option.bind_eq_bind, Option.bind_eq_some_iff] at read
  obtain ⟨after, -, after', -, ⟨name, last⟩, named, after'', -, ⟨value, last'⟩, -, made⟩ := read
  have word := Formula.isName_of_name named
  simp only at made
  split at made
  · cases made
    exact word
  · cases made
    exact word

theorem rule_sound (single : '\n' ∉ input) (read : rule? input = some (line, rest)) : line.Sound := by
  simp only [rule?, Option.bind_eq_bind, Option.bind_eq_some_iff] at read
  obtain ⟨⟨lhs, after⟩, number, after', arrow, made⟩ := read
  obtain ⟨fits, kept⟩ := integer_sound number
  simp only at arrow made
  split at made
  · rename_i literal last quoted
    cases made
    refine ⟨fits, fun member => single ?_⟩
    have here := literal_sound quoted _ member
    exact kept _ (skipGap_subset after _ (word_sound arrow _ (skipGap_subset after' _ here)))
  · simp only [Option.bind_eq_some_iff] at made
    obtain ⟨⟨left, last⟩, first, after'', -, ⟨right, last'⟩, second, made⟩ := made
    cases made
    exact ⟨fits, (integer_sound first).1, (integer_sound second).1⟩

theorem line_sound (single : '\n' ∉ input) (read : line? input = some line) : line.Sound := by
  simp only [line?, Option.bind_eq_bind, Option.bind_eq_some_iff] at read
  obtain ⟨⟨line', last⟩, one, made⟩ := read
  simp only at made
  split at made
  · cases made
    simp only [Option.orElse_eq_orElse, Option.orElse_eq_or, Option.or_eq_some_iff] at one
    rcases one with start | ⟨-, parameter | ⟨-, rule⟩⟩
    · exact start_sound start
    · exact parameter_sound parameter
    · exact rule_sound single rule
  · cases made

end

/-- What all declarations that can be read keep to. -/
structure Sound (d : Declarations) : Prop where
  start : Fits d.start
  parameters : d.parameters.Sound
  terminal : ∀ rule ∈ d.terminalRules, Fits rule.lhs ∧ '\n' ∉ rule.literal.toList
  binary : ∀ rule ∈ d.binaryRules, Fits rule.lhs ∧ Fits rule.left ∧ Fits rule.right

theorem sound_empty : Sound {} where
  start := ⟨by decide, by decide⟩
  parameters := Parameters.Coherent.empty.sound (by simp [Parameters.empty])
  terminal := by simp
  binary := by simp

theorem sound_add {ps next : Parameters} {name : String} {value lower upper : Float} {id : Nat}
    (sound : ps.Sound) (word : Formula.IsName name)
    (added : ps.add name value lower upper = .ok (id, next)) : next.Sound := by
  apply (sound.coherent.add added).sound
  rcases Parameters.add_eq_ok added with ⟨-, -, -, rfl⟩
  exact Array.forall_mem_push.mpr ⟨word, sound.named⟩

theorem declare_sound {progress next : Progress} {line : Line} {number : Nat}
    (sound : Sound progress.declarations) (kept : line.Sound)
    (declared : line.declare number progress = .ok next) : Sound next.declarations := by
  cases line with
  | start symbol =>
    simp only [Line.declare] at declared
    split at declared
    · cases declared
    · cases declared
      exact { sound with start := kept }
  | parameter name value bounds =>
    simp only [Line.declare] at declared
    split at declared
    · cases declared
    · rename_i id parameters added
      cases declared
      exact { sound with parameters := sound_add sound.parameters kept added }
  | terminalRule rule =>
    cases declared
    exact { sound with terminal := Array.forall_mem_push.mpr ⟨kept, sound.terminal⟩ }
  | binaryRule rule =>
    cases declared
    exact { sound with binary := Array.forall_mem_push.mpr ⟨kept, sound.binary⟩ }

theorem content_subset (line : List Char) : ∀ c ∈ content line, c ∈ line := by
  intro c member
  apply (withoutComment_initial false line).subset
  unfold content Text.trimChars Text.dropTrailing at member
  have front := (List.dropWhile_suffix _).subset (List.mem_reverse.mp member)
  exact (List.dropWhile_suffix _).subset (List.mem_reverse.mp front)

theorem splitLines_single (text : List Char) : ∀ line ∈ splitLines text, '\n' ∉ line := by
  fun_induction splitLines text with
  | case1 => simp
  | case2 => grind
  | case3 => grind
  | case4 => grind

theorem readLines_sound {lines : List (List Char)} (single : ∀ line ∈ lines, '\n' ∉ line) {number : Nat}
    {progress next : Progress} (sound : Sound progress.declarations)
    (read : readLines number progress lines = .ok next) : Sound next.declarations := by
  induction lines generalizing number progress with
  | nil =>
    cases read
    exact sound
  | cons line lines ih =>
    rw [readLines] at read
    split at read
    · cases read
    · rename_i later one
      apply ih (fun other member => single other (List.mem_cons_of_mem line member)) _ read
      unfold readLine at one
      split at one
      · cases one
        exact sound
      · split at one
        · cases one
        · rename_i line' known
          apply declare_sound sound _ one
          apply line_sound _ known
          intro member
          exact single line List.mem_cons_self (content_subset line _ member)

/-- Declarations that are read are sound. -/
theorem read_sound {text : String} {d : Declarations} (read : GrammarText.read text = .ok d) : Sound d := by
  unfold GrammarText.read at read
  obtain ⟨progress, lines, made⟩ := bind_eq_ok.mp read
  cases made
  exact readLines_sound (splitLines_single _) sound_empty lines

end StochasticGrammar.GrammarText
