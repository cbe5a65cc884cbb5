import Mathlib
import StochasticGrammar.Grammar

/-!
What it takes for declarations to be a grammar. Each check of the construction is a condition of its
own; the grammar is put together from what the checks hand on.
-/

namespace StochasticGrammar

/-- A success in sequence is a success of both parts. -/
theorem bind_eq_ok {ε α β : Type} {x : Except ε α} {f : α → Except ε β} {b : β} :
    (x >>= f) = .ok b ↔ ∃ a, x = .ok a ∧ f a = .ok b := by
  cases x with
  | error fault => simp [bind, Except.bind]
  | ok a => simp [bind, Except.bind]

theorem mapError_eq_ok {ε δ α : Type} {f : ε → δ} {x : Except ε α} {a : α} :
    x.mapError f = .ok a ↔ x = .ok a := by
  cases x <;> simp [Except.mapError]

namespace Declarations

/-- What the checks hand on. -/
structure Stages extends Draft where
  values : RuleValues

def Stages.grammar (b : Stages) (ps : Parameters) : Grammar where
  alphabet := b.numbered.alphabet
  rules := {
    rules := b.numbered.rules
    start := b.start
    nonTerminals := b.nonTerminals
    terminals := b.terminals }
  values := b.values
  used := usedBy ps b.sources

structure Passes (d : Declarations) (b : Stages) : Prop where
  nonempty : d.terminalRules.isEmpty = false
  start : nonTerminal .startSymbol d.start = .ok b.start
  checked : ∃ terminal binary,
    checkAll (checkTerminal d.parameters) 0 d.terminalRules.toList = .ok terminal ∧
      checkAll (checkBinary d.parameters) 0 d.binaryRules.toList = .ok binary ∧
      b.checked = terminal ++ binary
  numbered : ∃ terminals, addAll addTerminal 0 {} d.terminalRules.toList = .ok terminals ∧
    addAll addBinary 0 terminals d.binaryRules.toList = .ok b.numbered
  fits : TablesFit b.nonTerminals b.terminals
  ruled : ruleless? b.index b.nonTerminals = none
  reached : unreachable? b.index b.nonTerminals b.start = none
  evaluated : RuleValues.ofSources d.parameters b.sources.toArray = .ok b.values

theorem complete_eq_ok_iff {ps : Parameters} {b : Draft} {g : Grammar} :
    complete ps b = .ok g ↔ TablesFit b.nonTerminals b.terminals ∧ ruleless? b.index b.nonTerminals = none ∧
      unreachable? b.index b.nonTerminals b.start = none ∧
      ∃ values, RuleValues.ofSources ps b.sources.toArray = .ok values ∧
        g = ({ b with values } : Stages).grammar ps := by
  unfold complete
  by_cases fits : TablesFit b.nonTerminals b.terminals
  · rw [if_pos fits]
    cases ruled : ruleless? b.index b.nonTerminals with
    | some nt => simp [ruled]
    | none =>
      cases reached : unreachable? b.index b.nonTerminals b.start with
      | some nt => simp [ruled, reached]
      | none =>
        simp only [ruled, reached, bind_eq_ok, mapError_eq_ok]
        constructor
        · rintro ⟨values, evaluated, made⟩
          exact ⟨fits, trivial, trivial, values, evaluated, (Except.ok.inj made).symm⟩
        · rintro ⟨-, -, -, values, evaluated, rfl⟩
          exact ⟨values, evaluated, rfl⟩
  · rw [if_neg fits]
    simp [fits]

theorem draft_eq_ok_iff {d : Declarations} {b : Draft} :
    d.draft = .ok b ↔ d.terminalRules.isEmpty = false ∧ nonTerminal .startSymbol d.start = .ok b.start ∧
      (∃ terminal binary, checkAll (checkTerminal d.parameters) 0 d.terminalRules.toList = .ok terminal ∧
        checkAll (checkBinary d.parameters) 0 d.binaryRules.toList = .ok binary ∧
        b.checked = terminal ++ binary) ∧
      ∃ terminals, addAll addTerminal 0 {} d.terminalRules.toList = .ok terminals ∧
        addAll addBinary 0 terminals d.binaryRules.toList = .ok b.numbered := by
  unfold draft
  constructor
  · intro made
    split at made
    · cases made
    · rename_i nonempty
      simp only [bind_eq_ok] at made
      obtain ⟨start, started, terminal, leaves, binary, nodes, terminals, first, numbered, second, made⟩ := made
      cases made
      exact ⟨by simpa using nonempty, started, ⟨terminal, binary, leaves, nodes, rfl⟩, terminals, first, second⟩
  · obtain ⟨start, checked, numbered⟩ := b
    rintro ⟨nonempty, started, ⟨terminal, binary, leaves, nodes, rfl⟩, terminals, first, second⟩
    simp only [nonempty, started, leaves, nodes, first, second, bind, Except.bind]
    rfl

theorem grammar_eq_ok_iff {d : Declarations} {g : Grammar} :
    d.grammar = .ok g ↔ ∃ b, d.Passes b ∧ g = b.grammar d.parameters := by
  rw [Declarations.grammar, bind_eq_ok]
  constructor
  · rintro ⟨b, drafted, completed⟩
    obtain ⟨nonempty, start, checked, numbered⟩ := draft_eq_ok_iff.mp (mapError_eq_ok.mp drafted)
    obtain ⟨fits, ruled, reached, values, evaluated, rfl⟩ := complete_eq_ok_iff.mp completed
    exact ⟨{ b with values }, ⟨nonempty, start, checked, numbered, fits, ruled, reached, evaluated⟩, rfl⟩
  · rintro ⟨b, passes, rfl⟩
    exact ⟨b.toDraft,
      mapError_eq_ok.mpr (draft_eq_ok_iff.mpr ⟨passes.nonempty, passes.start, passes.checked, passes.numbered⟩),
      complete_eq_ok_iff.mpr ⟨passes.fits, passes.ruled, passes.reached, b.values, passes.evaluated, rfl⟩⟩

/-- Words over `a` and `b` that begin with `a`. They are ambiguous, and the letter `a` and the
doubling of a word have the value of a parameter. -/
def sample (value : Float) : Declarations where
  terminalRules := #[⟨0, "a", some "p"⟩, ⟨1, "b", none⟩]
  binaryRules := #[⟨0, 0, 0, some "p"⟩, ⟨0, 0, 1, none⟩]
  parameters := ⟨#[⟨"p", value, 0, 1⟩], 1⟩

def sampleForest : Forest := .tree 'a' (some 0) .nil (.tree 'b' (some 1) .nil .nil)

def sampleRules : Array Rule :=
  #[⟨0, .terminal 0⟩, ⟨1, .terminal 1⟩, ⟨0, .binary 0 0⟩, ⟨0, .binary 0 1⟩]

def sampleStages (value : Float) : Stages where
  start := 0
  checked := [⟨[0], .formula (.parameter "p")⟩, ⟨[1], .certain⟩, ⟨[0, 0, 0], .formula (.parameter "p")⟩,
    ⟨[0, 0, 1], .certain⟩]
  numbered := ⟨⟨⟨sampleForest, 2⟩, #["a", "b"]⟩, sampleRules⟩
  values := ⟨(sample value).parameters, #[.formula (.parameter "p"), .certain, .formula (.parameter "p"),
    .certain], #[value, 1.0, value, 1.0]⟩

theorem sample_source (ps : Parameters) (known : ps.id? "p" = some 0) (label : DeclarationLabel) :
    source ps label (some "p") = .ok (.formula (.parameter "p")) := by
  have parsed : Formula.parse "p" = .ok (.parameter "p") := by cbv
  have trimmed : Text.trimChars ['p'] = ['p'] := by cbv
  simp [source, parsed, trimmed, known, Formula.names, Formula.collect, Formula.insertName]

theorem sample_nonTerminals (value : Float) : (sampleStages value).nonTerminals = 2 := by
  simp [Draft.nonTerminals, sampleStages]

theorem sample_passes (value : Float) : (sample value).Passes (sampleStages value) where
  nonempty := by simp [sample]
  start := rfl
  checked := by
    have known : (sample value).parameters.id? "p" = some 0 := by simp [sample, Parameters.id?]
    refine ⟨[⟨[0], .formula (.parameter "p")⟩, ⟨[1], .certain⟩],
      [⟨[0, 0, 0], .formula (.parameter "p")⟩, ⟨[0, 0, 1], .certain⟩], ?_, ?_, rfl⟩
    · have first := sample_source _ known (.terminalRule 0 0 "a")
      simp only [sample, checkAll, checkTerminal, TerminalDeclaration.label] at first ⊢
      rw [first]
      rfl
    · have first := sample_source _ known (.binaryRule 0 0 0 0)
      simp only [sample, checkAll, checkBinary, BinaryDeclaration.label] at first ⊢
      rw [first]
      rfl
  numbered := by
    refine ⟨⟨⟨⟨sampleForest, 2⟩, #["a", "b"]⟩, #[⟨0, .terminal 0⟩, ⟨1, .terminal 1⟩]⟩, ?_, ?_⟩
    · simp [sample, sampleForest, addAll, addTerminal, Lexicon.insert, Forest.insert, Forest.chain,
        bind, Except.bind, pure, Except.pure]
    · simp [sample, sampleStages, sampleRules, addAll, addBinary, bind, Except.bind]
  fits := by
    rw [sample_nonTerminals]
    change TablesFit 2 2
    decide
  ruled := by
    rw [Draft.index, sample_nonTerminals]
    change ruleless? (.ofRules 2 sampleRules) 2 = none
    cbv
  reached := by
    rw [Draft.index, sample_nonTerminals]
    change unreachable? (.ofRules 2 sampleRules) 2 0 = none
    cbv
  evaluated := by
    simp [RuleValues.ofSources, evaluateAll, evaluateFrom, Draft.sources, sampleStages, sample,
      RuleSource.evaluate, Formula.evaluate, Parameters.value?, bind, Except.bind, pure, Except.pure]

def sampleGrammar (value : Float) : Grammar :=
  (sampleStages value).grammar (sample value).parameters

theorem sample_grammar (value : Float) : (sample value).grammar = .ok (sampleGrammar value) :=
  grammar_eq_ok_iff.mpr ⟨_, sample_passes value, rfl⟩

/-- The letter `a` with the value of a parameter, beside which there may be others. -/
def letter (ps : Parameters) : Declarations where
  terminalRules := #[⟨0, "a", some "p"⟩]
  parameters := ps

def letterStages (ps : Parameters) (value : Float) : Stages where
  start := 0
  checked := [⟨[0], .formula (.parameter "p")⟩]
  numbered := ⟨⟨⟨.tree 'a' (some 0) .nil .nil, 1⟩, #["a"]⟩, #[⟨0, .terminal 0⟩]⟩
  values := ⟨ps, #[.formula (.parameter "p")], #[value]⟩

def letterGrammar (ps : Parameters) (value : Float) : Grammar := (letterStages ps value).grammar ps

theorem letter_nonTerminals (ps : Parameters) (value : Float) :
    (letterStages ps value).nonTerminals = 1 := by
  simp [Draft.nonTerminals, letterStages]

theorem letter_passes {ps : Parameters} {value : Float} (known : ps.id? "p" = some 0)
    (valued : ps.value? "p" = some value) : (letter ps).Passes (letterStages ps value) where
  nonempty := by simp [letter]
  start := rfl
  checked := by
    have source := sample_source ps known (.terminalRule 0 0 "a")
    refine ⟨[⟨[0], .formula (.parameter "p")⟩], [], ?_, rfl, rfl⟩
    simp only [letter, checkAll, checkTerminal, TerminalDeclaration.label] at source ⊢
    rw [source]
    rfl
  numbered := by
    refine ⟨(letterStages ps value).numbered, ?_, rfl⟩
    simp [letter, letterStages, addAll, addTerminal, Lexicon.insert, Forest.insert, Forest.chain, bind,
      Except.bind]
  fits := by
    rw [letter_nonTerminals]
    change TablesFit 1 1
    decide
  ruled := by
    rw [Draft.index, letter_nonTerminals]
    change ruleless? (.ofRules 1 #[⟨0, .terminal 0⟩]) 1 = none
    cbv
  reached := by
    rw [Draft.index, letter_nonTerminals]
    change unreachable? (.ofRules 1 #[⟨0, .terminal 0⟩]) 1 0 = none
    cbv
  evaluated := by
    simp [RuleValues.ofSources, evaluateAll, evaluateFrom, Draft.sources, letterStages, letter,
      RuleSource.evaluate, Formula.evaluate, valued, bind, Except.bind, pure, Except.pure]

theorem letter_grammar {ps : Parameters} {value : Float} (known : ps.id? "p" = some 0)
    (valued : ps.value? "p" = some value) : (letter ps).grammar = .ok (letterGrammar ps value) :=
  grammar_eq_ok_iff.mpr ⟨_, letter_passes known valued, rfl⟩

section

variable (value lower upper : Float)

theorem lone_grammar : (letter ⟨#[⟨"p", value, lower, upper⟩], 1⟩).grammar =
    .ok (letterGrammar ⟨#[⟨"p", value, lower, upper⟩], 1⟩ value) :=
  letter_grammar (by simp [Parameters.id?]) (by simp [Parameters.value?])

theorem lone_used : (letterGrammar ⟨#[⟨"p", value, lower, upper⟩], 1⟩ value).used = [0] := by
  cbv

end

end Declarations

end StochasticGrammar
