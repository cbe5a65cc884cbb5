import StochasticGrammar.Declarations
import StochasticGrammar.Reachability

/-!
Grammars: checked rules, the lexicon of their terminals and the current probabilities. Terminal rules
take the first rule numbers and binary rules the numbers after them, both in the order of their
declaration; terminals are numbered in the order of their first use.
-/

namespace StochasticGrammar

structure Alphabet where
  lexicon : Lexicon := {}
  literals : Array String := #[]
  deriving Inhabited

structure Grammar where
  alphabet : Alphabet
  rules : RuleSet
  values : RuleValues
  /-- The parameters that occur in a formula, ascending. -/
  used : List Nat

/-- Rules as far as they are checked and numbered. -/
structure Numbered where
  alphabet : Alphabet := {}
  rules : Array Rule := #[]
  deriving Inhabited

namespace Declarations

def nonTerminal (label : DeclarationLabel) (index : Int) : Except Error Nat :=
  if 0 ≤ index then .ok index.toNat else .error (.definition label (.negativeIndex index))

/-- The formula of a rule, all of whose names have to be parameters; without one it is certain. -/
def source (ps : Parameters) (label : DeclarationLabel) : Option String → Except Error RuleSource
  | none => .ok .certain
  | some text =>
    if (Text.trimChars text.toList).isEmpty then .ok .certain
    else match Formula.parse text with
      | .error fault => .error (.definition label (.formula fault))
      | .ok formula =>
        match formula.names.find? fun name => (ps.id? name).isNone with
        | some name => .error (.definition label (.unknownParameter name))
        | none => .ok (.formula formula)

structure Checked where
  /-- The non-terminals that occur. -/
  mentioned : List Nat
  source : RuleSource
  deriving Inhabited

def checkTerminal (ps : Parameters) (number : Nat) (rule : TerminalDeclaration) :
    Except Error Checked := do
  let label := rule.label number
  let lhs ← nonTerminal label rule.lhs
  if rule.literal.isEmpty then throw (.definition label .emptyLiteral)
  let source ← source ps label rule.formula
  return ⟨[lhs], source⟩

def checkBinary (ps : Parameters) (number : Nat) (rule : BinaryDeclaration) :
    Except Error Checked := do
  let label := rule.label number
  let lhs ← nonTerminal label rule.lhs
  let left ← nonTerminal label rule.left
  let right ← nonTerminal label rule.right
  let source ← source ps label rule.formula
  return ⟨[lhs, left, right], source⟩

/-- Declarations each of which is checked and numbered. -/
structure Draft where
  start : Nat
  checked : List Checked
  numbered : Numbered

namespace Draft

def nonTerminals (b : Draft) : Nat := (b.checked.flatMap (·.mentioned)).foldl max b.start + 1

def terminals (b : Draft) : Nat := b.numbered.alphabet.literals.size

def index (b : Draft) : RuleIndex := .ofRules b.nonTerminals b.numbered.rules

def sources (b : Draft) : List RuleSource := b.checked.map (·.source)

end Draft

/-- The results of numbered items, or the first failure. -/
def checkAll {α β : Type} (check : Nat → α → Except Error β) (number : Nat) :
    List α → Except Error (List β)
  | [] => .ok []
  | item :: rest => do
    let result ← check number item
    let results ← checkAll check (number + 1) rest
    return result :: results

def addTerminal (numbered : Numbered) (number : Nat) (rule : TerminalDeclaration) :
    Except Error Numbered :=
  let label := rule.label number
  match numbered.alphabet.lexicon.insert rule.literal with
  | .error fault => .error (.definition label (.literal fault))
  | .ok (insertion, lexicon) =>
    let (terminal, literals) :=
      match insertion with
      | .added terminal => (terminal, numbered.alphabet.literals.push rule.literal)
      | .existing terminal => (terminal, numbered.alphabet.literals)
    let added : Rule := ⟨rule.lhs.toNat, .terminal terminal⟩
    if numbered.rules.contains added then .error (.definition label .duplicate)
    else .ok ⟨⟨lexicon, literals⟩, numbered.rules.push added⟩

def addBinary (numbered : Numbered) (number : Nat) (rule : BinaryDeclaration) :
    Except Error Numbered :=
  let added : Rule := ⟨rule.lhs.toNat, .binary rule.left.toNat rule.right.toNat⟩
  if numbered.rules.contains added then .error (.definition (rule.label number) .duplicate)
  else .ok { numbered with rules := numbered.rules.push added }

def addAll {α : Type} (add : Numbered → Nat → α → Except Error Numbered) (number : Nat)
    (numbered : Numbered) : List α → Except Error Numbered
  | [] => .ok numbered
  | item :: rest => do
    let numbered ← add numbered number item
    addAll add (number + 1) numbered rest

/-- The least non-terminal whose rows are empty. -/
def ruleless? (index : RuleIndex) (nonTerminals : Nat) : Option Nat :=
  (List.range nonTerminals).find? fun nt =>
    (index.binariesOf nt).isEmpty && (index.terminalsOf nt).isEmpty

def unreachable? (index : RuleIndex) (nonTerminals start : Nat) : Option Nat :=
  let reached := index.reachable nonTerminals start
  (List.range nonTerminals).find? fun nt => reached[nt]? != some true

def usedBy (ps : Parameters) (sources : List RuleSource) : List Nat :=
  let names := sources.flatMap fun source =>
    match source with
    | .certain => []
    | .formula formula => formula.names
  (List.range ps.size).filter fun id => (ps.get? id).any fun p => names.contains p.name

def draft (d : Declarations) : Except Error Draft := do
  if d.terminalRules.isEmpty then throw (.definition .grammar .noTerminalRules)
  let start ← nonTerminal .startSymbol d.start
  let terminal ← checkAll (checkTerminal d.parameters) 0 d.terminalRules.toList
  let binary ← checkAll (checkBinary d.parameters) 0 d.binaryRules.toList
  let terminals ← addAll addTerminal 0 {} d.terminalRules.toList
  let numbered ← addAll addBinary 0 terminals d.binaryRules.toList
  return ⟨start, terminal ++ binary, numbered⟩

/-- The grammar of a draft. The tables are set up before the rules are looked at as a whole. -/
def complete (ps : Parameters) (b : Draft) : Except Failure Grammar :=
  if TablesFit b.nonTerminals b.terminals then
    let index := b.index
    match ruleless? index b.nonTerminals with
    | some nt => .error (.fault (.consistency nt .noRules))
    | none =>
      match unreachable? index b.nonTerminals b.start with
      | some nt => .error (.fault (.consistency nt (.unreachable b.start)))
      | none => do
        let values ← (RuleValues.ofSources ps b.sources.toArray).mapError (.fault <| .ofEvaluation ·)
        return {
          alphabet := b.numbered.alphabet
          rules := {
            rules := b.numbered.rules
            start := b.start
            nonTerminals := b.nonTerminals
            terminals := b.terminals
            index }
          values
          used := usedBy ps b.sources }
  else .error .overflow

def grammar (d : Declarations) : Except Failure Grammar := do
  let b ← d.draft.mapError .fault
  complete d.parameters b

end Declarations

namespace Grammar

def parameters (g : Grammar) : Parameters := g.values.parameters

def epoch (g : Grammar) : Nat := g.values.epoch

def literal? (g : Grammar) (terminal : Nat) : Option String := g.alphabet.literals[terminal]?

def probability? (g : Grammar) (rule : Nat) : Option Float := g.values.values[rule]?

def source? (g : Grammar) (rule : Nat) : Option RuleSource := g.values.sources[rule]?

def tokenize (g : Grammar) (input : String) : Except Error (Array Nat) :=
  match g.alphabet.lexicon.tokenize input with
  | .ok tokens => .ok tokens
  | .error position => .error (.tokenization input position)

def setValues (g : Grammar) (updates : List (Nat × Float)) : Except Error Grammar :=
  match g.values.setValues updates with
  | .ok values => .ok { g with values }
  | .error fault => .error (.ofUpdate fault)

end Grammar

end StochasticGrammar
