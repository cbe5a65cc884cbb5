import StochasticGrammar.Formula.Parser
import StochasticGrammar.Lexicon
import StochasticGrammar.RuleValues

/-!
Everything that can go wrong, as its cause, and the one place where causes are put into words.
-/

namespace StochasticGrammar

inductive DeclarationLabel where
  | grammar
  | startSymbol
  | terminalRule (number : Nat) (lhs : Int) (literal : String)
  | binaryRule (number : Nat) (lhs left right : Int)
  deriving DecidableEq, Repr

inductive DefinitionFault where
  | noTerminalRules
  | negativeIndex (index : Int)
  | emptyLiteral
  | formula (fault : Formula.SyntaxFault)
  | unknownParameter (name : String)
  | literal (fault : InsertFault)
  | duplicate
  deriving DecidableEq, Repr

inductive ConsistencyFault where
  | noRules
  | unreachable (start : Nat)
  deriving DecidableEq, Repr

inductive Subject where
  | rule (index : Nat)
  | ruleText (index : Nat) (text : String)
  | nonTerminal (nt : Nat)
  deriving DecidableEq, Repr

inductive ProbabilityFault where
  | evaluation (fault : ParameterFault)
  | outsideUnit (value : Float)
  | sum (value : Float)
  | noPositiveRule
  deriving DecidableEq, Repr

inductive LineFault where
  | unreadable (content : String)
  | startRepeated (line : Nat)
  | parameter (fault : ParameterFault)
  deriving DecidableEq, Repr

inductive FileFault where
  | notUtf8
  | missing
  | notDirectory
  | directory
  | nameTooLong
  | other (reason : String)
  deriving DecidableEq, Repr

inductive Error where
  | definition (label : DeclarationLabel) (fault : DefinitionFault)
  | consistency (nt : Nat) (fault : ConsistencyFault)
  | tokenization (input : String) (position : Nat)
  | probability (subject : Subject) (fault : ProbabilityFault)
  | noParse (string : Nat)
  | tooDeep (limit : Nat)
  | noSuchString (index size : Nat)
  | spanOutOfRange (start stop nt string : Nat)
  | unknownNonTerminal (nt count : Nat)
  | parameter (fault : ParameterFault)
  | line (number : Nat) (fault : LineFault)
  | file (fault : FileFault)
  deriving DecidableEq, Repr

/-- Why there is no result. A fault is told; at a table that would need more bytes than any vector can
have the program stops; and a run that does not end has none. -/
inductive Failure where
  | fault (error : Error)
  | overflow
  | endless
  deriving DecidableEq, Repr

def parameterMessage (fault : ParameterFault) : String :=
  s!"invalid parameter update: {fault.message}"

def DeclarationLabel.text : DeclarationLabel → String
  | grammar => "grammar"
  | startSymbol => "start symbol"
  | terminalRule number lhs literal => s!"terminal rule {number} ({lhs} -> {Text.quoted literal})"
  | binaryRule number lhs left right => s!"binary rule {number} ({lhs} -> {left} {right})"

def DefinitionFault.message : DefinitionFault → String
  | noTerminalRules => "at least one terminal rule is required"
  | negativeIndex index => s!"non-terminal index {index} is negative"
  | emptyLiteral => "terminal literal is empty"
  | formula fault => fault.message
  | unknownParameter name => s!"unknown parameter '{name}'"
  | literal fault => fault.message
  | duplicate => "duplicate rule"

def ConsistencyFault.message : ConsistencyFault → String
  | noRules => "has no production rules"
  | unreachable start => s!"is not reachable from start symbol {start}"

def Subject.text : Subject → String
  | rule index => s!"rule {index}"
  | ruleText index text => s!"rule {index} ({text})"
  | nonTerminal nt => s!"non-terminal {nt}"

def ProbabilityFault.message : ProbabilityFault → String
  | evaluation fault => parameterMessage fault
  | outsideUnit value => s!"probability {Decimal.text value} is outside [0, 1]"
  | sum value => s!"rule probabilities sum to {Decimal.text value}"
  | noPositiveRule => "no rule has positive probability"

def LineFault.message : LineFault → String
  | unreadable content => s!"cannot parse '{content}'"
  | startRepeated line => s!"start symbol already declared on line {line}"
  | parameter fault => parameterMessage fault

def FileFault.message : FileFault → String
  | notUtf8 => "stream did not contain valid UTF-8"
  | missing => "No such file or directory (os error 2)"
  | notDirectory => "Not a directory (os error 20)"
  | directory => "Is a directory (os error 21)"
  | nameTooLong => "File name too long (os error 36)"
  | other reason => reason

def Error.message : Error → String
  | definition label fault => s!"grammar definition error in {label.text}: {fault.message}"
  | consistency nt fault => s!"grammar consistency error for non-terminal {nt}: {fault.message}"
  | tokenization text position =>
    s!"cannot tokenize {Text.quoted text} at character {position}"
  | probability subject fault =>
    s!"probability consistency error for {subject.text}: {fault.message}"
  | noParse string => s!"corpus string {string} has zero probability under the grammar"
  | tooDeep limit => s!"random derivation exceeded the maximum depth of {limit}"
  | noSuchString index size =>
    s!"corpus string index {index} out of range (corpus has {size} strings)"
  | spanOutOfRange start stop nt string =>
    s!"span [{start}, {stop}] / non-terminal {nt} is outside string {string}"
  | unknownNonTerminal nt count => s!"non-terminal {nt} is not defined (grammar has {count})"
  | parameter fault => parameterMessage fault
  | line number fault => s!"syntax error on line {number}: {fault.message}"
  | file fault => fault.message

def Error.ofEvaluation (fault : EvaluationFault) : Error :=
  .probability (.rule fault.rule) (.evaluation fault.fault)

def Error.ofUpdate : UpdateFault → Error
  | .parameter fault => .parameter fault
  | .evaluation fault => .ofEvaluation fault

end StochasticGrammar
