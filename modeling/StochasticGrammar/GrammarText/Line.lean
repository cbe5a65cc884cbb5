import StochasticGrammar.Declarations

/-!
One line of a grammar text. A line declares the start symbol, a parameter or a rule:

    start 0
    param p = 0.5 in [0, 1]
    0 -> "a" : p
    0 -> 1 2

A literal stands between quotes, and a backslash in it before a quote or a backslash. Only spaces and
tabs may separate the parts and follow the last one.
-/

namespace StochasticGrammar.GrammarText

inductive Line where
  | start (start : Int)
  | parameter (name : String) (value : Float) (bounds : Option (Float × Float))
  | terminalRule (rule : TerminalDeclaration)
  | binaryRule (rule : BinaryDeclaration)
  deriving Repr

/-- A reader takes something off the front of the text. -/
abbrev Reader (α : Type) := List Char → Option (α × List Char)

def isGap (c : Char) : Bool := c == ' ' || c == '\t'

def skipGap (input : List Char) : List Char := input.dropWhile isGap

def gap? (input : List Char) : Option (List Char) :=
  let rest := skipGap input
  if rest.length < input.length then some rest else none

def word? : (word : List Char) → List Char → Option (List Char)
  | [], input => some input
  | w :: word, c :: rest => if w = c then word? word rest else none
  | _ :: _, [] => none

/-- Whole numbers are kept to 64 bits with sign. -/
def integer? : Reader Int := fun input => do
  let (negative, rest) :=
    match input with
    | '-' :: rest => (true, rest)
    | rest => (false, rest)
  match Decimal.splitDigits rest with
  | ([], _) => none
  | (digits, rest) =>
    let size : Int := Decimal.digitsValue digits
    let value := if negative then -size else size
    if -0x8000000000000000 ≤ value ∧ value < 0x8000000000000000 then some (value, rest) else none

def foldsTo (word : List Char) (input : List Char) : Option (List Char) :=
  if (input.take word.length).map Char.toLower = word then some (input.drop word.length) else none

/-- A number, or the name of the undefined value or of infinity without a sign. -/
def number? : Reader Float := fun input =>
  match Decimal.scan input with
  | .number value rest => some (value, rest)
  | .broken => none
  | .absent =>
    match foldsTo ['n', 'a', 'n'] input with
    | some rest => some (0.0 / 0.0, rest)
    | none => (foldsTo ['i', 'n', 'f'] input).map fun rest => (1.0 / 0.0, rest)

/-- The characters of a literal after its opening quote, up to and without the closing one. -/
def literalBody? : Reader (List Char)
  | '"' :: rest => some ([], rest)
  | '\\' :: c :: rest =>
    if c = '"' ∨ c = '\\' then (literalBody? rest).map fun (body, rest) => (c :: body, rest)
    else none
  | ['\\'] => none
  | c :: rest => (literalBody? rest).map fun (body, rest) => (c :: body, rest)
  | [] => none

def literal? : Reader String
  | '"' :: rest => (literalBody? rest).map fun (body, rest) => (String.ofList body, rest)
  | _ => none

def start? : Reader Line := fun input => do
  let rest ← gap? (← word? "start".toList input)
  let (start, rest) ← integer? rest
  return (.start start, rest)

def bounds? : Reader (Float × Float) := fun input => do
  let rest ← gap? input
  let rest ← word? ['i', 'n'] rest
  let rest ← word? ['['] (skipGap rest)
  let (lower, rest) ← number? (skipGap rest)
  let rest ← word? [','] (skipGap rest)
  let (upper, rest) ← number? (skipGap rest)
  let rest ← word? [']'] (skipGap rest)
  return ((lower, upper), rest)

def parameter? : Reader Line := fun input => do
  let rest ← gap? (← word? "param".toList input)
  let (name, rest) ← Formula.name? rest
  let rest ← word? ['='] (skipGap rest)
  let (value, rest) ← number? (skipGap rest)
  match bounds? rest with
  | some (bounds, rest) => return (.parameter name value (some bounds), rest)
  | none => return (.parameter name value none, rest)

/-- After a colon all the rest is the formula; a blank one counts as none. -/
def formulaText (input : List Char) : Option String × List Char :=
  match word? [':'] (skipGap input) with
  | none => (none, input)
  | some rest =>
    match Text.trimChars rest with
    | [] => (none, [])
    | text => (some (String.ofList text), [])

def rule? : Reader Line := fun input => do
  let (lhs, rest) ← integer? input
  let rest ← word? ['-', '>'] (skipGap rest)
  let rest := skipGap rest
  match literal? rest with
  | some (literal, rest) =>
    let (formula, rest) := formulaText rest
    return (.terminalRule ⟨lhs, literal, formula⟩, rest)
  | none =>
    let (left, rest) ← integer? rest
    let (right, rest) ← integer? (← gap? rest)
    let (formula, rest) := formulaText rest
    return (.binaryRule ⟨lhs, left, right, formula⟩, rest)

def line? (content : List Char) : Option Line := do
  let (line, rest) ← start? content <|> parameter? content <|> rule? content
  if (skipGap rest).isEmpty then some line else none

end StochasticGrammar.GrammarText
