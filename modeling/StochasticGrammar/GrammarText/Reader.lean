import StochasticGrammar.GrammarText.Line

/-!
Reading a grammar text line by line. A `#` outside a literal begins a comment, blank lines are
skipped, and lines are numbered from one. A carriage return before a line feed is blank like any
other white space at the end of a line.
-/

namespace StochasticGrammar.GrammarText

/-- Text without a comment. Inside a literal a backslash takes the next character with it. -/
def withoutComment : (inLiteral : Bool) → List Char → List Char
  | _, [] => []
  | true, '\\' :: c :: rest => '\\' :: c :: withoutComment true rest
  | inLiteral, c :: rest =>
    if c = '"' then c :: withoutComment (!inLiteral) rest
    else if c = '#' ∧ !inLiteral then []
    else c :: withoutComment inLiteral rest

/-- The pieces between line feeds, without an empty last piece. -/
def splitLines : List Char → List (List Char)
  | [] => []
  | c :: rest =>
    if c = '\n' then [] :: splitLines rest
    else match splitLines rest with
      | [] => [[c]]
      | line :: lines => (c :: line) :: lines

def content (line : List Char) : List Char := Text.trimChars (withoutComment false line)

structure Progress where
  declarations : Declarations := {}
  startLine : Option Nat := none
  deriving Inhabited

def Line.declare (number : Nat) (progress : Progress) : Line → Except LineFault Progress
  | .start symbol =>
    match progress.startLine with
    | some line => .error (.startRepeated line)
    | none => .ok ⟨{ progress.declarations with start := symbol }, some number⟩
  | .parameter name value bounds =>
    let (lower, upper) := bounds.getD (0.0, 1.0)
    match progress.declarations.parameters.add name value lower upper with
    | .error fault => .error (.parameter fault)
    | .ok (_, parameters) =>
      .ok { progress with declarations := { progress.declarations with parameters } }
  | .terminalRule rule =>
    let terminalRules := progress.declarations.terminalRules.push rule
    .ok { progress with declarations := { progress.declarations with terminalRules } }
  | .binaryRule rule =>
    let binaryRules := progress.declarations.binaryRules.push rule
    .ok { progress with declarations := { progress.declarations with binaryRules } }

def readLine (number : Nat) (progress : Progress) (line : List Char) : Except LineFault Progress :=
  match content line with
  | [] => .ok progress
  | text =>
    match line? text with
    | none => .error (.unreadable (String.ofList text))
    | some line => line.declare number progress

def readLines (number : Nat) (progress : Progress) : List (List Char) → Except Error Progress
  | [] => .ok progress
  | line :: rest =>
    match readLine number progress line with
    | .error fault => .error (.line number fault)
    | .ok progress => readLines (number + 1) progress rest

def read (text : String) : Except Error Declarations := do
  let progress ← readLines 1 {} (splitLines text.toList)
  return progress.declarations

end StochasticGrammar.GrammarText
