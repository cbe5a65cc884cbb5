import StochasticGrammar.Error

/-!
A grammar as it is declared, before anything is checked. Symbols may be negative here and formulas
are texts.
-/

namespace StochasticGrammar

structure TerminalDeclaration where
  lhs : Int
  literal : String
  formula : Option String
  deriving DecidableEq, Repr

structure BinaryDeclaration where
  lhs : Int
  left : Int
  right : Int
  formula : Option String
  deriving DecidableEq, Repr

structure Declarations where
  terminalRules : Array TerminalDeclaration := #[]
  binaryRules : Array BinaryDeclaration := #[]
  start : Int := 0
  parameters : Parameters := .empty
  deriving Repr, Inhabited

def TerminalDeclaration.label (rule : TerminalDeclaration) (number : Nat) : DeclarationLabel :=
  .terminalRule number rule.lhs rule.literal

def BinaryDeclaration.label (rule : BinaryDeclaration) (number : Nat) : DeclarationLabel :=
  .binaryRule number rule.lhs rule.left rule.right

end StochasticGrammar
