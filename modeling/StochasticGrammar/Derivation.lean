import StochasticGrammar.Grammar

/-!
Derivation trees as the rules at their nodes. The symbols are those of the rules, and the leaves stand
for one token each, so that the spans of the nodes follow from where the tree begins.
-/

namespace StochasticGrammar

inductive Derivation where
  | leaf (rule : Nat)
  | node (rule : Nat) (left right : Derivation)
  deriving DecidableEq, Repr, Inhabited

namespace Derivation

def rule : Derivation → Nat
  | leaf rule => rule
  | node rule _ _ => rule

def width : Derivation → Nat
  | leaf _ => 1
  | node _ left right => left.width + right.width

/-- A node with its span and, unless it is a leaf, the end of the span of its left child. -/
structure Placed where
  start : Nat
  stop : Nat
  rule : Nat
  split : Option Nat
  deriving DecidableEq, Repr

/-- The nodes of a tree that begins at `start`, each before its children. -/
def placed : Derivation → (start : Nat) → List Placed
  | leaf rule, start => [⟨start, start, rule, none⟩]
  | node rule left right, start =>
    let middle := start + left.width
    ⟨start, middle + right.width - 1, rule, some (middle - 1)⟩ ::
      (left.placed start ++ right.placed middle)

end Derivation

namespace Grammar

def lhs (g : Grammar) (rule : Nat) : Nat := (g.rules.lhs? rule).getD 0

/-- A literal is quoted where it could be taken for the structure around it. -/
def shownLiteral (literal : String) : String :=
  if literal.toList.any fun c => Text.isBlank c || c == '(' || c == ')' then Text.literal literal
  else literal

def leafText (g : Grammar) (rule : Nat) : String :=
  match g.rules.production? rule with
  | some (.terminal terminal) => shownLiteral ((g.literal? terminal).getD "")
  | _ => ""

def bracketed (g : Grammar) : Derivation → String
  | .leaf rule => s!"({g.lhs rule} {g.leafText rule})"
  | .node rule left right => s!"({g.lhs rule} {g.bracketed left} {g.bracketed right})"

end Grammar

end StochasticGrammar
