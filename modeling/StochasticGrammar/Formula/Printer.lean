import StochasticGrammar.Formula.Basic

/-!
The text of a formula. Brackets stand where the operand binds less tightly than its operator, and
around a right operand of the same level, since operators group to the left.
-/

namespace StochasticGrammar.Formula

def needsBrackets (own parent : Nat) (onRight : Bool) : Bool :=
  decide (own < parent) || (onRight && own == parent)

/-- The text of a formula in its place, before the text that follows it. -/
def write : Formula → (parent : Nat) → (onRight : Bool) → (rest : List Char) → List Char
  | constant value, _, _, rest => (Decimal.text value).toList ++ rest
  | parameter name, _, _, rest => name.toList ++ rest
  | negate inner, _, _, rest => '-' :: inner.write 3 false rest
  | binary op left right, parent, onRight, rest =>
    let body (rest : List Char) : List Char :=
      left.write op.precedence false
        (' ' :: op.symbol :: ' ' :: right.write op.precedence true rest)
    if needsBrackets op.precedence parent onRight then '(' :: body (')' :: rest) else body rest

def text (f : Formula) : String := String.ofList (f.write 0 false [])

instance : ToString Formula := ⟨text⟩

end StochasticGrammar.Formula
