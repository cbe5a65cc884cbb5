import StochasticGrammar.Parameters

/-!
Arithmetic formulas over named parameters, their value, and the names they read.
-/

namespace StochasticGrammar

inductive BinaryOp where
  | add
  | sub
  | mul
  | div
  deriving DecidableEq, Repr

def BinaryOp.symbol : BinaryOp → Char
  | add => '+'
  | sub => '-'
  | mul => '*'
  | div => '/'

def BinaryOp.precedence : BinaryOp → Nat
  | add | sub => 1
  | mul | div => 2

def BinaryOp.apply : BinaryOp → Float → Float → Float
  | add, a, b => a + b
  | sub, a, b => a - b
  | mul, a, b => a * b
  | div, a, b => a / b

/-- Two formulas are `==` when they have the same shape and names and numerically equal constants. -/
inductive Formula where
  | constant (value : Float)
  | parameter (name : String)
  | negate (inner : Formula)
  | binary (op : BinaryOp) (left right : Formula)
  deriving BEq, Repr

namespace Formula

def evaluate (ps : Parameters) : Formula → Except ParameterFault Float
  | constant value => .ok value
  | parameter name =>
    match ps.value? name with
    | some value => .ok value
    | none => .error (.unknownName name)
  | negate inner => do
    let a ← inner.evaluate ps
    return -a
  | binary op left right => do
    let a ← left.evaluate ps
    let b ← right.evaluate ps
    return op.apply a b

def insertName (name : String) : List String → List String
  | [] => [name]
  | n :: rest =>
    if name < n then name :: n :: rest
    else if name = n then n :: rest
    else n :: insertName name rest

def collect : Formula → List String → List String
  | constant _, names => names
  | parameter name, names => insertName name names
  | negate inner, names => inner.collect names
  | binary _ left right, names => right.collect (left.collect names)

/-- The parameters that a formula reads, in ascending order and once each. -/
def names (f : Formula) : List String := f.collect []

end Formula

end StochasticGrammar
