import StochasticGrammar.Decimal.Layout

/-!
Named, bounded parameters. A registry numbers its parameters in the order of their addition and
counts its successful updates in `epoch`, so that anything computed from the values can tell when
they have moved on. An update is made as a whole or not at all. Names are looked up among the parameters
themselves, and epochs are counted without a bound.
-/

namespace StochasticGrammar

structure Parameter where
  name : String
  value : Float
  lower : Float
  upper : Float
  deriving DecidableEq, Repr

inductive ParameterFault where
  | declaredTwice (name : String)
  | invalidBounds (name : String) (lower upper : Float)
  | outOfBounds (name : String) (value lower upper : Float)
  | unknownName (name : String)
  | unknownIndex (index : Nat)
  | wrongCount (expected given : Nat)
  deriving DecidableEq, Repr

def ParameterFault.message : ParameterFault → String
  | declaredTwice name => s!"parameter '{name}' declared twice"
  | invalidBounds name lower upper =>
    s!"parameter '{name}' has invalid bounds [{Decimal.text lower}, {Decimal.text upper}]"
  | outOfBounds name value lower upper =>
    s!"value {Decimal.text value} for '{name}' lies outside [{Decimal.text lower}, {Decimal.text upper}]"
  | unknownName name => s!"unknown parameter '{name}'"
  | unknownIndex index => s!"unknown parameter index {index}"
  | wrongCount expected given => s!"expected {expected} values, got {given}"

structure Parameters where
  entries : Array Parameter := #[]
  epoch : Nat := 0
  deriving Repr, Inhabited

namespace Parameters

def empty : Parameters := {}

def size (ps : Parameters) : Nat := ps.entries.size

def id? (ps : Parameters) (name : String) : Option Nat :=
  ps.entries.findIdx? fun p => p.name == name

def get? (ps : Parameters) (id : Nat) : Option Parameter := ps.entries[id]?

def value? (ps : Parameters) (name : String) : Option Float :=
  (ps.entries.find? fun p => p.name == name).map (·.value)

def toList (ps : Parameters) : List (Nat × Parameter) :=
  ps.entries.toList.zipIdx.map fun (p, id) => (id, p)

def validBounds (lower upper : Float) : Bool :=
  decide (lower ≤ upper) && lower.isFinite && upper.isFinite

def inBounds (value lower upper : Float) : Bool :=
  value.isFinite && decide (lower ≤ value) && decide (value ≤ upper)

def add (ps : Parameters) (name : String) (value lower upper : Float) :
    Except ParameterFault (Nat × Parameters) :=
  if (ps.id? name).isSome then .error (.declaredTwice name)
  else if !validBounds lower upper then .error (.invalidBounds name lower upper)
  else if !inBounds value lower upper then .error (.outOfBounds name value lower upper)
  else .ok (ps.size, ⟨ps.entries.push ⟨name, value, lower, upper⟩, ps.epoch + 1⟩)

/-- The first assignment of `updates` that names no parameter or leaves the bounds of its parameter. -/
def fault? (ps : Parameters) (updates : List (Nat × Float)) : Option ParameterFault :=
  updates.findSome? fun (id, value) =>
    match ps.get? id with
    | none => some (.unknownIndex id)
    | some p =>
      if inBounds value p.lower p.upper then none
      else some (.outOfBounds p.name value p.lower p.upper)

def assign (entries : Array Parameter) (updates : List (Nat × Float)) : Array Parameter :=
  updates.foldl (fun (entries : Array Parameter) (update : Nat × Float) =>
    entries.modify update.1 fun p => { p with value := update.2 }) entries

def setValues (ps : Parameters) (updates : List (Nat × Float)) : Except ParameterFault Parameters :=
  match ps.fault? updates with
  | some fault => .error fault
  | none => .ok ⟨assign ps.entries updates, ps.epoch + 1⟩

def setValue (ps : Parameters) (name : String) (value : Float) : Except ParameterFault Parameters :=
  match ps.id? name with
  | none => .error (.unknownName name)
  | some id => ps.setValues [(id, value)]

end Parameters

end StochasticGrammar
