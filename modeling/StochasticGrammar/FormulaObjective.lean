import StochasticGrammar.Ascent

/-!
A formula as an objective over all parameters of a registry, and so a target of the search without a
grammar or a corpus: it shows the search at work on any function of the parameters, and on bounds and
points that the training of a grammar does not come to. Where a second formula is negative the objective
is inconsistent, which the search has to score and not to pass on.
-/

namespace StochasticGrammar

structure FormulaObjective where
  parameters : Parameters
  formula : Formula
  valid : Option Formula := none
  /-- The values of the objective so far, the latest first. -/
  trace : List Float := []
  deriving Repr

namespace FormulaObjective

def bounds (target : FormulaObjective) : List (Float × Float) :=
  target.parameters.entries.toList.map fun p => (p.lower, p.upper)

def values (target : FormulaObjective) : List Float :=
  target.parameters.entries.toList.map (·.value)

def update (values : List Float) (target : FormulaObjective) : Except Error Unit × FormulaObjective :=
  match target.parameters.setValues (values.zipIdx.map fun (value, id) => (id, value)) with
  | .ok parameters => (.ok (), { target with parameters })
  | .error fault => (.error (.parameter fault), target)

def check (target : FormulaObjective) : Except Error Unit :=
  match target.valid with
  | none => .ok ()
  | some formula =>
    match formula.evaluate target.parameters with
    | .error fault => .error (.parameter fault)
    | .ok value => if value < 0.0 then .error (.probability (.rule 0) (.outsideUnit value)) else .ok ()

def evaluate (target : FormulaObjective) : Except Error Float := do
  target.check
  (target.formula.evaluate target.parameters).mapError Error.parameter

def objective (target : FormulaObjective) : Except Error Float × FormulaObjective :=
  match target.evaluate with
  | .ok value => (.ok value, { target with trace := value :: target.trace })
  | .error fault => (.error fault, target)

instance : Optimizable FormulaObjective := ⟨bounds, values, update, objective⟩

end FormulaObjective

end StochasticGrammar
