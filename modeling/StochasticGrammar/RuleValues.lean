import StochasticGrammar.Formula.Basic

/-!
The current probability of every rule. A rule without a formula is certain; the others are evaluated
once for each update of the parameters, and kept.
-/

namespace StochasticGrammar

inductive RuleSource where
  | certain
  | formula (formula : Formula)
  deriving Repr, Inhabited

def RuleSource.isCertain : RuleSource → Bool
  | certain => true
  | formula _ => false

def RuleSource.evaluate (ps : Parameters) : RuleSource → Except ParameterFault Float
  | certain => .ok 1.0
  | formula f => f.evaluate ps

structure EvaluationFault where
  rule : Nat
  fault : ParameterFault
  deriving DecidableEq, Repr

def evaluateFrom (ps : Parameters) (rule : Nat) :
    List RuleSource → Except EvaluationFault (List Float)
  | [] => .ok []
  | source :: rest =>
    match source.evaluate ps with
    | .error fault => .error ⟨rule, fault⟩
    | .ok value => do
      let values ← evaluateFrom ps (rule + 1) rest
      return value :: values

def evaluateAll (sources : Array RuleSource) (ps : Parameters) : Except EvaluationFault (Array Float) := do
  let values ← evaluateFrom ps 0 sources.toList
  return values.toArray

inductive UpdateFault where
  | parameter (fault : ParameterFault)
  | evaluation (fault : EvaluationFault)
  deriving DecidableEq, Repr

structure RuleValues where
  parameters : Parameters
  sources : Array RuleSource
  values : Array Float
  deriving Repr, Inhabited

namespace RuleValues

def ofSources (ps : Parameters) (sources : Array RuleSource) : Except EvaluationFault RuleValues := do
  let values ← evaluateAll sources ps
  return ⟨ps, sources, values⟩

def epoch (store : RuleValues) : Nat := store.parameters.epoch

def value (store : RuleValues) (rule : Nat) : Float := store.values[rule]?.getD 0.0

def isCertain (store : RuleValues) (rule : Nat) : Bool :=
  (store.sources[rule]?.map RuleSource.isCertain).getD true

def setValues (store : RuleValues) (updates : List (Nat × Float)) : Except UpdateFault RuleValues :=
  match store.parameters.setValues updates with
  | .error fault => .error (.parameter fault)
  | .ok ps =>
    match evaluateAll store.sources ps with
    | .error fault => .error (.evaluation fault)
    | .ok values => .ok ⟨ps, store.sources, values⟩

end RuleValues

end StochasticGrammar
