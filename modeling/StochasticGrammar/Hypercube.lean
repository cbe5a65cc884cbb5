import StochasticGrammar.Consistency
import StochasticGrammar.Random.Source

/-!
Checking rule values at random parameter values. With `n` samples the range of every used parameter
is cut into `n` equal strata, and each stratum is sampled once, the parameters in independent orders.
-/

namespace StochasticGrammar

structure SampleFailure where
  sample : Nat
  values : List (String × Float)
  inconsistency : Inconsistency
  deriving Repr

structure SampleReport where
  samples : Nat
  failures : List SampleFailure
  deriving Repr

def SampleReport.passed (report : SampleReport) : Bool := report.failures.isEmpty

def SampleFailure.reason (failure : SampleFailure) : String :=
  s!"{failure.inconsistency.subject.text}: {failure.inconsistency.fault.message}"

def clamp (x lower upper : Float) : Float :=
  if x < lower then lower else if upper < x then upper else x

/-- The point at `offset` in the given one of `count` strata between the bounds. -/
def stratumValue (lower upper : Float) (stratum count : Nat) (offset : Float) : Float :=
  let fraction := (stratum.toFloat + offset) / count.toFloat
  clamp (lower + (upper - lower) * fraction) lower upper

namespace Grammar

variable {σ : Type} [RandomSource σ] (g : Grammar)

/-- An order of the strata for each of the used parameters. -/
def drawStrata (samples : Nat) : List Nat → σ → Option (List (Nat × Array Nat) × σ)
  | [], source => some ([], source)
  | id :: ids, source => do
    let (order, source) ← RandomSource.shuffle (Array.range samples) source
    let (orders, source) ← drawStrata samples ids source
    return ((id, order) :: orders, source)

def drawPoint (samples sample : Nat) : List (Nat × Array Nat) → σ → List (Nat × Float) × σ
  | [], source => ([], source)
  | (id, order) :: rest, source =>
    match g.parameters.get? id with
    | none => drawPoint samples sample rest source
    | some p =>
      let (offset, source) := RandomSource.nextUnit source
      let value := stratumValue p.lower p.upper (order[sample]?.getD 0) samples offset
      let (values, source) := drawPoint samples sample rest source
      ((id, value) :: values, source)

def inconsistencyAt? (ps : Parameters) : Option Inconsistency :=
  match evaluateAll g.values.sources ps with
  | .error fault => some ⟨.rule fault.rule, .evaluation fault.fault⟩
  | .ok values => g.inconsistency? values

def checkPoint (sample : Nat) (updates : List (Nat × Float)) :
    Except Error (Option SampleFailure) :=
  match g.parameters.setValues updates with
  | .error fault => .error (.parameter fault)
  | .ok ps =>
    let named := updates.filterMap fun (id, value) => (ps.get? id).map fun p => (p.name, value)
    .ok ((g.inconsistencyAt? ps).map fun inconsistency => ⟨sample, named, inconsistency⟩)

def checkSamples (samples : Nat) (strata : List (Nat × Array Nat)) (failures : Array SampleFailure) :
    List Nat → σ → Except Error (Array SampleFailure) × σ
  | [], source => (.ok failures, source)
  | sample :: rest, source =>
    let (updates, source) := g.drawPoint samples sample strata source
    match g.checkPoint sample updates with
    | .error fault => (.error fault, source)
    | .ok none => checkSamples samples strata failures rest source
    | .ok (some failure) => checkSamples samples strata (failures.push failure) rest source

/-- The report on so many samples, if the shuffles of the strata end. -/
def verifySamples (samples : Nat) (source : σ) : Option (Except Error SampleReport × σ) :=
  if samples = 0 then some (.ok ⟨0, []⟩, source)
  else do
    let (strata, source) ← drawStrata samples g.used source
    let (failures, source) := g.checkSamples samples strata #[] (List.range samples) source
    return (failures.map fun failures => ⟨samples, failures.toList⟩, source)

end Grammar

end StochasticGrammar
