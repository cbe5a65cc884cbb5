import StochasticGrammar.Consistency

/-!
Cyclic coordinate ascent. One parameter after the other is moved to the best value that a
golden-section search along it finds, sweep after sweep, until a sweep gains no more than the
tolerance. Points where the objective is inconsistent score minus infinity; any other failure ends
the search.
-/

namespace StochasticGrammar

/-- An objective over bounded parameters; the point is moved as a whole. -/
class Optimizable (σ : Type) where
  bounds : σ → List (Float × Float)
  values : σ → List Float
  update : List Float → σ → Except Error Unit × σ
  objective : σ → Except Error Float × σ

structure Ascent where
  maxSweeps : Nat := 50
  tolerance : Float := 1e-6
  lineSearchSteps : Nat := 40
  deriving Repr, Inhabited

structure AscentReport where
  initial : Float
  final : Float
  sweeps : Nat
  evaluations : Nat
  values : List Float
  deriving Repr

/-- A target with the number of times that it was scored. -/
structure Scored (σ : Type) where
  target : σ
  evaluations : Nat

abbrev Climb (σ : Type) := ExceptT Error (StateM (Scored σ))

/-- An interval with two probes in it and their scores. -/
structure Bracket where
  lower : Float
  upper : Float
  left : Float
  right : Float
  leftScore : Float
  rightScore : Float
  deriving Repr

def goldenRatio : Float := 0.6180339887498949

def leftProbe (lower upper : Float) : Float := upper - (upper - lower) * goldenRatio

def rightProbe (lower upper : Float) : Float := lower + (upper - lower) * goldenRatio

def Bracket.best (b : Bracket) : Float × Float :=
  if b.rightScore < b.leftScore then (b.left, b.leftScore) else (b.right, b.rightScore)

namespace Climb

variable {σ : Type} [Optimizable σ]

def act {α : Type} (action : σ → Except Error α × σ) : Climb σ α := fun s =>
  let (result, target) := action s.target
  (result, { s with target })

def objectiveOrRejected (target : σ) : Except Error Float × σ :=
  match Optimizable.objective target with
  | (.error (.probability ..), target) => (.ok (-1.0 / 0.0), target)
  | other => other

def score (point : List Float) : Climb σ Float := do
  modify fun s => { s with evaluations := s.evaluations + 1 }
  act (Optimizable.update point)
  act objectiveOrRejected

/-- Each step drops the part beyond the worse probe; the better one is a probe of what is left. -/
def narrow (scoreAt : Float → Climb σ Float) : Nat → Bracket → Climb σ Bracket
  | 0, b => return b
  | n + 1, b => do
    if b.rightScore < b.leftScore then
      let left := leftProbe b.lower b.right
      let leftScore ← scoreAt left
      narrow scoreAt n ⟨b.lower, b.right, left, b.left, leftScore, b.leftScore⟩
    else
      let right := rightProbe b.left b.upper
      let rightScore ← scoreAt right
      narrow scoreAt n ⟨b.left, b.upper, b.right, right, b.rightScore, rightScore⟩

/-- The best value found for one coordinate of the point, with its score. -/
def lineSearch (steps : Nat) (point : List Float) (coordinate : Nat) (lower upper : Float) :
    Climb σ (Float × Float) := do
  let scoreAt (value : Float) : Climb σ Float := score (point.set coordinate value)
  let left := leftProbe lower upper
  let right := rightProbe lower upper
  let leftScore ← scoreAt left
  let rightScore ← scoreAt right
  let bracket ← narrow scoreAt steps ⟨lower, upper, left, right, leftScore, rightScore⟩
  return bracket.best

/-- A point with its score. -/
structure Position where
  point : List Float
  score : Float
  deriving Repr

def sweep (steps coordinate : Nat) (best : Position) : List (Float × Float) → Climb σ Position
  | [] => return best
  | (lower, upper) :: rest => do
    let (value, found) ← lineSearch steps best.point coordinate lower upper
    let best := if best.score < found then ⟨best.point.set coordinate value, found⟩ else best
    sweep steps (coordinate + 1) best rest

def settled (tolerance before after : Float) : Bool :=
  !decide (tolerance < after - before) && before.isFinite

/-- The position after at most `n` further sweeps, and the number of all sweeps made. -/
def sweeps (tolerance : Float) (steps : Nat) (bounds : List (Float × Float)) :
    (n made : Nat) → Position → Climb σ (Position × Nat)
  | 0, made, best => return (best, made)
  | n + 1, made, best => do
    let next ← sweep steps 0 best bounds
    if settled tolerance best.score next.score then return (next, made + 1)
    else sweeps tolerance steps bounds n (made + 1) next

def climb (ascent : Ascent) : Climb σ AscentReport := do
  let target := (← get).target
  let bounds := Optimizable.bounds target
  let point := Optimizable.values target
  let initial ← score point
  let (best, made) ←
    sweeps ascent.tolerance ascent.lineSearchSteps bounds ascent.maxSweeps 0 ⟨point, initial⟩
  act (Optimizable.update best.point)
  return ⟨initial, best.score, made, (← get).evaluations, best.point⟩

end Climb

/-- Leaves the target at the best point found. -/
def Ascent.optimize {σ : Type} [Optimizable σ] (ascent : Ascent) (target : σ) :
    Except Error AscentReport × σ :=
  let (report, scored) := Climb.climb ascent ⟨target, 0⟩
  (report, scored.target)

end StochasticGrammar
