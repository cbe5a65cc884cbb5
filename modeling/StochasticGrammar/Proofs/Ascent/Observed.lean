import Mathlib
import StochasticGrammar.Ascent
import StochasticGrammar.Proofs.Stateful

/-!
A search that is watched. An observed target is evaluated like the target itself and keeps a record of
the points and what the objective gave there; the search makes the same moves on both, so that the
record is that of the search on the target.
-/

namespace StochasticGrammar

structure Evaluation where
  point : List Float
  outcome : Except Error Float

namespace Evaluation

/-- A point that is rejected scores minus infinity. -/
def score (e : Evaluation) : Float :=
  match e.outcome with
  | .ok value => value
  | .error _ => -1.0 / 0.0

/-- The objective gave a value, or the point was rejected as inconsistent. -/
def Admitted (e : Evaluation) : Prop :=
  e.outcome = .ok e.score ∨
    e.score = -1.0 / 0.0 ∧ ∃ subject fault, e.outcome = .error (.probability subject fault)

end Evaluation

/-- A target with its last point and the record of its evaluations. -/
structure Observed (σ : Type) where
  target : σ
  point : List Float := []
  record : List Evaluation := []

instance {σ : Type} [Optimizable σ] : Optimizable (Observed σ) where
  bounds o := Optimizable.bounds o.target
  values o := Optimizable.values o.target
  update point o :=
    let (result, target) := Optimizable.update point o.target
    (result, { o with target, point })
  objective o :=
    let (outcome, target) := Optimizable.objective o.target
    (outcome, { o with target, record := o.record ++ [⟨o.point, outcome⟩] })

/-- All evaluations of a search. -/
def Ascent.record {σ : Type} [Optimizable σ] (ascent : Ascent) (target : σ) : List Evaluation :=
  (ascent.optimize ({ target } : Observed σ)).2.record

namespace Climb

section

variable {σ α β : Type}

def forget (s : Scored (Observed σ)) : Scored σ := ⟨s.target.target, s.evaluations⟩

/-- The second does on a target what the first does when it is observed. -/
def Erases (m : Climb (Observed σ) α) (m' : Climb σ α) : Prop :=
  ∀ s, m' (forget s) = ((m s).1, forget (m s).2)

theorem Erases.pure (a : α) : Erases (σ := σ) (pure a) (pure a) := fun _ => rfl

theorem Erases.bind {m : Climb (Observed σ) α} {m' : Climb σ α} {f : α → Climb (Observed σ) β}
    {f' : α → Climb σ β} (first : Erases m m') (second : ∀ a, Erases (f a) (f' a)) :
    Erases (m >>= f) (m' >>= f') := by
  intro s
  rw [run_bind, run_bind, first s]
  cases m s with
  | mk result middle =>
    cases result with
    | error fault => rfl
    | ok a => exact second a middle

variable {scoreAt : Float → Climb (Observed σ) Float} {scoreAt' : Float → Climb σ Float}

theorem erases_narrow (same : ∀ value, Erases (scoreAt value) (scoreAt' value)) (n : Nat) (b : Bracket) :
    Erases (narrow scoreAt n b) (narrow scoreAt' n b) := by
  induction n generalizing b with
  | zero => exact .pure b
  | succ n ih =>
    unfold narrow
    split
    · exact (same _).bind fun _ => ih _
    · exact (same _).bind fun _ => ih _

end

section

variable {σ : Type} [Optimizable σ]

theorem erases_update (point : List Float) :
    Erases (σ := σ) (act (Optimizable.update point)) (act (Optimizable.update point)) :=
  fun _ => rfl

/-- What the search makes of an outcome. -/
def judged : Except Error Float → Except Error Float
  | .error (.probability ..) => .ok (-1.0 / 0.0)
  | outcome => outcome

theorem objectiveOrRejected_eq (target : σ) :
    objectiveOrRejected target =
      (judged (Optimizable.objective target).1, (Optimizable.objective target).2) := by
  unfold objectiveOrRejected judged
  rcases Optimizable.objective target with ⟨outcome, target⟩
  cases outcome with
  | ok value => rfl
  | error fault => cases fault <;> rfl

theorem erases_objective : Erases (σ := σ) (act objectiveOrRejected) (act objectiveOrRejected) := by
  intro s
  simp only [act, objectiveOrRejected_eq]
  rfl

theorem erases_score (point : List Float) : Erases (σ := σ) (score point) (score point) := by
  unfold score
  refine .bind (fun s => rfl) fun _ => (erases_update point).bind fun _ => erases_objective

theorem erases_lineSearch (steps : Nat) (point : List Float) (coordinate : Nat) (lower upper : Float) :
    Erases (σ := σ) (lineSearch steps point coordinate lower upper)
      (lineSearch steps point coordinate lower upper) := by
  unfold lineSearch
  refine (erases_score _).bind fun leftScore => (erases_score _).bind fun rightScore => ?_
  exact (erases_narrow (fun _ => erases_score _) steps _).bind fun _ => .pure _

theorem erases_sweep (steps coordinate : Nat) (best : Position) (bounds : List (Float × Float)) :
    Erases (σ := σ) (sweep steps coordinate best bounds) (sweep steps coordinate best bounds) := by
  induction bounds generalizing coordinate best with
  | nil => exact .pure best
  | cons interval rest ih => exact (erases_lineSearch _ _ _ _ _).bind fun _ => ih _ _

theorem erases_sweeps (tolerance : Float) (steps : Nat) (bounds : List (Float × Float)) (n made : Nat)
    (best : Position) :
    Erases (σ := σ) (sweeps tolerance steps bounds n made best)
      (sweeps tolerance steps bounds n made best) := by
  induction n generalizing made best with
  | zero => exact .pure (best, made)
  | succ n ih =>
    unfold sweeps
    refine (erases_sweep _ _ _ _).bind fun next => ?_
    split
    · exact .pure _
    · exact ih _ _

/-- The search once its first point and the bounds are known. -/
def climbFrom (ascent : Ascent) (point : List Float) (bounds : List (Float × Float)) :
    Climb σ AscentReport := do
  let initial ← score point
  let (best, made) ←
    sweeps ascent.tolerance ascent.lineSearchSteps bounds ascent.maxSweeps 0 ⟨point, initial⟩
  act (Optimizable.update best.point)
  return ⟨initial, best.score, made, (← get).evaluations, best.point⟩

theorem climb_eq (ascent : Ascent) (s : Scored σ) :
    climb ascent s =
      climbFrom ascent (Optimizable.values s.target) (Optimizable.bounds s.target) s := rfl

theorem erases_climbFrom (ascent : Ascent) (point : List Float) (bounds : List (Float × Float)) :
    Erases (σ := σ) (climbFrom ascent point bounds) (climbFrom ascent point bounds) := by
  unfold climbFrom
  refine (erases_score _).bind fun initial => (erases_sweeps _ _ _ _ _ _).bind fun reached => ?_
  exact (erases_update _).bind fun _ _ => rfl

end

end Climb

theorem Ascent.optimize_observed {σ : Type} [Optimizable σ] (ascent : Ascent) (target : σ) :
    ascent.optimize target =
      ((ascent.optimize ({ target } : Observed σ)).1, (ascent.optimize ({ target } : Observed σ)).2.target) := by
  have erased := Climb.erases_climbFrom ascent (Optimizable.values target) (Optimizable.bounds target)
    ⟨({ target } : Observed σ), 0⟩
  simp only [optimize, Climb.climb_eq]
  change Climb.climbFrom ascent _ _ ⟨target, 0⟩ = _ at erased
  rw [erased]
  rfl

end StochasticGrammar
