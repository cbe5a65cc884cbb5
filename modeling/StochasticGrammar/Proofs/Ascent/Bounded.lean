import StochasticGrammar.Proofs.Ascent.Attained
import StochasticGrammar.Proofs.Double.Differences

/-!
The search keeps to the ranges of its parameters. Where all ranges have a finite width, every bracket of
every line search stays in its range whatever the scores are, so that no update is refused and the search
ends with a report. A range whose width overflows stops the search at its first probe, which is refused.
-/

namespace StochasticGrammar

open Double

/-- A point with each of its values in the range for it. -/
def Within (bounds : List (Float × Float)) (point : List Float) : Prop :=
  List.Forall₂ (fun range value => Inside range.1 range.2 value) bounds point

theorem Within.set {bounds : List (Float × Float)} {point : List Float} (within : Within bounds point)
    {coordinate : Nat} {lower upper value : Float} (range : bounds[coordinate]? = some (lower, upper))
    (inside : Inside lower upper value) : Within bounds (point.set coordinate value) := by
  unfold Within at within ⊢
  induction within generalizing coordinate with
  | nil => cases range
  | cons here rest ih =>
    cases coordinate with
    | zero =>
      cases range
      exact .cons inside rest
    | succ coordinate => exact .cons here (ih range)

theorem range_of_drop {bounds rest : List (Float × Float)} {coordinate : Nat} {range : Float × Float}
    (remaining : bounds.drop coordinate = range :: rest) :
    bounds[coordinate]? = some range ∧ bounds.drop (coordinate + 1) = rest := by
  constructor
  · rw [← Nat.add_zero coordinate, ← List.getElem?_drop, remaining]
    rfl
  · rw [← List.drop_drop, remaining]
    rfl

/-- Targets of a kind that take every point of the ranges and refuse one that leaves them in a coordinate.
They stay of the kind, and at a point they are evaluated or found inconsistent. -/
structure Boxed {σ : Type} [Optimizable σ] (P : σ → Prop) (bounds : List (Float × Float))
    (refusal : Nat → Float → Error) : Prop where
  ranges : ∀ range ∈ bounds, range.1.isFinite = true ∧ range.2.isFinite = true ∧ range.1 ≤ range.2
  update : ∀ {t : σ} {point}, P t → Within bounds point →
    ∃ t', Optimizable.update point t = (.ok (), t') ∧ P t'
  refuse : ∀ {t : σ} {point coordinate lower upper value}, P t → Within bounds point →
    bounds[coordinate]? = some (lower, upper) → ¬ Inside lower upper value →
      ∃ t', Optimizable.update (point.set coordinate value) t = (.error (refusal coordinate value), t') ∧ P t'
  objective : ∀ {t : σ}, P t →
    P (Optimizable.objective t).2 ∧ ∃ score, Climb.judged (Optimizable.objective t).1 = .ok score

namespace Climb

section

variable {σ α β : Type} (P : σ → Prop) (bounds : List (Float × Float))

/-- The target is of the kind, and only points of the ranges have been evaluated. -/
structure Kept (s : Scored (Observed σ)) : Prop where
  target : P s.target.target
  record : ∀ e ∈ s.target.record, Within bounds e.point

theorem Kept.start {target : σ} (holds : P target) : Kept P bounds ⟨({ target } : Observed σ), 0⟩ :=
  ⟨holds, fun _ none => by cases none⟩

def Succeeds (m : Climb (Observed σ) α) (Q : α → Prop) : Prop :=
  ∀ ⦃s⦄, Kept P bounds s → Kept P bounds (m s).2 ∧ ∃ a, (m s).1 = .ok a ∧ Q a

def Fails (m : Climb (Observed σ) α) (fault : Error) : Prop :=
  ∀ ⦃s⦄, Kept P bounds s → Kept P bounds (m s).2 ∧ (m s).1 = .error fault

variable {P bounds} {m : Climb (Observed σ) α} {f : α → Climb (Observed σ) β} {Q : α → Prop}
  {Q' : β → Prop} {fault : Error}

theorem Succeeds.pure {a : α} (holds : Q a) : Succeeds P bounds (pure a) Q :=
  fun _ kept => ⟨kept, a, rfl, holds⟩

theorem Succeeds.run {s : Scored (Observed σ)} (succeeds : Succeeds P bounds m Q) (kept : Kept P bounds s) :
    ∃ a s', m s = (.ok a, s') ∧ Kept P bounds s' ∧ Q a := by
  rcases succeeds kept with ⟨kept', a, ran, holds⟩
  exact ⟨a, _, Prod.ext ran rfl, kept', holds⟩

theorem Succeeds.bind (first : Succeeds P bounds m Q) (second : ∀ a, Q a → Succeeds P bounds (f a) Q') :
    Succeeds P bounds (m >>= f) Q' := by
  intro s kept
  rcases first.run kept with ⟨a, middle, ran, kept', holds⟩
  rw [run_bind, ran]
  exact second a holds kept'

theorem Succeeds.bind_fails (first : Succeeds P bounds m Q) (second : ∀ a, Q a → Fails P bounds (f a) fault) :
    Fails P bounds (m >>= f) fault := by
  intro s kept
  rcases first.run kept with ⟨a, middle, ran, kept', holds⟩
  rw [run_bind, ran]
  exact second a holds kept'

theorem Fails.bind (first : Fails P bounds m fault) : Fails P bounds (m >>= f) fault := by
  intro s kept
  rcases first kept with ⟨kept', ran⟩
  have failed : m s = (.error fault, (m s).2) := Prod.ext ran rfl
  rw [run_bind, failed]
  exact ⟨kept', rfl⟩

end

section

variable {σ : Type} [Optimizable σ] {P : σ → Prop} {bounds : List (Float × Float)}
  {refusal : Nat → Float → Error} {point : List Float} {coordinate : Nat} {lower upper value : Float}

theorem update_observed (point : List Float) (o : Observed σ) {result : Except Error Unit} {target : σ}
    (updated : Optimizable.update point o.target = (result, target)) :
    Optimizable.update point o = (result, { o with target, point }) := by
  change ((Optimizable.update point o.target).1,
    ({ o with target := (Optimizable.update point o.target).2, point } : Observed σ)) = _
  rw [updated]

variable (boxed : Boxed P bounds refusal)

include boxed

theorem succeeds_update (within : Within bounds point) :
    Succeeds P bounds (act (Optimizable.update point)) fun _ => True := by
  intro s kept
  rcases boxed.update kept.target within with ⟨target, updated, holds⟩
  simp only [act, update_observed point s.target updated]
  exact ⟨⟨holds, kept.record⟩, (), trivial, trivial⟩

/-- A point of the ranges is given a score. -/
theorem succeeds_score (within : Within bounds point) : Succeeds P bounds (score point) fun _ => True := by
  intro s kept
  rcases boxed.update kept.target within with ⟨target, updated, holds⟩
  rcases boxed.objective holds with ⟨holds', score, judged⟩
  rw [score_run, update_observed point s.target updated]
  refine ⟨⟨holds', ?_⟩, score, judged, trivial⟩
  exact List.forall_mem_append.mpr ⟨kept.record, List.forall_mem_singleton.mpr within⟩

variable (within : Within bounds point) (range : bounds[coordinate]? = some (lower, upper))

include within range

theorem fails_score (outside : ¬ Inside lower upper value) :
    Fails P bounds (score (point.set coordinate value)) (refusal coordinate value) := by
  intro s kept
  rcases boxed.refuse kept.target within range outside with ⟨target, refused, holds⟩
  rw [score_run, update_observed _ s.target refused]
  exact ⟨⟨holds, kept.record⟩, rfl⟩

end

end Climb

/-- All four points of a bracket are in a range. -/
structure Bracket.InRange (low high : Float) (b : Bracket) : Prop where
  lower : Inside low high b.lower
  upper : Inside low high b.upper
  left : Inside low high b.left
  right : Inside low high b.right

theorem Bracket.InRange.best {low high : Float} {b : Bracket} (inRange : b.InRange low high) :
    Inside low high b.best.1 := by
  unfold Bracket.best
  split
  · exact inRange.left
  · exact inRange.right

theorem Within.improve {bounds : List (Float × Float)} {best : Climb.Position} (within : Within bounds best.point)
    {coordinate : Nat} {range : Float × Float} (here : bounds[coordinate]? = some range) {value found : Float}
    (inside : Inside range.1 range.2 value) :
    Within bounds (if best.score < found then ⟨best.point.set coordinate value, found⟩ else best).point := by
  split
  · exact within.set here inside
  · exact within

namespace Climb

section

variable {σ : Type} {P : σ → Prop} {bounds : List (Float × Float)} {point : List Float} {coordinate : Nat}
  {lower upper : Float}

/-- One step of a search leaves its bracket in the range, whichever probe is the worse. -/
theorem succeeds_narrow (bottom : lower.isFinite = true) (top : upper.isFinite = true)
    (width : (upper - lower).isFinite = true) {scoreAt : Float → Climb (Observed σ) Float}
    (scored : ∀ value, Inside lower upper value → Succeeds P bounds (scoreAt value) fun _ => True) (n : Nat)
    {b : Bracket} (inRange : b.InRange lower upper) :
    Succeeds P bounds (narrow scoreAt n b) (Bracket.InRange lower upper) := by
  induction n generalizing b with
  | zero => exact .pure inRange
  | succ n ih =>
    -- Rounding may let the probes cross, so that nothing is asked of their order.
    obtain ⟨low, high, left, right⟩ := inRange
    unfold narrow
    split
    · have probe := (inside_probes bottom top width low right).1
      exact (scored _ probe).bind fun _ _ => ih ⟨low, right, probe, left⟩
    · have probe := (inside_probes bottom top width left high).2
      exact (scored _ probe).bind fun _ _ => ih ⟨left, high, right, probe⟩

variable [Optimizable σ] {refusal : Nat → Float → Error} (boxed : Boxed P bounds refusal)

include boxed

section

variable (within : Within bounds point) (range : bounds[coordinate]? = some (lower, upper))

include within range

theorem succeeds_lineSearch (width : (upper - lower).isFinite = true) (steps : Nat) :
    Succeeds P bounds (lineSearch steps point coordinate lower upper) fun found => Inside lower upper found.1 := by
  obtain ⟨bottom, top, order⟩ := boxed.ranges _ (List.mem_of_getElem? range)
  have scored (value : Float) (inside : Inside lower upper value) :
      Succeeds P bounds (score (point.set coordinate value)) fun _ => True :=
    succeeds_score boxed (within.set range inside)
  have low : Inside lower upper lower := inside_lower bottom order
  have high : Inside lower upper upper := inside_upper top order
  obtain ⟨left, right⟩ := inside_probes bottom top width low high
  unfold lineSearch
  refine (scored _ left).bind fun leftScore _ => (scored _ right).bind fun rightScore _ => ?_
  have inRange : Bracket.InRange lower upper
      ⟨lower, upper, leftProbe lower upper, rightProbe lower upper, leftScore, rightScore⟩ :=
    ⟨low, high, left, right⟩
  exact (succeeds_narrow bottom top width scored steps inRange).bind fun _ found => .pure found.best

theorem fails_lineSearch (width : (upper - lower).isFinite = false) (steps : Nat) :
    Fails P bounds (lineSearch steps point coordinate lower upper)
      (refusal coordinate (leftProbe lower upper)) := by
  obtain ⟨bottom, top, order⟩ := boxed.ranges _ (List.mem_of_getElem? range)
  have infinite : number (leftProbe lower upper) = .infinity .negative :=
    number_leftProbe_of_wide bottom top order width
  refine (fails_score boxed within range ?_).bind
  rintro ⟨finite, -⟩
  change (number _).isFinite = true at finite
  rw [infinite] at finite
  cases finite

end

section

variable {best : Position} {swept rest : List (Float × Float)}

/-- Ranges of finite width are swept. -/
theorem succeeds_sweep (steps : Nat) (remaining : bounds.drop coordinate = swept ++ rest)
    (widths : ∀ range ∈ swept, (range.2 - range.1).isFinite = true) (within : Within bounds best.point) :
    Succeeds P bounds (sweep steps coordinate best swept) fun best => Within bounds best.point := by
  induction swept generalizing coordinate best with
  | nil => exact .pure within
  | cons range swept ih =>
    rcases range_of_drop remaining with ⟨here, later⟩
    rw [List.forall_mem_cons] at widths
    refine (succeeds_lineSearch boxed within here widths.1 steps).bind ?_
    rintro ⟨value, found⟩ inside
    exact ih later widths.2 (within.improve here inside)

/-- A sweep ends at the first range whose width overflows. -/
theorem fails_sweep (steps : Nat) (remaining : bounds.drop coordinate = swept ++ (lower, upper) :: rest)
    (widths : ∀ range ∈ swept, (range.2 - range.1).isFinite = true) (wide : (upper - lower).isFinite = false)
    (within : Within bounds best.point) :
    Fails P bounds (sweep steps coordinate best (swept ++ (lower, upper) :: rest))
      (refusal (coordinate + swept.length) (leftProbe lower upper)) := by
  induction swept generalizing coordinate best with
  | nil =>
    rcases range_of_drop remaining with ⟨here, later⟩
    exact (fails_lineSearch boxed within here wide steps).bind
  | cons range swept ih =>
    rcases range_of_drop remaining with ⟨here, later⟩
    rw [List.forall_mem_cons] at widths
    have count : coordinate + (range :: swept).length = coordinate + 1 + swept.length := by
      rw [List.length_cons]
      omega
    rw [count]
    refine (succeeds_lineSearch boxed within here widths.1 steps).bind_fails ?_
    rintro ⟨value, found⟩ inside
    exact ih later widths.2 (within.improve here inside)

end

section

variable (widths : ∀ range ∈ bounds, (range.2 - range.1).isFinite = true)

include widths

theorem succeeds_sweeps (tolerance : Float) (steps n made : Nat) {best : Position}
    (within : Within bounds best.point) :
    Succeeds P bounds (sweeps tolerance steps bounds n made best) fun reached => Within bounds reached.1.point := by
  induction n generalizing made best with
  | zero => exact .pure within
  | succ n ih =>
    unfold sweeps
    have all : bounds.drop 0 = bounds ++ [] := by rw [List.drop_zero, List.append_nil]
    refine (succeeds_sweep boxed steps all widths within).bind fun next inside => ?_
    split
    · exact .pure inside
    · exact ih _ inside

end

theorem fails_sweeps {before after : List (Float × Float)} (ranges : bounds = before ++ (lower, upper) :: after)
    (widths : ∀ range ∈ before, (range.2 - range.1).isFinite = true) (wide : (upper - lower).isFinite = false)
    (tolerance : Float) (steps n made : Nat) {best : Position} (within : Within bounds best.point) :
    Fails P bounds (sweeps tolerance steps bounds (n + 1) made best)
      (refusal before.length (leftProbe lower upper)) := by
  have all : bounds.drop 0 = before ++ (lower, upper) :: after := ranges
  have failed := fails_sweep boxed steps all widths wide within
  rw [Nat.zero_add, ← ranges] at failed
  exact failed.bind

end

section

variable {σ : Type} [Optimizable σ] {P : σ → Prop} {bounds : List (Float × Float)}
  {refusal : Nat → Float → Error} (boxed : Boxed P bounds refusal) (ascent : Ascent) {point : List Float} (within : Within bounds point)

include boxed within

theorem succeeds_climbFrom
    (widths : ascent.maxSweeps = 0 ∨ ∀ range ∈ bounds, (range.2 - range.1).isFinite = true) :
    Succeeds P bounds (climbFrom ascent point bounds) fun report => Within bounds report.values := by
  have swept (initial : Float) : Succeeds P bounds
      (sweeps ascent.tolerance ascent.lineSearchSteps bounds ascent.maxSweeps 0 ⟨point, initial⟩)
      fun reached => Within bounds reached.1.point := by
    rcases widths with none | widths
    · rw [none]
      exact .pure within
    · exact succeeds_sweeps boxed widths _ _ _ _ within
  unfold climbFrom
  refine (succeeds_score boxed within).bind fun initial _ => (swept initial).bind ?_
  rintro ⟨best, made⟩ inside
  exact (succeeds_update boxed inside).bind fun _ _ s kept => ⟨kept, _, rfl, inside⟩

theorem fails_climbFrom (some : ascent.maxSweeps ≠ 0) {before after : List (Float × Float)} {lower upper : Float}
    (ranges : bounds = before ++ (lower, upper) :: after)
    (widths : ∀ range ∈ before, (range.2 - range.1).isFinite = true) (wide : (upper - lower).isFinite = false) :
    Fails P bounds (climbFrom ascent point bounds) (refusal before.length (leftProbe lower upper)) := by
  obtain ⟨n, count⟩ := Nat.exists_eq_succ_of_ne_zero some
  unfold climbFrom
  rw [count]
  exact (succeeds_score boxed within).bind_fails fun initial _ =>
    (fails_sweeps boxed ranges widths wide _ _ _ _ within).bind

end

end Climb

open Climb

namespace Ascent

variable {σ : Type} [Optimizable σ] {P : σ → Prop} {refusal : Nat → Float → Error} {target : σ}
  (boxed : Boxed P (Optimizable.bounds target) refusal) (holds : P target)
  (within : Within (Optimizable.bounds target) (Optimizable.values target)) (ascent : Ascent)

theorem optimize_run (ascent : Ascent) (target : σ) :
    let run := climbFrom ascent (Optimizable.values target) (Optimizable.bounds target)
      ⟨({ target } : Observed σ), 0⟩
    ascent.optimize target = (run.1, run.2.target.target) ∧ ascent.record target = run.2.target.record := by
  rw [optimize_observed]
  exact ⟨rfl, rfl⟩

include boxed holds within

/-- A search over ranges of finite width succeeds. -/
theorem optimize_succeeds
    (widths : ascent.maxSweeps = 0 ∨ ∀ range ∈ Optimizable.bounds target, (range.2 - range.1).isFinite = true) :
    ∃ report final, ascent.optimize target = (.ok report, final) ∧ P final ∧
      Within (Optimizable.bounds target) report.values ∧
      ∀ e ∈ ascent.record target, Within (Optimizable.bounds target) e.point := by
  obtain ⟨kept, report, ran, inside⟩ := succeeds_climbFrom boxed ascent within widths (.start P _ holds)
  obtain ⟨run, record⟩ := optimize_run ascent target
  rw [run, record]
  exact ⟨report, _, Prod.ext ran rfl, kept.target, inside, kept.record⟩

/-- A search that makes a sweep is refused the first probe of the first range whose width overflows. -/
theorem optimize_fails (some : ascent.maxSweeps ≠ 0) {before after : List (Float × Float)} {lower upper : Float}
    (ranges : Optimizable.bounds target = before ++ (lower, upper) :: after)
    (widths : ∀ range ∈ before, (range.2 - range.1).isFinite = true) (wide : (upper - lower).isFinite = false) :
    ∃ final, ascent.optimize target = (.error (refusal before.length (leftProbe lower upper)), final) ∧ P final ∧
      ∀ e ∈ ascent.record target, Within (Optimizable.bounds target) e.point := by
  obtain ⟨kept, ran⟩ := fails_climbFrom boxed ascent within some ranges widths wide (.start P _ holds)
  obtain ⟨run, record⟩ := optimize_run ascent target
  rw [run, record]
  exact ⟨_, Prod.ext ran rfl, kept.target, kept.record⟩

end Ascent

end StochasticGrammar
