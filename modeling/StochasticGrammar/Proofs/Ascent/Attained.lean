import StochasticGrammar.Proofs.Ascent.Observed
import StochasticGrammar.Proofs.Double.Order

/-!
The best point of a search is not lost. Each part of the search adds evaluations to the record and
returns a score that none of them exceeds, together with the point where it was found. This is so as
long as no score is not a number, for nothing can be told of such scores by comparison.
-/

namespace StochasticGrammar

open Double

/-- After an update the objective is a matter of the point alone, for targets of a kind. -/
structure Steady {σ : Type} [Optimizable σ] (P : σ → Prop) (value : List Float → Except Error Float) :
    Prop where
  update : ∀ {t t' : σ} {point}, P t → Optimizable.update point t = (.ok (), t') →
    P t' ∧ (Optimizable.objective t').1 = value point
  objective : ∀ {t : σ}, P t → P (Optimizable.objective t).2

namespace Climb

section

variable {σ α β : Type} {P : σ → Prop} {value : List Float → Except Error Float}

/-- One state comes of another by some evaluations. -/
structure Moves (P : σ → Prop) (value : List Float → Except Error Float) (s s' : Scored (Observed σ))
    (more : List Evaluation) : Prop where
  target : P s'.target.target
  record : s'.target.record = s.target.record ++ more
  evaluations : s'.evaluations = s.evaluations + more.length
  genuine : ∀ e ∈ more, e.outcome = value e.point ∧ e.Admitted

/-- A run that succeeds makes evaluations as described. -/
def Leads (P : σ → Prop) (value : List Float → Except Error Float) (m : Climb (Observed σ) α)
    (describes : List Evaluation → α → Prop) : Prop :=
  ∀ ⦃s s' : Scored (Observed σ)⦄ ⦃a : α⦄, P s.target.target → m s = (.ok a, s') →
    ∃ more, Moves P value s s' more ∧ describes more a

theorem Leads.pure (a : α) : Leads P value (pure a) fun more a' => more = [] ∧ a' = a := by
  intro s s' a' holds ran
  cases ran
  exact ⟨[], ⟨holds, by simp, by simp, by simp⟩, rfl, rfl⟩

theorem Leads.bind {m : Climb (Observed σ) α} {f : α → Climb (Observed σ) β}
    {describes : List Evaluation → α → Prop} {describes' : α → List Evaluation → β → Prop}
    (first : Leads P value m describes) (second : ∀ a, Leads P value (f a) (describes' a)) :
    Leads P value (m >>= f) fun more b =>
      ∃ a before after, more = before ++ after ∧ describes before a ∧ describes' a after b := by
  intro s s' b holds ran
  rcases bind_run_ok.mp ran with ⟨a, middle, ran, ran'⟩
  rcases first holds ran with ⟨before, moves, described⟩
  rcases second a moves.target ran' with ⟨after, moves', described'⟩
  refine ⟨before ++ after, ⟨moves'.target, ?_, ?_, ?_⟩, a, before, after, rfl, described, described'⟩
  · rw [moves'.record, moves.record, List.append_assoc]
  · rw [moves'.evaluations, moves.evaluations, List.length_append, Nat.add_assoc]
  · exact List.forall_mem_append.mpr ⟨moves.genuine, moves'.genuine⟩

theorem Leads.imp {m : Climb (Observed σ) α} {describes describes' : List Evaluation → α → Prop}
    (leads : Leads P value m describes) (implies : ∀ more a, describes more a → describes' more a) :
    Leads P value m describes' := by
  intro s s' a holds ran
  rcases leads holds ran with ⟨more, moves, described⟩
  exact ⟨more, moves, implies more a described⟩

theorem judged_eq_ok {point : List Float} {outcome : Except Error Float} {score : Float}
    (admitted : judged outcome = .ok score) :
    (Evaluation.mk point outcome).score = score ∧ (Evaluation.mk point outcome).Admitted := by
  cases outcome with
  | ok value =>
    cases admitted
    exact ⟨rfl, .inl rfl⟩
  | error fault =>
    cases fault with
    | probability subject fault =>
      cases admitted
      exact ⟨rfl, .inr ⟨rfl, subject, fault, rfl⟩⟩
    | _ => cases admitted

end

section

variable {σ : Type} [Optimizable σ] {P : σ → Prop} {value : List Float → Except Error Float}

theorem score_run (point : List Float) (s : Scored σ) :
    score point s = match Optimizable.update point s.target with
      | (.ok (), target) =>
        (judged (Optimizable.objective target).1, ⟨(Optimizable.objective target).2, s.evaluations + 1⟩)
      | (.error fault, target) => (.error fault, ⟨target, s.evaluations + 1⟩) := by
  unfold score
  rw [run_bind]
  change ((act (Optimizable.update point) >>= fun _ => act objectiveOrRejected) : Climb σ Float)
    ⟨s.target, s.evaluations + 1⟩ = _
  rw [run_bind]
  simp only [act]
  rcases Optimizable.update point s.target with ⟨result, target⟩
  cases result with
  | error fault => rfl
  | ok _ => simp only [objectiveOrRejected_eq]

/-- A score is one evaluation at the point. -/
theorem leads_score (steady : Steady P value) (point : List Float) :
    Leads P value (score point) fun more score =>
      ∃ e : Evaluation, more = [e] ∧ e.point = point ∧ e.score = score := by
  intro s s' score holds ran
  rw [score_run] at ran
  rcases s with ⟨⟨target, last, record⟩, evaluations⟩
  cases update : Optimizable.update point target with
  | mk result updated =>
    have updated_eq : Optimizable.update point (Observed.mk target last record) =
        (result, ⟨updated, point, record⟩) := by
      change ((Optimizable.update point target).1,
        (⟨(Optimizable.update point target).2, point, record⟩ : Observed σ)) = _
      rw [update]
    rw [updated_eq] at ran
    cases result with
    | error fault => cases ran
    | ok _ =>
      rcases steady.update holds update with ⟨holds', settled⟩
      rcases Prod.mk.inj ran with ⟨admitted, rfl⟩
      change judged (Optimizable.objective updated).1 = _ at admitted
      rcases judged_eq_ok admitted with ⟨scored, admissible⟩
      refine ⟨[⟨point, (Optimizable.objective updated).1⟩], ⟨steady.objective holds', rfl, rfl, ?_⟩,
        _, rfl, rfl, scored⟩
      intro e member
      rw [List.mem_singleton.mp member]
      exact ⟨settled, admissible⟩

end

section

variable {σ : Type} [Optimizable σ] {P : σ → Prop} {value : List Float → Except Error Float}
  {point : List Float} {coordinate : Nat} {seen more : List Evaluation}

def Numeric (record : List Evaluation) : Prop := ∀ e ∈ record, e.score.isNaN = false

/-- The score was had at the point. -/
def HadAt (seen : List Evaluation) (point : List Float) (score : Float) : Prop :=
  ∃ e ∈ seen, e.point = point ∧ e.score = score

/-- No score is above the bound. -/
def Below (seen : List Evaluation) (bound : Int) : Prop := ∀ e ∈ seen, rank e.score ≤ bound

theorem HadAt.append {score : Float} (had : HadAt seen point score) (more : List Evaluation) :
    HadAt (seen ++ more) point score :=
  had.imp fun _ both => ⟨List.mem_append_left _ both.1, both.2⟩

theorem HadAt.isNaN {score : Float} (had : HadAt seen point score) (numeric : Numeric seen) :
    score.isNaN = false := by
  rcases had with ⟨e, member, -, rfl⟩
  exact numeric e member

theorem Numeric.before (numeric : Numeric (seen ++ more)) : Numeric seen :=
  fun e member => numeric e (List.mem_append_left _ member)

theorem Below.append {bound : Int} (before : Below seen bound) (after : Below more bound) :
    Below (seen ++ more) bound :=
  List.forall_mem_append.mpr ⟨before, after⟩

theorem Below.mono {bound bound' : Int} (below : Below seen bound) (order : bound ≤ bound') :
    Below seen bound' :=
  fun e member => Int.le_trans (below e member) order

/-- With the further evaluations, what holds of one place in the search passes to the next. -/
def Carries {β : Type} (holds : List Evaluation → β → Prop) (b : β) (more : List Evaluation) (b' : β) :
    Prop :=
  ∀ seen, Numeric (seen ++ more) → holds seen b → holds (seen ++ more) b'

theorem Carries.refl {β : Type} {holds : List Evaluation → β → Prop} (b : β) : Carries holds b [] b := by
  intro seen numeric here
  rwa [List.append_nil]

theorem Carries.trans {β : Type} {holds : List Evaluation → β → Prop} {a b c : β}
    {before after : List Evaluation} (first : Carries holds a before b) (second : Carries holds b after c) :
    Carries holds a (before ++ after) c := by
  intro seen numeric here
  rw [← List.append_assoc] at numeric ⊢
  exact second _ numeric (first _ numeric.before here)

/-- Both probes have their scores, and the better one the best so far. -/
structure Bracketed (point : List Float) (coordinate : Nat) (seen : List Evaluation) (b : Bracket) :
    Prop where
  left : HadAt seen (point.set coordinate b.left) b.leftScore
  right : HadAt seen (point.set coordinate b.right) b.rightScore
  below : Below seen (max (rank b.leftScore) (rank b.rightScore))

/-- One step: of the two probes the better one is kept. -/
theorem Bracketed.narrow_left {b : Bracket} (bracketed : Bracketed point coordinate seen b)
    {left leftScore : Float} {e : Evaluation} (numeric : Numeric (seen ++ [e]))
    (at_left : e.point = point.set coordinate left) (scored : e.score = leftScore)
    (worse : b.rightScore < b.leftScore) :
    Bracketed point coordinate (seen ++ [e]) ⟨b.lower, b.right, left, b.left, leftScore, b.leftScore⟩ := by
  have defined := bracketed.left.isNaN numeric.before
  have defined' := bracketed.right.isNaN numeric.before
  rw [lt_iff_rank defined' defined] at worse
  refine ⟨⟨e, by simp, at_left, scored⟩, bracketed.left.append _, ?_⟩
  refine (bracketed.below.mono ?_).append ?_
  · simp only
    omega
  · intro e' member
    rw [List.mem_singleton.mp member, scored]
    exact le_max_left _ _

theorem Bracketed.narrow_right {b : Bracket} (bracketed : Bracketed point coordinate seen b)
    {right rightScore : Float} {e : Evaluation} (numeric : Numeric (seen ++ [e]))
    (at_right : e.point = point.set coordinate right) (scored : e.score = rightScore)
    (worse : ¬ b.rightScore < b.leftScore) :
    Bracketed point coordinate (seen ++ [e])
      ⟨b.left, b.upper, b.right, right, b.rightScore, rightScore⟩ := by
  have defined := bracketed.left.isNaN numeric.before
  have defined' := bracketed.right.isNaN numeric.before
  rw [lt_iff_rank defined' defined] at worse
  refine ⟨bracketed.right.append _, ⟨e, by simp, at_right, scored⟩, ?_⟩
  refine (bracketed.below.mono ?_).append ?_
  · simp only
    omega
  · intro e' member
    rw [List.mem_singleton.mp member, scored]
    exact le_max_right _ _

theorem leads_narrow (steady : Steady P value) (n : Nat) (b : Bracket) :
    Leads P value (narrow (fun x => score (point.set coordinate x)) n b)
      (Carries (Bracketed point coordinate) b) := by
  induction n generalizing b with
  | zero =>
    refine (Leads.pure b).imp ?_
    rintro more b' ⟨rfl, rfl⟩
    exact .refl _
  | succ n ih =>
    unfold narrow
    split
    · rename_i worse
      refine ((leads_score steady _).bind fun _ => ih _).imp ?_
      rintro more b' ⟨leftScore, before, after, rfl, ⟨e, rfl, at_left, scored⟩, later⟩
      exact .trans (fun _ numeric bracketed => bracketed.narrow_left numeric at_left scored worse) later
    · rename_i worse
      refine ((leads_score steady _).bind fun _ => ih _).imp ?_
      rintro more b' ⟨rightScore, before, after, rfl, ⟨e, rfl, at_right, scored⟩, later⟩
      exact .trans (fun _ numeric bracketed => bracketed.narrow_right numeric at_right scored worse) later

theorem Bracketed.best {b : Bracket} (bracketed : Bracketed point coordinate seen b)
    (numeric : Numeric seen) :
    HadAt seen (point.set coordinate b.best.1) b.best.2 ∧ Below seen (rank b.best.2) := by
  have order := lt_iff_rank (bracketed.right.isNaN numeric) (bracketed.left.isNaN numeric)
  unfold Bracket.best
  split
  · rename_i worse
    rw [order] at worse
    exact ⟨bracketed.left, bracketed.below.mono (by simp only; omega)⟩
  · rename_i worse
    rw [order] at worse
    exact ⟨bracketed.right, bracketed.below.mono (by simp only; omega)⟩

/-- A line search returns the best of its own evaluations. -/
theorem leads_lineSearch (steady : Steady P value) (steps : Nat) (lower upper : Float) :
    Leads P value (lineSearch steps point coordinate lower upper) fun more found =>
      Numeric more → HadAt more (point.set coordinate found.1) found.2 ∧ Below more (rank found.2) := by
  unfold lineSearch
  refine ((leads_score steady _).bind fun leftScore => (leads_score steady _).bind fun rightScore =>
    (leads_narrow steady steps _).bind fun b => Leads.pure _).imp ?_
  rintro more found ⟨leftScore, before, after, rfl, ⟨e, rfl, at_left, scored⟩, rightScore, before', after',
    rfl, ⟨e', rfl, at_right, scored'⟩, b, others, none, rfl, narrowed, rfl, rfl⟩ numeric
  rw [List.append_nil, ← List.append_assoc] at numeric ⊢
  refine (narrowed _ numeric ⟨?_, ?_, ?_⟩).best numeric
  · exact ⟨e, by simp, at_left, scored⟩
  · exact ⟨e', by simp, at_right, scored'⟩
  · intro other member
    rcases List.mem_append.mp member with member | member
    · rw [List.mem_singleton.mp member, scored]
      exact le_max_left _ _
    · rw [List.mem_singleton.mp member, scored']
      exact le_max_right _ _

/-- The position was evaluated, and nothing better was. -/
def Attained (seen : List Evaluation) (best : Position) : Prop :=
  HadAt seen best.point best.score ∧ Below seen (rank best.score)

/-- One step: a better score takes the place of the best one. -/
theorem Attained.improve {best : Position} (attained : Attained seen best)
    (numeric : Numeric (seen ++ more)) {x found : Float}
    (had : HadAt more (best.point.set coordinate x) found) (below : Below more (rank found)) :
    Attained (seen ++ more)
      (if best.score < found then ⟨best.point.set coordinate x, found⟩ else best) := by
  have defined := attained.1.isNaN numeric.before
  have defined' := had.isNaN fun e member => numeric e (List.mem_append_right _ member)
  split
  · rename_i better
    rw [lt_iff_rank defined defined'] at better
    have had' : HadAt (seen ++ more) (best.point.set coordinate x) found :=
      had.imp fun _ both => ⟨List.mem_append_right _ both.1, both.2⟩
    exact ⟨had', (attained.2.mono (Int.le_of_lt better)).append below⟩
  · rename_i worse
    rw [lt_iff_rank defined defined'] at worse
    exact ⟨attained.1.append _, attained.2.append (below.mono (by omega))⟩

theorem leads_sweep (steady : Steady P value) (steps coordinate : Nat) (best : Position)
    (bounds : List (Float × Float)) :
    Leads P value (sweep steps coordinate best bounds) (Carries Attained best) := by
  induction bounds generalizing coordinate best with
  | nil =>
    refine (Leads.pure best).imp ?_
    rintro more best' ⟨rfl, rfl⟩
    exact .refl _
  | cons interval rest ih =>
    refine ((leads_lineSearch steady steps _ _).bind fun found => ih _ _).imp ?_
    rintro more best' ⟨⟨x, found⟩, before, after, rfl, searched, later⟩
    refine .trans ?_ later
    intro seen numeric attained
    rcases searched fun e member => numeric e (List.mem_append_right _ member) with ⟨had, below⟩
    exact attained.improve numeric had below

theorem leads_sweeps (steady : Steady P value) (tolerance : Float) (steps : Nat)
    (bounds : List (Float × Float)) (n made : Nat) (best : Position) :
    Leads P value (sweeps tolerance steps bounds n made best) fun more reached =>
      Carries Attained best more reached.1 := by
  induction n generalizing made best with
  | zero =>
    refine (Leads.pure (best, made)).imp ?_
    rintro more reached ⟨rfl, rfl⟩
    exact .refl _
  | succ n ih =>
    have onwards (next : Position) : Leads P value
        (if settled tolerance best.score next.score then pure (next, made + 1)
          else sweeps tolerance steps bounds n (made + 1) next)
        fun more reached => Carries Attained next more reached.1 := by
      split
      · refine (Leads.pure (next, made + 1)).imp ?_
        rintro more reached ⟨rfl, rfl⟩
        exact .refl _
      · exact ih _ _
    refine ((leads_sweep steady steps 0 best bounds).bind onwards).imp ?_
    rintro more reached ⟨next, before, after, rfl, first, later⟩
    exact first.trans later

theorem attains_of_climbFrom (steady : Steady P value) {ascent : Ascent} {bounds : List (Float × Float)}
    {target : σ} {report : AscentReport} {s' : Scored (Observed σ)} (holds : P target)
    (ran : climbFrom ascent point bounds ⟨{ target }, 0⟩ = (.ok report, s')) :
    (∃ last, P last ∧ Optimizable.update report.values last = (.ok (), s'.target.target)) ∧
      s'.target.record.length = report.evaluations ∧
      (∀ e ∈ s'.target.record, e.outcome = value e.point ∧ e.Admitted) ∧
      HadAt s'.target.record point report.initial ∧
      (Numeric s'.target.record → Attained s'.target.record ⟨report.values, report.final⟩) := by
  rcases bind_run_ok.mp ran with ⟨initial, first, scored, ran⟩
  rcases bind_run_ok.mp ran with ⟨⟨best, made⟩, last, swept, ran⟩
  rcases bind_run_ok.mp ran with ⟨⟨⟩, final, update, ran⟩
  cases ran
  rcases leads_score steady point holds scored with ⟨-, moves, e, rfl, at_first, score⟩
  rcases leads_sweeps steady _ _ _ _ _ _ moves.target swept with ⟨more, moves', attained⟩
  have record : last.target.record = [e] ++ more := by
    rw [moves'.record, moves.record]
    rfl
  have count : last.evaluations = more.length + 1 := by
    rw [moves'.evaluations, moves.evaluations, List.length_singleton]
    exact Nat.add_comm 1 _
  have had : HadAt [e] point initial := ⟨e, List.mem_singleton_self e, at_first, score⟩
  rcases last with ⟨⟨target', last, record'⟩, evaluations⟩
  simp only at record count
  subst record
  cases updated : Optimizable.update best.point target' with
  | mk result target'' =>
    have update_eq : act (Optimizable.update best.point) (Scored.mk (Observed.mk target' last ([e] ++ more)) evaluations) =
        (result, ⟨⟨target'', best.point, [e] ++ more⟩, evaluations⟩) := by
      change ((Optimizable.update best.point target').1, (⟨⟨(Optimizable.update best.point target').2,
        best.point, [e] ++ more⟩, evaluations⟩ : Scored (Observed σ))) = _
      rw [updated]
    rw [update_eq] at update
    cases update
    refine ⟨⟨target', moves'.target, updated⟩, ?_, ?_, had.append more, ?_⟩
    · simp [count]
    · exact List.forall_mem_append.mpr ⟨moves.genuine, moves'.genuine⟩
    · intro numeric
      refine attained _ numeric ⟨had, ?_⟩
      intro e' member
      rw [List.mem_singleton.mp member, score]

end

end Climb

open Climb

/-- A search that succeeds leaves the target at a point where it was evaluated, with a score that no
other evaluation exceeds. -/
theorem Ascent.optimize_attains {σ : Type} [Optimizable σ] {P : σ → Prop}
    {value : List Float → Except Error Float} (steady : Steady P value) {ascent : Ascent} {target final : σ}
    {report : AscentReport} (holds : P target) (ran : ascent.optimize target = (.ok report, final)) :
    (∃ last, P last ∧ Optimizable.update report.values last = (.ok (), final)) ∧
      (ascent.record target).length = report.evaluations ∧
      (∀ e ∈ ascent.record target, e.outcome = value e.point ∧ e.Admitted) ∧
      HadAt (ascent.record target) (Optimizable.values target) report.initial ∧
      (Numeric (ascent.record target) →
        Attained (ascent.record target) ⟨report.values, report.final⟩) := by
  rw [optimize_observed] at ran
  unfold record
  cases result : climbFrom ascent (Optimizable.values target) (Optimizable.bounds target)
      ⟨({ target } : Observed σ), 0⟩ with
  | mk outcome s' =>
    have optimized : ascent.optimize ({ target } : Observed σ) = (outcome, s'.target) := by
      simp only [optimize, climb_eq]
      change ((climbFrom ascent (Optimizable.values target) (Optimizable.bounds target)
          ⟨({ target } : Observed σ), 0⟩).1,
        (climbFrom ascent (Optimizable.values target) (Optimizable.bounds target)
          ⟨({ target } : Observed σ), 0⟩).2.target) = _
      rw [result]
    rw [optimized] at ran ⊢
    cases ran
    exact attains_of_climbFrom steady holds result

end StochasticGrammar
