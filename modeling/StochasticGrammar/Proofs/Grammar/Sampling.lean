import StochasticGrammar.Proofs.Double.Strata
import StochasticGrammar.Proofs.Grammar.Registry
import StochasticGrammar.Proofs.Random.Source

/-!
Samples of the parameters and what becomes of them. A run orders the strata of each parameter, and when
that has come to an end it draws a point for every sample, word by word, whatever it finds at the points
before it. It reports the points at which the rule values are not probabilities and stops at one that is
no point of the bounds; the only such points are those with a value that is not a number.
-/

namespace StochasticGrammar

/-- What is drawn for a parameter: a stratum of its range and a word for the place in the stratum. -/
structure Draw where
  id : Nat
  stratum : Nat
  word : UInt64
  deriving DecidableEq, Repr

namespace Parameter

def drawn (p : Parameter) (samples : Nat) (draw : Draw) : Float :=
  stratumValue p.lower p.upper draw.stratum samples (RandomSource.unit draw.word)

/-- The lower end of a range whose width overflows. -/
def Escapes (p : Parameter) (draw : Draw) : Prop :=
  (p.upper - p.lower).isFinite = false ∧ draw.stratum = 0 ∧ draw.word >>> 11 = 0

end Parameter

namespace Grammar

section

variable {σ : Type} [RandomSource σ]

/-- The draws for one sample, in the order of the parameters. -/
def drawWords (sample : Nat) : List (Nat × Array Nat) → σ → List Draw × σ
  | [], source => ([], source)
  | (id, order) :: rest, source =>
    let (word, source) := RandomSource.next64 source
    let (draws, source) := drawWords sample rest source
    (⟨id, order[sample]?.getD 0, word⟩ :: draws, source)

/-- The draws for some samples, one after the other. -/
def drawRun (strata : List (Nat × Array Nat)) : List Nat → σ → List (Nat × List Draw)
  | [], _ => []
  | sample :: rest, source =>
    let (draws, source) := drawWords sample strata source
    (sample, draws) :: drawRun strata rest source

/-- The draws for all samples, if the shuffles of the strata end. -/
def draws (g : Grammar) (samples : Nat) (source : σ) : Option (List (Nat × List Draw)) :=
  (drawStrata samples g.used source).map fun (strata, source) => drawRun strata (List.range samples) source

end

def point (g : Grammar) (samples : Nat) (draws : List Draw) : List (Nat × Float) :=
  draws.filterMap fun draw => (g.parameters.get? draw.id).map fun p => (draw.id, p.drawn samples draw)

/-- What is to be reported of a point: the grammar that an update to it makes is inconsistent. -/
def failure? (g : Grammar) (sample : Nat) (point : List (Nat × Float)) : Option SampleFailure :=
  match g.setValues point with
  | .error _ => none
  | .ok next =>
    let named := point.filterMap fun (id, value) => (g.parameters.get? id).map fun p => (p.name, value)
    (next.inconsistency? next.values.values).map fun inconsistency => ⟨sample, named, inconsistency⟩

def Escapes (g : Grammar) (draw : Draw) : Prop :=
  ∃ p, g.parameters.get? draw.id = some p ∧ p.Escapes draw

section

variable {σ : Type} [RandomSource σ] {g : Grammar} {samples : Nat}

theorem drawStrata_cons {id : Nat} {ids : List Nat} {strata : List (Nat × Array Nat)} {source last : σ}
    (drawn : drawStrata samples (id :: ids) source = some (strata, last)) : ∃ order middle rest,
      RandomSource.shuffle (Array.range samples) source = some (order, middle) ∧
        drawStrata samples ids middle = some (rest, last) ∧ strata = (id, order) :: rest := by
  obtain ⟨⟨order, middle⟩, shuffled, later⟩ := Option.bind_eq_some_iff.mp drawn
  obtain ⟨⟨rest, last'⟩, others, made⟩ := Option.bind_eq_some_iff.mp later
  cases made
  exact ⟨order, middle, rest, shuffled, others, rfl⟩

theorem drawStrata_spec {ids : List Nat} {strata : List (Nat × Array Nat)} {source last : σ}
    (drawn : drawStrata samples ids source = some (strata, last)) :
    strata.map (·.1) = ids ∧ ∀ s ∈ strata, s.2.Perm (Array.range samples) := by
  induction ids generalizing source strata with
  | nil =>
    cases drawn
    exact ⟨rfl, fun _ none => by cases none⟩
  | cons id ids ih =>
    obtain ⟨order, middle, rest, shuffled, others, rfl⟩ := drawStrata_cons drawn
    obtain ⟨listed, each⟩ := ih others
    exact ⟨congrArg (id :: ·) listed, List.forall_mem_cons.mpr ⟨RandomSource.shuffle_perm shuffled, each⟩⟩

/-- Without samples there is nothing to be shuffled. -/
theorem drawStrata_zero (ids : List Nat) (source : σ) :
    ∃ strata, drawStrata 0 ids source = some (strata, source) := by
  induction ids with
  | nil => exact ⟨[], rfl⟩
  | cons id ids ih =>
    obtain ⟨rest, others⟩ := ih
    refine ⟨(id, Array.range 0) :: rest, ?_⟩
    have shuffled : RandomSource.shuffle (Array.range 0) source = some (Array.range 0, source) := rfl
    rw [drawStrata, shuffled]
    simp [others]

theorem draws_eq_some_iff {source : σ} {run : List (Nat × List Draw)} :
    g.draws samples source = some run ↔
      ∃ strata middle, drawStrata samples g.used source = some (strata, middle) ∧
        drawRun strata (List.range samples) middle = run := by
  simp [draws]

theorem drawWords_ids (sample : Nat) (strata : List (Nat × Array Nat)) (source : σ) :
    (drawWords sample strata source).1.map (·.id) = strata.map (·.1) := by
  induction strata generalizing source with
  | nil => rfl
  | cons head rest ih => exact congrArg (head.1 :: ·) (ih _)

theorem stratum_lt {sample : Nat} {order : Array Nat} (perm : order.Perm (Array.range samples))
    (some : 0 < samples) : order[sample]?.getD 0 < samples := by
  cases found : order[sample]? with
  | none => exact some
  | some stratum =>
    have member := perm.mem_iff.mp (Array.mem_of_getElem? found)
    simpa using member

theorem drawWords_strata {sample : Nat} {strata : List (Nat × Array Nat)} (some : 0 < samples)
    (orders : ∀ s ∈ strata, s.2.Perm (Array.range samples)) (source : σ) :
    ∀ draw ∈ (drawWords sample strata source).1, draw.stratum < samples := by
  induction strata generalizing source with
  | nil => exact fun _ none => by cases none
  | cons head rest ih =>
    rw [List.forall_mem_cons] at orders
    exact List.forall_mem_cons.mpr ⟨stratum_lt orders.1 some, ih orders.2 _⟩

/-- Where all parameters are known, a point is what is drawn word by word. -/
theorem drawPoint_eq {strata : List (Nat × Array Nat)}
    (known : ∀ s ∈ strata, ∃ p, g.parameters.get? s.1 = some p) (samples sample : Nat) (source : σ) :
    g.drawPoint samples sample strata source =
      (g.point samples (drawWords sample strata source).1, (drawWords sample strata source).2) := by
  induction strata generalizing source with
  | nil => rfl
  | cons head rest ih =>
    rw [List.forall_mem_cons] at known
    rcases known with ⟨⟨p, found⟩, known⟩
    simp only [drawPoint, drawWords, found, RandomSource.nextUnit, ih known]
    simp only [point, List.filterMap_cons, found, Option.map_some, Parameter.drawn]

section

variable {strata : List (Nat × Array Nat)} (known : ∀ s ∈ strata, ∃ p, g.parameters.get? s.1 = some p)
  (failures : Array SampleFailure) (items : List Nat) (source : σ)

include known

/-- Where no point is rejected, a run reports what there is to report of each. -/
theorem checkSamples_ok {report : Nat × List Draw → Option SampleFailure}
    (each : ∀ sample ∈ drawRun strata items source,
      g.checkPoint sample.1 (g.point samples sample.2) = .ok (report sample)) :
    (g.checkSamples samples strata failures items source).1 =
      .ok (failures ++ ((drawRun strata items source).filterMap report).toArray) := by
  induction items generalizing failures source with
  | nil => simp [checkSamples, drawRun]
  | cons item rest ih =>
    rw [drawRun, List.forall_mem_cons] at each
    simp only [checkSamples, drawPoint_eq known, each.1]
    cases found : report (item, (drawWords item strata source).1) with
    | none =>
      rw [drawRun, List.filterMap_cons_none found]
      exact ih failures _ each.2
    | some failure =>
      rw [drawRun, List.filterMap_cons_some found]
      simp only [ih (failures.push failure) _ each.2]
      simp

/-- A run stops at the first point that is rejected. -/
theorem checkSamples_error (rejected : ∃ sample ∈ drawRun strata items source, ∃ fault,
      g.checkPoint sample.1 (g.point samples sample.2) = .error fault) :
    ∃ sample ∈ drawRun strata items source, ∃ fault,
      g.checkPoint sample.1 (g.point samples sample.2) = .error fault ∧
        (g.checkSamples samples strata failures items source).1 = .error fault := by
  induction items generalizing failures source with
  | nil =>
    rcases rejected with ⟨sample, none, -⟩
    cases none
  | cons item rest ih =>
    simp only [drawRun, List.exists_mem_cons_iff] at rejected ⊢
    simp only [checkSamples, drawPoint_eq known]
    cases here : g.checkPoint item (g.point samples (drawWords item strata source).1) with
    | error fault => exact .inl ⟨fault, rfl, rfl⟩
    | ok result =>
      have passed : ¬ ∃ fault, g.checkPoint item (g.point samples (drawWords item strata source).1) =
          .error fault := by simp [here]
      have later := rejected.resolve_left passed
      right
      cases result with
      | none => exact ih failures _ later
      | some failure => exact ih (failures.push failure) _ later

end

/-- A point is checked as an update to it would be. -/
theorem checkPoint_cases (evaluated : g.values.Evaluated) (sample : Nat) (point : List (Nat × Float)) :
    match g.parameters.setValues point with
    | .error fault => g.checkPoint sample point = .error (.parameter fault)
    | .ok _ => (∃ next, g.setValues point = .ok next) ∧
      g.checkPoint sample point = .ok (g.failure? sample point) := by
  cases updated : g.parameters.setValues point with
  | error fault => simp only [checkPoint, updated]
  | ok ps =>
    rcases evaluated.setValues updated with ⟨⟨ps, kept, values⟩, set, parameters, sources, reevaluated⟩
    simp only at parameters sources
    subst parameters sources
    have update : g.setValues point = .ok { g with values := ⟨ps, g.values.sources, values⟩ } := by
      simp only [Grammar.setValues, set]
    have now : evaluateAll g.values.sources ps = .ok values := reevaluated
    have named (id : Nat) (value : Float) : ((ps.get? id).map fun p => (p.name, value)) =
        (g.parameters.get? id).map fun p => (p.name, value) := by
      rw [Parameters.get?_setValues updated, Option.map_map]
      rfl
    refine ⟨⟨_, update⟩, ?_⟩
    simp only [checkPoint, failure?, update, updated, inconsistencyAt?, now, named]
    rfl

theorem drawRun_samples (strata : List (Nat × Array Nat)) (items : List Nat) (source : σ) :
    (drawRun strata items source).map (·.1) = items := by
  induction items generalizing source with
  | nil => rfl
  | cons item rest ih => exact congrArg (item :: ·) (ih _)

theorem mem_drawRun {strata : List (Nat × Array Nat)} {items : List Nat} {source : σ} {sample : Nat × List Draw}
    (member : sample ∈ drawRun strata items source) :
    sample.1 ∈ items ∧ ∃ source : σ, sample.2 = (drawWords sample.1 strata source).1 := by
  induction items generalizing source with
  | nil => cases member
  | cons item rest ih =>
    rcases List.mem_cons.mp member with rfl | later
    · exact ⟨List.mem_cons_self, source, rfl⟩
    · rcases ih later with ⟨listed, words⟩
      exact ⟨List.mem_cons_of_mem _ listed, words⟩

theorem verifySamples_eq (g : Grammar) (samples : Nat) (source : σ) :
    (g.verifySamples samples source).map (·.1) =
      (drawStrata samples g.used source).map fun (strata, middle) =>
        (g.checkSamples samples strata #[] (List.range samples) middle).1.map fun failures =>
          ⟨samples, failures.toList⟩ := by
  unfold verifySamples
  split
  · rename_i none
    subst none
    obtain ⟨strata, drawn⟩ := drawStrata_zero g.used source
    rw [drawn]
    rfl
  · cases drawStrata samples g.used source with
    | none => rfl
    | some drawn => rfl

/-- A run ends just when the shuffles of its strata do. -/
theorem verifySamples_eq_none_iff (g : Grammar) (samples : Nat) (source : σ) :
    g.verifySamples samples source = none ↔ g.draws samples source = none := by
  rw [← Option.map_eq_none_iff, verifySamples_eq, draws, Option.map_eq_none_iff, Option.map_eq_none_iff]

/-- Every sample draws every parameter that is used, each time from one of as many strata. -/
theorem draws_spec {source : σ} {run : List (Nat × List Draw)} (drawn : g.draws samples source = some run) :
    run.map (·.1) = List.range samples ∧ ∀ sample ∈ run,
      sample.2.map (·.id) = g.used ∧ ∀ draw ∈ sample.2, draw.stratum < samples := by
  obtain ⟨strata, middle, ordered, rfl⟩ := draws_eq_some_iff.mp drawn
  obtain ⟨ids, orders⟩ := drawStrata_spec ordered
  refine ⟨drawRun_samples _ _ _, fun sample member => ?_⟩
  rcases mem_drawRun member with ⟨inside, source', words⟩
  rw [words]
  have some : 0 < samples := Nat.zero_lt_of_lt (List.mem_range.mp inside)
  exact ⟨(drawWords_ids _ _ _).trans ids, drawWords_strata some orders source'⟩

end

theorem mem_point {g : Grammar} {samples : Nat} {draws : List Draw} {update : Nat × Float} :
    update ∈ g.point samples draws ↔
      ∃ draw ∈ draws, ∃ p, g.parameters.get? draw.id = some p ∧ (draw.id, p.drawn samples draw) = update := by
  simp only [point, List.mem_filterMap, Option.map_eq_some_iff]

/-- What sampling relies on. -/
structure Sampleable (g : Grammar) : Prop where
  evaluated : g.values.Evaluated
  coherent : g.parameters.Coherent
  known : ∀ id ∈ g.used, ∃ p, g.parameters.get? id = some p

namespace Sampleable

variable {σ : Type} [RandomSource σ] {g : Grammar} (sampleable : g.Sampleable) {samples : Nat}
  (small : samples < 2 ^ 64)

include sampleable small

/-- A drawn value is one that the parameter may take, or it is not a number. -/
theorem drawn_cases {draw : Draw} {p : Parameter} (found : g.parameters.get? draw.id = some p)
    (inside : draw.stratum < samples) : ((p.drawn samples draw).isNaN = true ↔ p.Escapes draw) ∧
      (¬ p.Escapes draw → Parameters.Allows p (p.drawn samples draw)) := by
  rcases sampleable.coherent.ordered found with ⟨left, right, order⟩
  exact ⟨Double.stratumValue_isNaN inside small draw.word left right order,
    Double.stratumValue_bounds inside small draw.word left right order⟩

variable {draws : List Draw} (words : ∀ draw ∈ draws, draw.id ∈ g.used ∧ draw.stratum < samples)

include words

/-- A point is accepted unless one of its values is not a number. -/
theorem setValues_point : (∃ next, g.parameters.setValues (g.point samples draws) = .ok next) ↔
    ∀ draw ∈ draws, ¬ g.Escapes draw := by
  rw [Parameters.setValues_isOk]
  constructor
  · rintro allowed draw member ⟨p, found, escapes⟩
    rcases allowed _ (mem_point.mpr ⟨draw, member, p, found, rfl⟩) with ⟨p', found', finite, -⟩
    have undefined := (sampleable.drawn_cases small found (words draw member).2).1.mpr escapes
    rw [Double.isNaN_of_isFinite finite] at undefined
    cases undefined
  · intro none update listed
    rcases mem_point.mp listed with ⟨draw, member, p, found, rfl⟩
    have stays : ¬ p.Escapes draw := fun escapes => none draw member ⟨p, found, escapes⟩
    exact ⟨p, found, (sampleable.drawn_cases small found (words draw member).2).2 stays⟩

theorem point_fault {fault : ParameterFault}
    (rejected : g.parameters.setValues (g.point samples draws) = .error fault) :
    ∃ draw ∈ draws, ∃ p, g.parameters.get? draw.id = some p ∧ p.Escapes draw ∧
      fault = .outOfBounds p.name (p.drawn samples draw) p.lower p.upper := by
  have first : g.parameters.fault? (g.point samples draws) = some fault := by
    unfold Parameters.setValues at rejected
    split at rejected
    · rename_i reason found
      cases rejected
      exact found
    · cases rejected
  rcases List.exists_of_findSome?_eq_some first with ⟨update, listed, reason⟩
  rcases mem_point.mp listed with ⟨draw, member, p, found, rfl⟩
  simp only [found] at reason
  split at reason
  · cases reason
  · rename_i outside
    cases reason
    refine ⟨draw, member, p, found, ?_, rfl⟩
    by_contra stays
    have allowed := (sampleable.drawn_cases small found (words draw member).2).2 stays
    exact outside (Parameters.inBounds_iff.mpr allowed)

/-- A point is reported if it has to be, or it is rejected for a value that is not a number. -/
theorem checkPoint_drawn (sample : Nat) :
    (∀ draw ∈ draws, ¬ g.Escapes draw) ∧ (∃ next, g.setValues (g.point samples draws) = .ok next) ∧
        g.checkPoint sample (g.point samples draws) = .ok (g.failure? sample (g.point samples draws)) ∨
      ∃ draw ∈ draws, ∃ p, g.parameters.get? draw.id = some p ∧ p.Escapes draw ∧
        g.checkPoint sample (g.point samples draws) =
          .error (.parameter (.outOfBounds p.name (p.drawn samples draw) p.lower p.upper)) := by
  have cases := checkPoint_cases sampleable.evaluated sample (g.point samples draws)
  cases updated : g.parameters.setValues (g.point samples draws) with
  | ok ps =>
    simp only [updated] at cases
    exact .inl ⟨(sampleable.setValues_point small words).mp ⟨ps, updated⟩, cases⟩
  | error reason =>
    simp only [updated] at cases
    rcases sampleable.point_fault small words updated with ⟨draw, member, p, found, escapes, rfl⟩
    exact .inr ⟨draw, member, p, found, escapes, cases⟩

omit words

/-- A run reports every point that has to be reported, or it ends with a value that is not a number. -/
theorem verifySamples_cases {source : σ} {run : List (Nat × List Draw)} (drawn : g.draws samples source = some run) :
    ((∀ sample ∈ run, ∀ draw ∈ sample.2, ¬ g.Escapes draw) →
        (∀ sample ∈ run, ∃ next, g.setValues (g.point samples sample.2) = .ok next) ∧
          (g.verifySamples samples source).map (·.1) =
            some (.ok ⟨samples, run.filterMap fun sample => g.failure? sample.1 (g.point samples sample.2)⟩)) ∧
      ((∃ sample ∈ run, ∃ draw ∈ sample.2, g.Escapes draw) →
        ∃ sample ∈ run, ∃ draw ∈ sample.2, ∃ p, g.parameters.get? draw.id = some p ∧ p.Escapes draw ∧
          (g.verifySamples samples source).map (·.1) =
            some (.error (.parameter (.outOfBounds p.name (p.drawn samples draw) p.lower p.upper)))) := by
  have words : ∀ sample ∈ run, ∀ draw ∈ sample.2, draw.id ∈ g.used ∧ draw.stratum < samples := by
    intro sample member draw listed
    rcases (draws_spec drawn).2 sample member with ⟨ids, inside⟩
    exact ⟨ids ▸ List.mem_map_of_mem listed, inside draw listed⟩
  obtain ⟨strata, middle, ordered, rfl⟩ := draws_eq_some_iff.mp drawn
  have known : ∀ s ∈ strata, ∃ p, g.parameters.get? s.1 = some p := by
    intro s member
    apply sampleable.known
    rw [← (drawStrata_spec ordered).1]
    exact List.mem_map_of_mem member
  have checked := fun sample member => sampleable.checkPoint_drawn small (words sample member) sample.1
  simp only [verifySamples_eq, ordered, Option.map_some]
  constructor
  · intro stays
    have each : ∀ sample ∈ drawRun strata (List.range samples) middle,
        (∃ next, g.setValues (g.point samples sample.2) = .ok next) ∧
        g.checkPoint sample.1 (g.point samples sample.2) =
          .ok (g.failure? sample.1 (g.point samples sample.2)) := by
      intro sample member
      rcases checked sample member with ⟨-, accepted⟩ | ⟨draw, listed, p, found, escapes, -⟩
      · exact accepted
      · exact absurd ⟨p, found, escapes⟩ (stays sample member draw listed)
    refine ⟨fun sample member => (each sample member).1, ?_⟩
    rw [checkSamples_ok known #[] _ _ fun sample member => (each sample member).2]
    simp only [Except.map, Array.empty_append]
  · rintro ⟨sample, member, draw, listed, escapes⟩
    have rejected : ∃ fault, g.checkPoint sample.1 (g.point samples sample.2) = .error fault := by
      rcases checked sample member with ⟨stays, -⟩ | ⟨draw, listed, p, found, escapes, failed⟩
      · exact absurd escapes (stays draw listed)
      · exact ⟨_, failed⟩
    -- It need not be the one at which the run stops.
    rcases checkSamples_error known #[] _ _ ⟨sample, member, rejected⟩ with
      ⟨first, member, fault, failed, run_eq⟩
    rcases checked first member with ⟨-, -, passed⟩ | ⟨draw, listed, p, found, escapes, reason⟩
    · rw [failed] at passed
      cases passed
    · rw [failed] at reason
      cases reason
      exact ⟨first, member, draw, listed, p, found, escapes, by rw [run_eq, Except.map]⟩

end Sampleable

end Grammar

end StochasticGrammar
