import StochasticGrammar.Proofs.Ascent.Attained
import StochasticGrammar.Proofs.Engine.Objective
import StochasticGrammar.Proofs.Grammar.Points

/-!
Training an engine. The search moves the parameters of the formulas from point to point, so that the
objective is a matter of the point; the best point of the search is then where the engine is left.
-/

namespace StochasticGrammar

/-- The rules with the values that they have when the parameters of the formulas are at a point. -/
def Grammar.valuedAt (g : Grammar) (point : List Float) : Grammar :=
  let parameters : Parameters := ⟨Parameters.assign g.parameters.entries (g.used.zip point), 0⟩
  let values := (evaluateAll g.values.sources parameters).toOption.getD #[]
  { g with values := { g.values with values } }

namespace Engine

variable {g : Grammar} {e : Engine}

theorem used_after (g : Grammar) (session : List Request) :
    ((ofGrammar g).after session).grammar.used = g.used := by
  apply keeps_after (P := fun e => e.grammar.used = g.used) (fun _ _ _ same => same)
  · intro e updates same
    unfold setValues
    split
    · exact same
    · rename_i grammar set
      exact (Grammar.setValues_keeps set).1.trans same
  · exact fun _ same => same
  · intro e strings same
    unfold setCorpus
    split
    · exact same
    · exact same
  · rfl

theorem updateValues_eq_ok {t t' : Engine} {point : List Float}
    (updated : t.updateValues point = (.ok (), t')) :
    t.grammar.used.length = point.length ∧ t' = { t with grammar := t'.grammar } ∧
      t.grammar.setValues (t.grammar.used.zip point) = .ok t'.grammar := by
  simp only [updateValues] at updated
  split at updated
  · rename_i length
    unfold setValues at updated
    split at updated
    · cases updated
    · rename_i grammar set
      cases updated
      exact ⟨length, rfl, set⟩
  · cases updated

/-- An engine that differs from another in the values of the parameters of the formulas at most. -/
structure Moved (g : Grammar) (e t : Engine) : Prop where
  consistent : Consistent g t
  used : t.grammar.used = e.grammar.used
  texts : t.texts = e.texts
  differ : Parameters.Differ e.grammar.used e.grammar.parameters.entries t.grammar.parameters.entries

theorem Moved.refl (consistent : Consistent g e) : Moved g e e :=
  ⟨consistent, rfl, rfl, .refl _ _⟩

/-- The objective with the parameters of the formulas at a point. -/
def objectiveAt (e : Engine) (point : List Float) : Except Error Float :=
  (e.grammar.valuedAt point).objective e.texts

theorem Moved.weigh (t : Engine) (string : Nat) (cell : Cell) (moved : Moved g e t) :
    Moved g e (t.weigh string cell).2 where
  consistent := (moved.consistent.weigh string cell).1
  used := moved.used
  texts := (texts_weigh t string cell).trans moved.texts
  differ := moved.differ

/-- One step: the parameters are put to the point, wherever they were before. -/
theorem Moved.entries_update {t t' : Engine} {point : List Float} (moved : Moved g e t)
    (updated : t.updateValues point = (.ok (), t')) :
    e.grammar.used.length = point.length ∧ t'.grammar.used = e.grammar.used ∧
      t'.grammar.parameters.entries =
        Parameters.assign e.grammar.parameters.entries (e.grammar.used.zip point) := by
  rcases updateValues_eq_ok updated with ⟨length, -, set⟩
  rcases Grammar.setValues_keeps set with ⟨used, entries⟩
  rw [moved.used] at length used entries
  refine ⟨length, used, entries.trans (Parameters.Differ.assign_eq ?_).symm⟩
  rw [List.map_fst_zip (Nat.le_of_eq length)]
  exact moved.differ

theorem Moved.update {t t' : Engine} {point : List Float} (moved : Moved g e t)
    (updated : t.updateValues point = (.ok (), t')) : Moved g e t' := by
  rcases moved.entries_update updated with ⟨length, used, entries⟩
  rcases updateValues_eq_ok updated with ⟨-, made, set⟩
  have consistent := moved.consistent.setValues (t.grammar.used.zip point)
  simp only [setValues, set] at consistent
  rw [made]
  refine ⟨consistent, used, moved.texts, ?_⟩
  rw [entries]
  refine (Parameters.Differ.refl _ _).assign fun update member => ?_
  exact (List.of_mem_zip member).1

theorem Moved.compute_update (formed : g.rules.WellFormed) (consistent : Consistent g e) {t t' : Engine}
    {point : List Float} (moved : Moved g e t) (updated : t.updateValues point = (.ok (), t')) :
    t'.compute.1 = e.objectiveAt point := by
  rcases moved.entries_update updated with ⟨-, -, entries⟩
  have moved' := moved.update updated
  have update := moved'.consistent.grammar
  have sources := update.sources.trans consistent.grammar.sources.symm
  have values : t'.grammar.values.values = (e.grammar.valuedAt point).values.values := by
    have evaluated : evaluateAll t'.grammar.values.sources t'.grammar.parameters = .ok t'.grammar.values.values :=
      update.evaluated
    simp only [Grammar.valuedAt]
    rw [evaluateAll_congr entries.symm, ← sources, evaluated]
    rfl
  have same : t'.grammar.objective = (e.grammar.valuedAt point).objective :=
    Grammar.objective_congr (update.alphabet.trans consistent.grammar.alphabet.symm)
      (update.rules.trans consistent.grammar.rules.symm) sources values
  rw [moved'.consistent.compute_eq formed, moved'.texts, same, objectiveAt]

theorem steady (formed : g.rules.WellFormed) (consistent : Consistent g e) :
    Steady (Moved g e) e.objectiveAt where
  update moved updated := ⟨moved.update updated, moved.compute_update formed consistent updated⟩
  objective moved := keeps_compute Moved.weigh moved

theorem values_eq (t : Engine) :
    Optimizable.values t =
      t.grammar.used.filterMap fun id => t.grammar.parameters.entries[id]?.map (·.value) := by
  change (t.grammar.used.filterMap _).map _ = _
  rw [List.map_filterMap]
  congr 1
  funext id
  rw [Option.map_map]
  rfl

open Double Climb

/-- After a successful search in which no score was not a number, the engine is at a point where it was
evaluated, with the best score of the search; there the objective is what it was before. -/
theorem optimize_attains_best {d : Declarations} (built : d.grammar = .ok g) (session : List Request)
    {ascent : Ascent} {report : AscentReport} {final : Engine}
    (ran : ascent.optimize ((ofGrammar g).after session) = (.ok report, final))
    (numeric : ∀ ev ∈ ascent.record ((ofGrammar g).after session), ev.score.isNaN = false) :
    let e := (ofGrammar g).after session
    let record := ascent.record e
    record.length = report.evaluations ∧
      (∀ ev ∈ record, ev.Admitted ∧ ev.score ≤ report.final) ∧
      (∃ ev ∈ record, ev.point = Optimizable.values e ∧ ev.score = report.initial) ∧
      report.initial ≤ report.final ∧
      (∃ ev ∈ record, ev.point = report.values ∧ ev.score = report.final ∧ ev.outcome = final.compute.1) ∧
      (final.compute.1 = .ok report.final ∨ report.final = -1.0 / 0.0 ∧
        ∃ subject fault, final.compute.1 = .error (.probability subject fault)) ∧
      final.grammar.used = e.grammar.used ∧ Optimizable.values final = report.values ∧
      ∀ id, id ∉ e.grammar.used →
        final.grammar.parameters.get? id = e.grammar.parameters.get? id := by
  intro e record
  have formed := Grammar.rules_wellFormed built
  have consistent : Consistent g e := (consistent_ofGrammar built).after session
  have attains := Ascent.optimize_attains (steady formed consistent) (Moved.refl consistent) ran
  rcases attains with ⟨⟨last, moved, updated⟩, count, genuine, initial, attained⟩
  rcases attained numeric with ⟨⟨best, among, at_best, scored⟩, below⟩
  have again : best.outcome = final.compute.1 := by
    rw [(genuine best among).1, at_best]
    exact (moved.compute_update formed consistent updated).symm
  rcases moved.entries_update updated with ⟨length, used, entries⟩
  have atMost : ∀ ev ∈ record, ev.score ≤ report.final := by
    intro ev member
    have defined : report.final.isNaN = false := by
      have other := numeric best among
      rwa [scored] at other
    exact (le_iff_rank (numeric ev member) defined).mpr (below ev member)
  refine ⟨count, fun ev member => ⟨(genuine ev member).2, atMost ev member⟩, initial, ?_,
    ⟨best, among, at_best, scored, again⟩, ?_, used, ?_, ?_⟩
  · rcases initial with ⟨first, member, -, scored⟩
    rw [← scored]
    exact atMost first member
  · have admitted := (genuine best among).2
    rwa [Evaluation.Admitted, scored, again] at admitted
  · rcases Grammar.used_of_grammar built with ⟨distinct, known⟩
    have size : e.grammar.parameters.entries.size = g.parameters.entries.size := by
      simpa using congrArg Array.size consistent.grammar.names
    have same : e.grammar.used = g.used := used_after g session
    rw [values_eq, used, entries]
    refine Parameters.values_assign ?_ ?_ length
    · rwa [same]
    · rwa [same, size]
  · intro id other
    simp only [Parameters.get?, entries]
    apply Parameters.getElem?_assign_of_not_mem
    rwa [List.map_fst_zip (Nat.le_of_eq length)]

/-- One line search, from the only point at which the values are probabilities. -/
theorem sample_optimize_attains_best :
    let e := ofGrammar (Declarations.sampleGrammar 0.0)
    let ascent : Ascent := ⟨1, 1e-6, 1⟩
    ∃ report final, ascent.optimize e = (.ok report, final) ∧ report.evaluations = 4 ∧
      (∃ ev ∈ ascent.record e, ev.score < report.final) ∧ final.compute.1 = .ok report.final := by
  intro e ascent
  have run : (ascent.optimize e).1.toOption.any (fun report =>
      report.evaluations == 4 && decide (report.final = 0.0)) = true := by decide +kernel
  have numeric : (ascent.record e).all (fun ev => !ev.score.isNaN) = true := by decide +kernel
  have worse : (ascent.record e).any (fun ev => decide (ev.score < 0.0)) = true := by decide +kernel
  cases ran : ascent.optimize e with
  | mk outcome final =>
    rw [ran] at run
    cases outcome with
    | error fault => cases run
    | ok report =>
      have run : report.evaluations = 4 ∧ report.final = 0.0 := by simpa [Except.toOption] using run
      have numeric : ∀ ev ∈ ascent.record e, ev.score.isNaN = false := by simpa using numeric
      rcases optimize_attains_best (Declarations.sample_grammar 0.0) [] ran numeric with
        ⟨-, -, -, -, -, again, -⟩
      refine ⟨report, final, rfl, run.1, ?_, again.resolve_right ?_⟩
      · rcases List.any_eq_true.mp worse with ⟨ev, member, below⟩
        rw [run.2]
        exact ⟨ev, member, of_decide_eq_true below⟩
      · rintro ⟨rejected, -⟩
        rw [run.2] at rejected
        revert rejected
        decide +kernel

end Engine

end StochasticGrammar
