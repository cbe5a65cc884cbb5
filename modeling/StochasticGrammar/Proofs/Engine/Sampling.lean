import StochasticGrammar.Proofs.Engine.Unread
import StochasticGrammar.Proofs.Grammar.Sampling
import StochasticGrammar.Random.Generator

/-!
Checking a grammar at random points. Whatever session went before, every point that is drawn is in the
declared bounds and every violation found there is reported, up to one defect: where the difference of
the bounds of a parameter overflows, drawing their lower end fails, and the whole call with it.
-/

namespace StochasticGrammar

namespace Engine

theorem coherent_after {g : Grammar} (coherent : g.parameters.Coherent) (session : List Request) :
    ((ofGrammar g).after session).grammar.parameters.Coherent := by
  apply keeps_after (P := fun e => e.grammar.parameters.Coherent) (fun _ _ _ holds => holds) _
    (fun _ holds => holds)
  · intro e strings holds
    unfold setCorpus
    split
    · exact holds
    · exact holds
  · exact coherent
  · intro e updates holds
    unfold setValues
    split
    · exact holds
    · rename_i grammar set
      exact holds.setValues (Grammar.setValues_parameters set).2

/-- What a session leaves of an accepted grammar can be sampled. -/
theorem sampleable_after {d : Declarations} {g : Grammar} (built : d.grammar = .ok g)
    {changes : List Parameters.Change} (registry : d.parameters = Parameters.empty.after changes)
    (session : List Request) : ((ofGrammar g).after session).grammar.Sampleable where
  evaluated := ((consistent_ofGrammar built).after session).grammar.evaluated
  coherent := by
    apply coherent_after
    rcases Declarations.grammar_eq_ok_iff.mp built with ⟨stages, passes, rfl⟩
    have parameters := (RuleValues.ofSources_eq_ok.mp passes.evaluated).1
    change stages.values.parameters.Coherent
    rw [parameters, registry]
    exact Parameters.Coherent.empty.after changes
  known := by
    intro id member
    rw [used_after] at member
    have inside := (Grammar.used_of_grammar built).2 id member
    have names := congrArg Array.size ((consistent_ofGrammar built).after session).grammar.names
    rw [Array.size_map, Array.size_map] at names
    exact ⟨_, Array.getElem?_eq_getElem (names ▸ inside)⟩

/-- The draws of a run are independent of what is found, and the call ends when they do. A value that is
drawn is in the bounds unless it is not a number, which is so for one kind of draw; without such draws the
report lists what an update to each point would be refused for. A number of samples is a machine word. -/
theorem samples_are_reported {d : Declarations} {g : Grammar} (built : d.grammar = .ok g)
    {changes : List Parameters.Change} (registry : d.parameters = Parameters.empty.after changes)
    (session : List Request) {σ : Type} [RandomSource σ] {samples : Nat} (small : samples < 2 ^ 64) (source : σ) :
    let h := ((ofGrammar g).after session).grammar
    h.parameters.declared = g.parameters.declared ∧
      (h.verifySamples samples source = none ↔ h.draws samples source = none) ∧
      ∀ run, h.draws samples source = some run →
        run.map (·.1) = List.range samples ∧
        (∀ sample ∈ run, sample.2.map (·.id) = g.used ∧ ∀ draw ∈ sample.2, draw.stratum < samples ∧
          ∃ p, h.parameters.get? draw.id = some p ∧ ((p.drawn samples draw).isNaN = true ↔ p.Escapes draw) ∧
            (¬ p.Escapes draw → Parameters.Allows p (p.drawn samples draw))) ∧
        ((∀ sample ∈ run, ∀ draw ∈ sample.2, ¬ h.Escapes draw) →
          (∀ sample ∈ run, ∃ next, h.setValues (h.point samples sample.2) = .ok next) ∧
            (h.verifySamples samples source).map (·.1) =
              some (.ok ⟨samples, run.filterMap fun sample => h.failure? sample.1 (h.point samples sample.2)⟩)) ∧
        ((∃ sample ∈ run, ∃ draw ∈ sample.2, h.Escapes draw) →
          ∃ sample ∈ run, ∃ draw ∈ sample.2, ∃ p, h.parameters.get? draw.id = some p ∧ p.Escapes draw ∧
            (h.verifySamples samples source).map (·.1) =
              some (.error (.parameter (.outOfBounds p.name (p.drawn samples draw) p.lower p.upper)))) ∧
        ((∀ id ∈ g.used, ∀ p, h.parameters.get? id = some p → (p.upper - p.lower).isFinite = true) →
          ∃ report, (h.verifySamples samples source).map (·.1) = some (.ok report)) := by
  intro h
  have sampleable : h.Sampleable := sampleable_after built registry session
  have used : h.used = g.used := used_after g session
  refine ⟨declared_after g session, h.verifySamples_eq_none_iff samples source, fun run drawn => ?_⟩
  obtain ⟨numbers, words⟩ := Grammar.draws_spec drawn
  obtain ⟨reported, stopped⟩ := sampleable.verifySamples_cases small drawn
  have found : ∀ sample ∈ run, ∀ draw ∈ sample.2, ∃ p, h.parameters.get? draw.id = some p := by
    intro sample member draw listed
    exact sampleable.known draw.id ((words sample member).1 ▸ List.mem_map_of_mem listed)
  refine ⟨numbers, fun sample member => ?_, reported, stopped, fun narrow => ?_⟩
  · refine ⟨(words sample member).1.trans used, fun draw listed => ?_⟩
    have inside := (words sample member).2 draw listed
    rcases found sample member draw listed with ⟨p, here⟩
    exact ⟨inside, p, here, sampleable.drawn_cases small here inside⟩
  · refine ⟨_, (reported fun sample member draw listed => ?_).2⟩
    rintro ⟨p, here, infinite, -⟩
    have listed : draw.id ∈ g.used := used ▸ (words sample member).1 ▸ List.mem_map_of_mem listed
    rw [narrow draw.id listed p here] at infinite
    cases infinite

/-- The bounds are finite, and their difference is not. -/
def wide : Parameters := ⟨#[⟨"p", 0.5, -1e308, 1e308⟩], 1⟩

theorem wide_grammar : (Declarations.letter wide).grammar = .ok (Declarations.letterGrammar wide 0.5) :=
  Declarations.lone_grammar 0.5 (-1e308) 1e308

theorem wide_registry : wide = Parameters.empty.after [.add "p" 0.5 (-1e308) 1e308] :=
  Parameters.after_add (by decide +kernel) (by decide +kernel)

/-- The lower end of the range, as it is drawn. -/
def wideEnd : Float := stratumValue (-1e308) 1e308 0 1 (RandomSource.unit 0)

theorem wide_checkPoint : (Declarations.letterGrammar wide 0.5).checkPoint 0 [(0, wideEnd)] =
    .error (.parameter (.outOfBounds "p" wideEnd (-1e308) 1e308)) := by
  have parameters : (Declarations.letterGrammar wide 0.5).parameters = wide := rfl
  have outside : Parameters.inBounds wideEnd (-1e308) 1e308 = false := by decide +kernel
  have fault : wide.fault? [(0, wideEnd)] = some (.outOfBounds "p" wideEnd (-1e308) 1e308) := by
    simp [Parameters.fault?, Parameters.get?, wide, outside]
  simp only [Grammar.checkPoint, parameters, Parameters.setValues, fault]

/-- One stratum is not shuffled. -/
theorem wide_strata (source : Generator) :
    Grammar.drawStrata 1 (Declarations.letterGrammar wide 0.5).used source = some ([(0, #[0])], source) := by
  have used : (Declarations.letterGrammar wide 0.5).used = [0] := Declarations.lone_used 0.5 (-1e308) 1e308
  rw [used]
  rfl

/-- The one sample is in the lowest stratum, and the fraction that is drawn is zero. -/
theorem wide_sample_rejected :
    (Declarations.letter wide).grammar = .ok (Declarations.letterGrammar wide 0.5) ∧
      wide = Parameters.empty.after [.add "p" 0.5 (-1e308) 1e308] ∧ wideEnd.isNaN = true ∧
        ((Declarations.letterGrammar wide 0.5).verifySamples 1 (Generator.words #[0] 0)).map (·.1) =
          some (.error (.parameter (.outOfBounds "p" wideEnd (-1e308) 1e308))) := by
  refine ⟨wide_grammar, wide_registry, by decide +kernel, ?_⟩
  have point : (Declarations.letterGrammar wide 0.5).drawPoint 1 0 [(0, #[0])] (Generator.words #[0] 0) =
      ([(0, wideEnd)], Generator.words #[0] 0) := rfl
  rw [Grammar.verifySamples_eq, wide_strata, Option.map_some]
  simp only [List.range_one, Grammar.checkSamples, point, wide_checkPoint]
  rfl

/-- With the next fraction the product is infinite and the upper end is drawn, which is no probability. -/
theorem wide_sample_reported : ∃ report,
    ((Declarations.letterGrammar wide 0.5).verifySamples 1 (Generator.words #[2048] 0)).map (·.1) =
        some (.ok report) ∧
      report.passed = false := by
  have drawn : (Declarations.letterGrammar wide 0.5).draws 1 (Generator.words #[2048] 0) =
      some [(0, [⟨0, 0, 2048⟩])] := by
    rw [Grammar.draws, wide_strata]
    rfl
  have stays : ∀ sample ∈ [(0, [(⟨0, 0, 2048⟩ : Draw)])], ∀ draw ∈ sample.2,
      ¬ (Declarations.letterGrammar wide 0.5).Escapes draw := by
    rintro _ (_ | ⟨_, ⟨⟩⟩) _ (_ | ⟨_, ⟨⟩⟩) ⟨p, -, -, -, none⟩
    exact absurd none (by decide)
  have start : ((ofGrammar (Declarations.letterGrammar wide 0.5)).after []).grammar =
      Declarations.letterGrammar wide 0.5 := rfl
  have small : 1 < 2 ^ 64 := by decide
  have reported := samples_are_reported wide_grammar wide_registry [] small (Generator.words #[2048] 0)
  simp only [start] at reported
  have answer := ((reported.2.2 _ drawn).2.2.1 stays).2
  exact ⟨_, answer, by decide +kernel⟩

end Engine

end StochasticGrammar
