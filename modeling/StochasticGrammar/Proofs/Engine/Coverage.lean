import StochasticGrammar.Proofs.Engine.Sampling
import StochasticGrammar.Proofs.Grammar.Slices

/-!
What a report on samples stands for. The samples cover the range of every used parameter, one in each of as
many equal slices, and the report lists those at which the grammar would be refused.
-/

namespace StochasticGrammar

namespace Engine

/-- When samples are reported, the strata of each used parameter are taken in some order, one by each sample;
a value is drawn with the next word of the source after those of the shuffles, which stands for a fraction
of one, and is moved into the range; and without rounding there is one sample in each slice of the range.
The failures are listed once each, in the order of the samples, and are those of the points at which the
updated grammar is not verified. Nothing but the report and the source comes out of a run, and so the grammar
stays as it was. A number of samples is a machine word. -/
theorem samples_cover_slices {d : Declarations} {g : Grammar} (built : d.grammar = .ok g)
    {changes : List Parameters.Change} (registry : d.parameters = Parameters.empty.after changes)
    (session : List Request) {σ : Type} [RandomSource σ] {samples : Nat} (positive : 0 < samples)
    (small : samples < 2 ^ 64) {source last : σ} {report : SampleReport}
    (answer : ((ofGrammar g).after session).grammar.verifySamples samples source = some (.ok report, last)) :
    let h := ((ofGrammar g).after session).grammar
    ∃ run, h.draws samples source = some run ∧
      report.samples = samples ∧ run.map (·.1) = List.range samples ∧
      (∀ sample ∈ run, sample.2.map (·.id) = g.used ∧ (h.point samples sample.2).map (·.1) = g.used ∧
        ∀ draw ∈ sample.2, 0 ≤ Double.amount (RandomSource.unit draw.word) ∧
          Double.amount (RandomSource.unit draw.word) < 1 ∧ ∃ p, h.parameters.get? draw.id = some p ∧
            (draw.id, clamp (p.lower + (p.upper - p.lower) *
              ((draw.stratum.toFloat + RandomSource.unit draw.word) / samples.toFloat)) p.lower p.upper) ∈
                h.point samples sample.2) ∧
      (∃ strata middle, Grammar.drawStrata samples g.used source = some (strata, middle) ∧
        run.flatMap (·.2.map (·.word)) = (RandomSource.stream (samples * g.used.length) middle).1) ∧
      (∀ k id : Nat, g.used[k]? = some id → ∃ p, h.parameters.get? id = some p ∧
        ∃ (stratum : Nat → Nat) (word : Nat → UInt64),
          ((List.range samples).map stratum).Perm (List.range samples) ∧
            (∀ sample ∈ run, sample.2[k]? = some ⟨id, stratum sample.1, word sample.1⟩) ∧
            (∀ j < samples, ∃! i, i < samples ∧
              (Draw.mk id (stratum i) (word i)).fraction samples ∈
                Set.Ico ((j : ℚ) / samples) ((j + 1) / samples)) ∧
            (p.lower < p.upper → ∀ j < samples, ∃! i, i < samples ∧
              p.exactDrawn samples ⟨id, stratum i, word i⟩ ∈ p.slice samples j)) ∧
      (report.failures.map (·.sample)).Pairwise (· < ·) ∧
      (∀ sample ∈ run, ∃ next, h.setValues (h.point samples sample.2) = .ok next) ∧
      ∀ failure, failure ∈ report.failures ↔
        ∃ sample ∈ run, ∃ next, h.setValues (h.point samples sample.2) = .ok next ∧
          next.verify = .error failure.inconsistency.error ∧ failure.sample = sample.1 ∧
            failure.values = h.named samples sample.2 := by
  intro h
  have sampleable : h.Sampleable := sampleable_after built registry session
  have used : h.used = g.used := used_after g session
  obtain ⟨run, taken⟩ := Grammar.Sampleable.exists_draws answer
  obtain ⟨numbers, words⟩ := Grammar.draws_spec taken
  have found : ∀ sample ∈ run, ∀ draw ∈ sample.2, ∃ p, h.parameters.get? draw.id = some p := by
    intro sample member draw listed
    exact sampleable.known draw.id ((words sample member).1 ▸ List.mem_map_of_mem listed)
  have accepted := sampleable.report_eq small answer taken
  refine ⟨run, taken, congrArg SampleReport.samples accepted.2, numbers, ?points, ?stream, ?slices,
    sampleable.failures_increasing small answer taken, accepted.1, sampleable.mem_failures_iff small answer taken⟩
  case points =>
    intro sample member
    have ids : sample.2.map (·.id) = g.used := (words sample member).1.trans used
    refine ⟨ids, (Grammar.point_ids samples (found sample member)).trans ids, fun draw listed => ?_⟩
    have fraction := Double.amount_unit_bounds draw.word
    obtain ⟨p, here⟩ := found sample member draw listed
    exact ⟨fraction.1, fraction.2, p, here, Grammar.mem_point.mpr ⟨draw, listed, p, here, rfl⟩⟩
  case stream =>
    obtain ⟨strata, middle, ordered, rfl⟩ := Grammar.draws_eq_some_iff.mp taken
    have length := congrArg List.length (Grammar.drawStrata_spec ordered).1
    rw [List.length_map] at length
    rw [← used]
    refine ⟨strata, middle, ordered, ?_⟩
    rw [Grammar.drawRun_stream, List.length_range, length]
  case slices =>
    intro k id place
    rw [← used] at place
    obtain ⟨p, here⟩ := sampleable.known id (List.mem_of_getElem? place)
    obtain ⟨stratum, word, perm, drawn⟩ := Grammar.draws_cover taken place
    refine ⟨p, here, stratum, word, perm, drawn, fun j inside => ?_, fun proper j inside => ?_⟩
    · simp only [fraction_mem_iff positive]
      exact existsUnique_of_perm perm inside
    · obtain ⟨left, right, -⟩ := sampleable.coherent.ordered here
      have defined := Double.isNaN_of_isFinite left
      have defined' := Double.isNaN_of_isFinite right
      simp only [exactDrawn_mem_iff positive ((Double.amount_lt_iff defined defined').mpr proper)]
      exact existsUnique_of_perm perm inside

/-- The lower half of the range is too far from one. -/
def close : Parameters := ⟨#[⟨"p", 1, 0.999998, 1⟩], 1⟩

theorem close_grammar : (Declarations.letter close).grammar = .ok (Declarations.letterGrammar close 1) :=
  Declarations.lone_grammar 1 0.999998 1

theorem close_registry : close = Parameters.empty.after [.add "p" 1 0.999998 1] :=
  Parameters.after_add (by decide +kernel) (by decide +kernel)

/-- One word over and over: as an offset it is one half, and as an index zero, by its lower bits. -/
def closeWords : Generator := .words #[0x8000000000000000] 0

theorem close_strata :
    Grammar.drawStrata 2 (Declarations.letterGrammar close 1).used closeWords = some ([(0, #[1, 0])], closeWords) := by
  have used : (Declarations.letterGrammar close 1).used = [0] := Declarations.lone_used 1 0.999998 1
  have index : RandomSource.nextIndex 2 closeWords = some (0, closeWords) := by
    have low : (RandomSource.words32.next closeWords).1 * 2 % (1 <<< 32) ≤ RandomSource.zone 32 2 := by decide
    exact RandomSource.below_eq_some_iff.mpr (.accepted low)
  have shuffled : RandomSource.shuffle (Array.range 2) closeWords = some (#[1, 0], closeWords) := by
    change RandomSource.shuffleFirst 1 (Array.range 2) closeWords = _
    rw [RandomSource.shuffleFirst, index]
    rfl
  rw [used, Grammar.drawStrata, shuffled]
  rfl

/-- Of two samples the second one is drawn from the lower half. -/
theorem close_samples_covered : ∃ report last,
    (Declarations.letterGrammar close 1).verifySamples 2 closeWords = some (.ok report, last) ∧
      report.samples = 2 ∧ report.failures.map (·.sample) = [1] := by
  let g := Declarations.letterGrammar close 1
  have outcome : ((g.checkSamples 2 [(0, #[1, 0])] #[] (List.range 2) closeWords).1.toOption.map fun failures =>
      failures.toList.map (·.sample)) = some [1] := by decide +kernel
  obtain ⟨failures, passed, listed⟩ := Option.map_eq_some_iff.mp outcome
  have checked : (g.checkSamples 2 [(0, #[1, 0])] #[] (List.range 2) closeWords).1 = .ok failures := by
    cases result : (g.checkSamples 2 [(0, #[1, 0])] #[] (List.range 2) closeWords).1 with
    | error fault => simp [result, Except.toOption] at passed
    | ok failures' => simpa [result, Except.toOption] using passed
  have reported : (g.verifySamples 2 closeWords).map (·.1) = some (.ok ⟨2, failures.toList⟩) := by
    rw [Grammar.verifySamples_eq, close_strata, Option.map_some]
    simp only [checked, Except.map]
  obtain ⟨⟨_, last⟩, answer, rfl⟩ := Option.map_eq_some_iff.mp reported
  obtain ⟨-, -, covered, -⟩ := samples_cover_slices close_grammar close_registry [] (by decide) (by decide) answer
  exact ⟨_, last, answer, covered, listed⟩

end Engine

end StochasticGrammar
