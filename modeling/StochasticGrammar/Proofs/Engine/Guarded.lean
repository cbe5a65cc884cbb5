import StochasticGrammar.Proofs.Engine.Failures
import StochasticGrammar.Proofs.Guarded.Rounds
import StochasticGrammar.Proofs.Guarded.Traceback

/-!
The queries of an engine with every read and every difference guarded, in any state that a session can
leave it in. They give what they give without guards, so that none of them goes beyond any end.
-/

namespace StochasticGrammar

theorem Grammar.ranged_of_update {d : Declarations} {g updated : Grammar} (built : d.grammar = .ok g)
    (update : g.UpdateOf updated) : updated.Ranged := by
  have sources : updated.values.sources.size = updated.rules.rules.size := by
    rw [update.sources, update.rules]
    exact sources_size built
  refine ⟨?_, sources, update.evaluated.values.1.trans sources⟩
  rw [update.rules]
  exact rules_wellFormed built

namespace Engine

def weigh? (rounds string : Nat) (cell : Cell) (e : Engine) : Option (Float × Engine) := do
  let s ← e.corpus[string]?
  let (answer, work) ← e.grammar.demand? s.tokens rounds ⟨s.tables.sync e.grammar.epoch, e.counters⟩ cell
  return (answer.1, ⟨e.grammar, e.corpus.setIfInBounds string { s with tables := work.tables }, work.counters⟩)

/-- The weight of a cell of a string, when the span is one of it. -/
def weight? (cell : Nat → Nat → Nat → Cell) (rounds start stop string nt : Nat) (e : Engine) :
    Option (Except Error Float × Engine) :=
  match e.checkSpan start stop string nt with
  | .error fault => some (.error fault, e)
  | .ok () => do
    let (value, e) ← e.weigh? rounds string (cell start stop nt)
    return (.ok value, e)

def stringProbability? (rounds string : Nat) (e : Engine) : Option (Except Error Float × Engine) :=
  match e.length? string with
  | .error fault => some (.error fault, e)
  | .ok length => do e.weight? .inside rounds 0 (← minus? length 1) string e.grammar.rules.start

variable {d : Declarations} {g : Grammar} {e : Engine}

section

variable (ranged : e.grammar.Ranged) (consistent : Consistent g e)

include ranged consistent

theorem weigh_eq {string : Nat} {s : CorpusString} (present : e.corpus[string]? = some s) (cell : Cell) :
    ∃ last, ∀ n, last ≤ n → e.weigh? n string cell = some (e.weigh string cell) := by
  have sound : (e.grammar.sentence s.tokens).Sound (Work.mk (s.tables.sync e.grammar.epoch) e.counters).tables :=
    (consistent.corpus s (Array.mem_of_getElem? present)).inDate.sound
  obtain ⟨last, answered⟩ := Grammar.demand_eq ranged sound cell
  refine ⟨last, ?_⟩
  intro n enough
  rw [weigh_of_found present, weigh?, present]
  simp only [Option.bind_eq_bind, Option.bind_some, answered n enough]
  rfl

theorem weight_eq {start stop string nt : Nat} {cell : Nat → Nat → Nat → Cell} {result : Except Error Float × Engine}
    (refused : ∀ fault, e.checkSpan start stop string nt = .error fault → result = (.error fault, e))
    (weighed : e.checkSpan start stop string nt = .ok () →
      result = (.ok (e.weigh string (cell start stop nt)).1, (e.weigh string (cell start stop nt)).2)) :
    ∃ last, ∀ n, last ≤ n → e.weight? cell n start stop string nt = some result := by
  cases span : e.checkSpan start stop string nt with
  | error fault =>
    refine ⟨0, fun n _ => ?_⟩
    rw [weight?, span, refused fault span]
  | ok done =>
    cases found : e.corpus[string]? with
    | none =>
      simp only [checkSpan, length?, found] at span
      cases span
    | some s =>
      obtain ⟨last, answered⟩ := weigh_eq ranged consistent found (cell start stop nt)
      refine ⟨last, fun n enough => ?_⟩
      simp only [weight?, span, answered n enough, Option.bind_eq_bind, Option.bind_some]
      rw [weighed span]
      rfl

theorem inside_eq (start stop string nt : Nat) :
    ∃ last, ∀ n, last ≤ n → e.weight? .inside n start stop string nt = some (e.inside start stop string nt) := by
  apply weight_eq ranged consistent
  · intro fault span
    simp only [inside, span]
  · intro span
    simp only [inside, span]

theorem outside_eq (start stop string nt : Nat) :
    ∃ last, ∀ n, last ≤ n → e.weight? .outside n start stop string nt = some (e.outside start stop string nt) := by
  apply weight_eq ranged consistent
  · intro fault span
    simp only [outside, span]
  · intro span
    simp only [outside, span]

/-- No string of a corpus is empty, so that its last token can be counted to. -/
theorem stringProbability_eq (string : Nat) :
    ∃ last, ∀ n, last ≤ n → e.stringProbability? n string = some (e.stringProbability string) := by
  cases found : e.corpus[string]? with
  | none =>
    refine ⟨0, fun n _ => ?_⟩
    simp only [stringProbability?, stringProbability, length?, found]
  | some s =>
    have nonempty : 1 ≤ s.tokens.size := consistent.tokens_pos (Array.mem_of_getElem? found)
    obtain ⟨last, answered⟩ := inside_eq ranged consistent 0 (s.tokens.size - 1) string e.grammar.rules.start
    refine ⟨last, fun n enough => ?_⟩
    simp only [stringProbability?, stringProbability, length?, found, minus_eq nonempty, Option.bind_eq_bind,
      Option.bind_some]
    exact answered n enough

end

/-- In any state that a session can leave an engine in, every read and every difference of a round is in
range, and so are those of the queries, for all their arguments. For any tokens whatever the parse stays
in range; every entry that another one names is in the chart, and the tree is read off it. The tokens of a
string and its tables are kept together, so that where the one is found the other is: a second index into a
corpus of its own would be the same index into an array of the same size. -/
theorem reads_in_range (built : d.grammar = .ok g) (session : List Request) :
    let e := (ofGrammar g).after session
    (∀ (string : Nat) s, e.corpus[string]? = some s → ∀ cell n,
      let p : Pass Float := ⟨⟨s.tables.sync e.grammar.epoch, e.counters⟩, [cell]⟩
      e.grammar.rounds? s.tokens n p = some ((e.grammar.sentence s.tokens).rounds n p)) ∧
    (∀ start stop string nt, ∃ last, ∀ n, last ≤ n →
      e.weight? .inside n start stop string nt = some (e.inside start stop string nt) ∧
      e.weight? .outside n start stop string nt = some (e.outside start stop string nt)) ∧
    (∀ string, ∃ last, ∀ n, last ≤ n → e.stringProbability? n string = some (e.stringProbability string)) ∧
    ∀ tokens : Array Nat,
      (∀ string, e.grammar.bestParse? tokens string = some (e.grammar.bestParse tokens string)) ∧
      (0 < tokens.size → ∃ chart, e.grammar.entryChart? tokens = some chart ∧
        ∀ start stop nt cell entry, start ≤ stop → stop < tokens.size → nt < e.grammar.rules.nonTerminals →
          chart.cell? start stop = some cell → cell[nt]? = some entry →
          ∀ rule m left right, entry.origin = .split rule m left right → start ≤ m ∧ m < stop ∧
            ∃ first second, chart.cell? start m = some first ∧ chart.cell? (m + 1) stop = some second ∧
              left ∈ first ∧ right ∈ second) := by
  intro e
  have consistent : Consistent g e := (consistent_ofGrammar built).after session
  have ranged : e.grammar.Ranged := Grammar.ranged_of_update built consistent.grammar
  refine ⟨?_, ?_, stringProbability_eq ranged consistent, ?_⟩
  · intro string s present cell n
    exact Grammar.rounds_eq ranged (consistent.corpus s (Array.mem_of_getElem? present)).inDate.sound n
  · intro start stop string nt
    obtain ⟨last, inside⟩ := inside_eq ranged consistent start stop string nt
    obtain ⟨last', outside⟩ := outside_eq ranged consistent start stop string nt
    exact ⟨max last last', fun n enough => ⟨inside n (by omega), outside n (by omega)⟩⟩
  · intro tokens
    refine ⟨bestParse_eq ranged, ?_⟩
    intro nonempty
    obtain ⟨chart, made, tracks⟩ := entryChart_tracks ranged nonempty
    refine ⟨chart, made, ?_⟩
    intro start stop nt cell entry order inside range there entered rule m left right origin
    exact tracks.named order inside range there entered origin

/-- A string of three tokens, and a parse of tokens that are not all in the alphabet. -/
theorem sample_reads_in_range :
    let e := (ofGrammar (Declarations.sampleGrammar 0.25)).after [.setCorpus ["aab"]]
    e.corpus[0]? = some { text := "aab", tokens := #[0, 0, 1] } ∧
      (∃ last, ∀ n, last ≤ n → e.weight? .outside n 2 2 0 1 = some (e.outside 2 2 0 1)) ∧
      (∃ last, ∀ n, last ≤ n → e.stringProbability? n 0 = some (e.stringProbability 0)) ∧
      e.grammar.bestParse? #[0, 7, 1] 0 = some (e.grammar.bestParse #[0, 7, 1] 0) := by
  intro e
  have present : e.corpus[0]? = some { text := "aab", tokens := #[0, 0, 1] } := by
    simp only [e, sample_reads]
    rfl
  obtain ⟨-, weights, probabilities, parses⟩ :=
    reads_in_range (Declarations.sample_grammar 0.25) [.setCorpus ["aab"]]
  obtain ⟨last, answered⟩ := weights 2 2 0 1
  exact ⟨present, ⟨last, fun n enough => (answered n enough).2⟩, probabilities 0, (parses #[0, 7, 1]).1 0⟩

end Engine

end StochasticGrammar
