import StochasticGrammar.Proofs.Engine.Support
import StochasticGrammar.Proofs.Tree.Single

/-!
How much of the probability of a string its best parse has. It has at most all of it, and all of it to
the last bit when no other derivation can be used; the sums and products that are compared are those of
two charts that are filled in different orders.
-/

namespace StochasticGrammar

open Double

section

variable {s : Sentence Float} (fractions : ∀ rule, Fraction (s.value rule)) (formed : s.rules.WellFormed)
  (bounded : ∀ {start stop nt}, s.Within (.inside start stop nt) →
    (s.settled (.inside start stop nt)).1.isInf = false)
  (within : s.Within (.inside 0 (s.tokens.size - 1) s.rules.start)) {best : Best Float}

include fractions formed bounded within

/-- The best parse is among the derivations that the probability adds up. -/
theorem bestParse?_le (found : s.bestParse? = some best) :
    0.0 < best.weight ∧ best.weight ≤ (s.settled (.inside 0 (s.tokens.size - 1) s.rules.start)).1 := by
  have isBest := (bestParse?_isBest formed fun rule => (fractions rule).not_lt).2 best found
  rcases isBest with ⟨usable, weight, positive, -⟩
  have sign := (settled_resolves fractions formed bounded within).sign
  have among := (mem_derivations formed within.1).mpr usable.1
  have atLeast := (settled_supports fractions formed within).atLeast sign best.tree among
  refine ⟨positive, ?_⟩
  rwa [weight, le_iff_height (Supports.fraction_tree fractions best.tree).height_eq.1 sign]

variable (single : ∀ tree other, s.Usable tree 0 (s.tokens.size - 1) s.rules.start →
    s.Usable other 0 (s.tokens.size - 1) s.rules.start → tree = other)

include single

theorem bestParse?_of_single (found : s.bestParse? = some best) :
    best.weight = (s.settled (.inside 0 (s.tokens.size - 1) s.rules.start)).1 := by
  have isBest := (bestParse?_isBest formed fun rule => (fractions rule).not_lt).2 best found
  rcases isBest with ⟨usable, weight, -⟩
  rw [weight, (settled_single fractions formed bounded within single).1 best.tree usable]

theorem bestParse?_eq_none : s.bestParse? = none ↔
    ((s.settled (.inside 0 (s.tokens.size - 1) s.rules.start)).1 == 0.0) = true := by
  have sign := (settled_resolves fractions formed bounded within).sign
  rw [beq_zero_iff_not_pos sign]
  constructor
  · intro none positive
    have missing := mt (bestParse?_isBest formed fun rule => (fractions rule).not_lt).1.mpr (by simp [none])
    rcases settled_single fractions formed bounded within single with ⟨equal, nothing⟩
    by_cases some : ∃ tree, s.Usable tree 0 (s.tokens.size - 1) s.rules.start
    · rcases some with ⟨tree, usable⟩
      rw [equal tree usable] at positive
      exact missing ⟨tree, usable, positive⟩
    · have zero := nothing (not_exists.mp some)
      exact (beq_zero_iff_not_pos sign).mp zero positive
  · intro zero
    cases found : s.bestParse? with
    | none => rfl
    | some best =>
      have positive := (bestParse?_le fractions formed bounded within found).1
      rw [bestParse?_of_single fractions formed bounded within single found] at positive
      exact absurd positive zero

end

theorem Grammar.bestParse_isError {g : Grammar} {tokens : Array Nat} {string : Nat} :
    (∃ fault, g.bestParse tokens string = .error fault) ↔ (g.sentence tokens).bestParse? = none := by
  rw [Grammar.bestParse_eq]
  cases (g.sentence tokens).bestParse? with
  | none => simp
  | some best => simp

namespace Engine

variable {g : Grammar}

/-- The parse of a string weighs at most its probability, and just that when there is no second
derivation. -/
theorem parse_weighs_at_most {d : Declarations} (built : d.grammar = .ok g) (session : List Request)
    {string : Nat} {s : CorpusString} (present : ((ofGrammar g).after session).corpus[string]? = some s)
    (probabilities : ∀ rule, 0.0 ≤ ((ofGrammar g).after session).grammar.values.value rule ∧
      ((ofGrammar g).after session).grammar.values.value rule ≤ 1.0)
    (bounded : ∀ start stop nt x,
      (((ofGrammar g).after session).inside start stop string nt).1 = .ok x → x.isInf = false) :
    let e := (ofGrammar g).after session
    let p := e.grammar.sentence s.tokens
    let stop := s.tokens.size - 1
    let single := ∀ tree other, p.Usable tree 0 stop p.rules.start → p.Usable other 0 stop p.rules.start →
      tree = other
    ∃ x, (e.stringProbability string).1 = .ok x ∧
      (∀ best, e.bestParse string = .ok best → 0.0 < best.weight ∧ best.weight ≤ x) ∧
      ((∃! tree, p.Derives tree 0 stop p.rules.start) → single) ∧
      (single → (∀ best, e.bestParse string = .ok best → best.weight = x) ∧
        ((∃ fault, e.bestParse string = .error fault) ↔ (x == 0.0) = true)) := by
  intro e p stop single
  have consistent : Consistent g e := (consistent_ofGrammar built).after session
  have formed : p.rules.WellFormed := by
    have rules : p.rules = g.rules := consistent.grammar.rules
    rw [rules]
    exact Grammar.rules_wellFormed built
  have fractions : ∀ rule, Fraction (p.value rule) := fun rule =>
    fraction_of_le (probabilities rule).1 (probabilities rule).2
  have finite {start stop nt : Nat} (within : p.Within (.inside start stop nt)) :
      (p.settled (.inside start stop nt)).1.isInf = false := by
    have holds : p.grid.Holds start stop nt := within
    apply bounded start stop nt
    rw [consistent.inside_eq present, if_pos holds]
  obtain ⟨within, probability⟩ := consistent.stringProbability_eq present formed
  have parsed : e.bestParse string = e.grammar.bestParse s.tokens string := by
    simp only [Engine.bestParse, e, present]
  have found (best : Best Float) : e.bestParse string = .ok best ↔ p.bestParse? = some best := by
    rw [parsed]
    exact Grammar.bestParse_eq_ok
  refine ⟨_, probability, fun best parse => ?_, ?_, fun alone => ⟨fun best parse => ?_, ?_⟩⟩
  · exact bestParse?_le fractions formed finite within ((found best).mp parse)
  · rintro ⟨tree, -, unique⟩ first second usable usable'
    rw [unique first usable.1, unique second usable'.1]
  · exact bestParse?_of_single fractions formed finite within alone ((found best).mp parse)
  · rw [parsed, Grammar.bestParse_isError]
    exact bestParse?_eq_none fractions formed finite within alone

/-- Two rules above the tokens, of which the first is certain. -/
theorem sample_parse_weighs :
    let e := (ofGrammar (Declarations.sampleGrammar 0.25)).after [.setCorpus ["ab"]]
    ∃ best x, e.bestParse 0 = .ok best ∧ (e.stringProbability 0).1 = .ok x ∧
      0.0 < best.weight ∧ best.weight ≤ x ∧ best.weight = x := by
  intro e
  have loaded : e = ⟨Declarations.sampleGrammar 0.25, #[{ text := "ab", tokens := #[0, 1] }], {}⟩ := by
    simp only [e, Engine.after, List.foldl_cons, List.foldl_nil, answer, reply]
    rw [setCorpus_single (by decide) (sample_tokenize_short 0.25)]
  have present : e.corpus[0]? = some { text := "ab", tokens := #[0, 1] } := by
    rw [loaded]
    rfl
  have same : e.grammar = Declarations.sampleGrammar 0.25 := by rw [loaded]
  have probabilities : ∀ rule, 0.0 ≤ e.grammar.values.value rule ∧ e.grammar.values.value rule ≤ 1.0 := by
    rw [same]
    exact sample_within 0.25 (by decide +kernel)
  have consistent : Consistent (Declarations.sampleGrammar 0.25) e :=
    (consistent_ofGrammar (Declarations.sample_grammar 0.25)).after _
  have formed : (Declarations.sampleGrammar 0.25).rules.WellFormed :=
    Grammar.rules_wellFormed (Declarations.sample_grammar 0.25)
  have bounded : ∀ start stop nt x, (e.inside start stop 0 nt).1 = .ok x → x.isInf = false := by
    have each : ∀ start < 2, ∀ stop < 2, ∀ nt < 2,
        (((Declarations.sampleGrammar 0.25).sentence #[0, 1]).settled (.inside start stop nt)).1.isInf =
          false := by decide +kernel
    intro start stop nt x weighed
    rw [consistent.inside_eq present, same] at weighed
    split at weighed
    · rename_i holds
      cases weighed
      exact each start (Nat.lt_of_le_of_lt holds.1 holds.2.1) stop holds.2.1 nt holds.2.2
    · cases weighed
  have alone : ∃! tree, (e.grammar.sentence #[0, 1]).Derives tree 0 1 e.grammar.rules.start := by
    have only : ((Declarations.sampleGrammar 0.25).sentence #[0, 1]).derivations 0 1 0 =
        [.node 3 (.leaf 0) (.leaf 1)] := by decide +kernel
    have derives_iff (tree : Derivation) : tree = .node 3 (.leaf 0) (.leaf 1) ↔
        ((Declarations.sampleGrammar 0.25).sentence #[0, 1]).Derives tree 0 1 0 := by
      rw [← mem_derivations formed (Nat.zero_le 1), only, List.mem_singleton]
    rw [same]
    exact ⟨_, (derives_iff _).mp rfl, fun other derives => (derives_iff other).mpr derives⟩
  obtain ⟨x, probability, most, single, equal⟩ :=
    parse_weighs_at_most (Declarations.sample_grammar 0.25) [.setCorpus ["ab"]] present probabilities bounded
  have some : ((Declarations.sampleGrammar 0.25).sentence #[0, 1]).bestParse?.isSome = true := by
    decide +kernel
  obtain ⟨best, found⟩ := Option.isSome_iff_exists.mp some
  have parse : e.bestParse 0 = .ok best := by
    simp only [Engine.bestParse, present, same]
    exact Grammar.bestParse_eq_ok.mpr found
  obtain ⟨positive, least⟩ := most best parse
  exact ⟨best, x, parse, probability, positive, least, (equal (single alone)).1 best parse⟩

end Engine

end StochasticGrammar
