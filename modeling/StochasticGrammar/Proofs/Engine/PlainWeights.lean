import StochasticGrammar.Proofs.Chart.Pruned
import StochasticGrammar.Proofs.Engine.History
import StochasticGrammar.Proofs.Grammar.Numbering

/-!
What the answers of an engine stand for: the plain recursions over all rules and all splits at the
present values of the rules.
-/

namespace StochasticGrammar

theorem RuleValues.unsigned_of_isCertain {store : RuleValues} (evaluated : store.Evaluated) {rule : Nat}
    (certain : store.isCertain rule = true) : Unsigned (store.value rule) := by
  rw [RuleValues.value_of_isCertain evaluated certain]
  split
  · exact unsigned_one
  · exact unsigned_zero

namespace Engine

/-- No weight loses or gains a bit by what pruning leaves out, as long as nothing overflows. -/
theorem weights_are_plain {d : Declarations} {g : Grammar} (built : d.grammar = .ok g)
    (session : List Request) {string : Nat} {s : CorpusString}
    (present : ((ofGrammar g).after session).corpus[string]? = some s) {start stop nt : Nat}
    (holds : (⟨s.tokens.size, g.rules.nonTerminals⟩ : SpanGrid).Holds start stop nt) :
    let p := ((ofGrammar g).after session).grammar.sentence s.tokens
    (p.Tame (.inside start stop nt) →
        (((ofGrammar g).after session).inside start stop string nt).1 = .ok (p.plainInside start stop nt)) ∧
      (p.Tame (.outside start stop nt) →
        (((ofGrammar g).after session).outside start stop string nt).1 =
          .ok (p.plainOutside start stop nt)) := by
  intro p
  have consistent := (consistent_ofGrammar built).after session
  have rules : p.rules = g.rules := consistent.grammar.rules
  have formed : p.rules.WellFormed := by
    rw [rules]
    exact Grammar.rules_wellFormed built
  have within : p.grid.Holds start stop nt := by
    simp only [Sentence.grid, rules]
    exact holds
  have certain : ∀ rule, p.certain rule = true → Unsigned (p.value rule) := by
    intro rule fixed
    exact RuleValues.unsigned_of_isCertain consistent.grammar.evaluated fixed
  constructor
  · intro tame
    rw [consistent.inside_eq present, if_pos within]
    exact congrArg Except.ok (settled_eq_plain formed certain within tame)
  · intro tame
    rw [consistent.outside_eq present, if_pos within]
    exact congrArg Except.ok (settled_eq_plain formed certain within tame)

theorem sample_reads (value : Float) :
    (ofGrammar (Declarations.sampleGrammar value)).after [.setCorpus ["aab"]] =
      { grammar := Declarations.sampleGrammar value
        corpus := #[{ text := "aab", tokens := #[0, 0, 1] }] } := by
  simp only [Engine.after, List.foldl_cons, List.foldl_nil, answer, reply]
  rw [setCorpus_single (by decide) (sample_tokenize value)]

/-- All weights of a string of three tokens are finite. -/
theorem sample_weights_are_plain :
    let g := Declarations.sampleGrammar 0.25
    let e := (ofGrammar g).after [.setCorpus ["aab"]]
    let p := e.grammar.sentence #[0, 0, 1]
    (p.Tame (.inside 0 2 0) ∧ (e.inside 0 2 0 0).1 = .ok (p.plainInside 0 2 0)) ∧
      p.Tame (.outside 1 1 0) ∧ (e.outside 1 1 0 0).1 = .ok (p.plainOutside 1 1 0) := by
  intro g e p
  have present : e.corpus[0]? = some { text := "aab", tokens := #[0, 0, 1] } := by
    simp only [e, g, sample_reads]
    rfl
  have sentence : p = (Declarations.sampleGrammar 0.25).sentence #[0, 0, 1] := by
    simp only [p, e, g, sample_reads]
  have inside : p.Tame (.inside 0 2 0) := by
    rw [sentence]
    decide +kernel
  have outside : p.Tame (.outside 1 1 0) := by
    rw [sentence]
    decide +kernel
  have built := Declarations.sample_grammar 0.25
  exact ⟨⟨inside, (weights_are_plain built [.setCorpus ["aab"]] present (by decide)).1 inside⟩, outside,
    (weights_are_plain built [.setCorpus ["aab"]] present (by decide)).2 outside⟩

end Engine

end StochasticGrammar
