import StochasticGrammar.Proofs.Chart.Locality
import StochasticGrammar.Proofs.Engine.PlainWeights

/-!
Answers about equal parts of texts. Whatever was asked before, an engine gives the same inside weight
for two spans with the same tokens, and the same outside weight for two spans with the same tokens
before and after them, as long as the values of the rules are the same.
-/

namespace StochasticGrammar

theorem getElem?_of_extract {xs ys : Array Nat} {a b a' b' : Nat} (inside : b ≤ xs.size) (inside' : b' ≤ ys.size)
    (same : xs.extract a b = ys.extract a' b') :
    b - a = b' - a' ∧ ∀ k < b - a, xs[a + k]? = ys[a' + k]? := by
  have size := congrArg Array.size same
  rw [Array.size_extract, Array.size_extract, Nat.min_eq_left inside, Nat.min_eq_left inside'] at size
  refine ⟨size, ?_⟩
  intro k less
  have item := congrArg (·[k]?) same
  simp only [Array.getElem?_extract, Nat.min_eq_left inside, Nat.min_eq_left inside'] at item
  rwa [if_pos less, if_pos (size ▸ less)] at item

namespace Sentence

variable {W : Type} {s : Sentence W} {text : Array Nat} {start stop start' stop' nt : Nat}

theorem alike_inside (holds : s.grid.Holds start stop nt) (holds' : (s.reading text).grid.Holds start' stop' nt)
    (same : s.tokens.extract start (stop + 1) = text.extract start' (stop' + 1)) :
    s.Alike text (.inside start stop nt) (.inside start' stop' nt) := by
  obtain ⟨order, inside, -⟩ := holds
  obtain ⟨order', inside', -⟩ := holds'
  obtain ⟨length, tokens⟩ := getElem?_of_extract inside inside' same
  refine .inside (stop - start) (by omega) (by omega) ?_
  intro k atMost
  exact tokens k (by omega)

theorem alike_outside (holds : s.grid.Holds start stop nt) (holds' : (s.reading text).grid.Holds start stop' nt)
    (before : s.tokens.extract 0 start = text.extract 0 start)
    (after : s.tokens.extract (stop + 1) = text.extract (stop' + 1)) :
    s.Alike text (.outside start stop nt) (.outside start stop' nt) := by
  obtain ⟨order, inside, -⟩ := holds
  obtain ⟨order', inside', -⟩ := holds'
  simp only [Sentence.grid, Sentence.reading] at inside inside'
  have front := (getElem?_of_extract (by omega) (by omega) before).2
  obtain ⟨rest, back⟩ := getElem?_of_extract (Nat.le_refl _) (Nat.le_refl _) after
  refine .outside order order' inside (by omega) ?_ ?_
  · intro i early
    simpa only [Nat.zero_add] using front i early
  · intro k
    by_cases less : k < s.tokens.size - (stop + 1)
    · exact back k less
    · rw [Array.getElem?_eq_none (by omega), Array.getElem?_eq_none (by omega)]

end Sentence

namespace Engine

/-- Two sessions with a grammar, or one of them twice, and two texts of their corpora. -/
theorem weights_are_local {d : Declarations} {g : Grammar} (built : d.grammar = .ok g)
    (session session' : List Request) {string string' : Nat} {s s' : CorpusString}
    (present : ((ofGrammar g).after session).corpus[string]? = some s)
    (present' : ((ofGrammar g).after session').corpus[string']? = some s')
    (values : ((ofGrammar g).after session).grammar.values.values =
      ((ofGrammar g).after session').grammar.values.values) :
    let e := (ofGrammar g).after session
    let e' := (ofGrammar g).after session'
    let grid (s : CorpusString) : SpanGrid := ⟨s.tokens.size, g.rules.nonTerminals⟩
    (∀ start stop start' stop' nt, (grid s).Holds start stop nt → (grid s').Holds start' stop' nt →
      s.tokens.extract start (stop + 1) = s'.tokens.extract start' (stop' + 1) →
        ∃ x, (e.inside start stop string nt).1 = .ok x ∧ (e'.inside start' stop' string' nt).1 = .ok x) ∧
      ∀ start stop stop' nt, (grid s).Holds start stop nt → (grid s').Holds start stop' nt →
        s.tokens.extract 0 start = s'.tokens.extract 0 start →
          s.tokens.extract (stop + 1) = s'.tokens.extract (stop' + 1) →
            ∃ x, (e.outside start stop string nt).1 = .ok x ∧
              (e'.outside start stop' string' nt).1 = .ok x := by
  intro e e' grid
  have consistent : Consistent g e := (consistent_ofGrammar built).after session
  have consistent' : Consistent g e' := (consistent_ofGrammar built).after session'
  have sentence : e'.grammar.sentence s'.tokens = (e.grammar.sentence s.tokens).reading s'.tokens :=
    sentence_congr (consistent'.grammar.rules.trans consistent.grammar.rules.symm)
      (consistent'.grammar.sources.trans consistent.grammar.sources.symm) values.symm s'.tokens
  have count : e.grammar.rules.nonTerminals = g.rules.nonTerminals :=
    congrArg RuleSet.nonTerminals consistent.grammar.rules
  have grid_eq (tokens : Array Nat) :
      ((e.grammar.sentence s.tokens).reading tokens).grid = ⟨tokens.size, g.rules.nonTerminals⟩ :=
    congrArg (SpanGrid.mk tokens.size) count
  constructor
  · intro start stop start' stop' nt holds holds' same
    have inside : (e.grammar.sentence s.tokens).grid.Holds start stop nt := (grid_eq s.tokens).symm ▸ holds
    have inside' : ((e.grammar.sentence s.tokens).reading s'.tokens).grid.Holds start' stop' nt :=
      (grid_eq s'.tokens).symm ▸ holds'
    have weight := settled_alike (Sentence.alike_inside inside inside' same)
    refine ⟨((e.grammar.sentence s.tokens).settled (.inside start stop nt)).1, ?_, ?_⟩
    · rw [consistent.inside_eq present, if_pos inside]
    · rw [consistent'.inside_eq present', sentence, if_pos inside', weight]
  · intro start stop stop' nt holds holds' before after
    have inside : (e.grammar.sentence s.tokens).grid.Holds start stop nt := (grid_eq s.tokens).symm ▸ holds
    have inside' : ((e.grammar.sentence s.tokens).reading s'.tokens).grid.Holds start stop' nt :=
      (grid_eq s'.tokens).symm ▸ holds'
    have weight := settled_alike (Sentence.alike_outside inside inside' before after)
    refine ⟨((e.grammar.sentence s.tokens).settled (.outside start stop nt)).1, ?_, ?_⟩
    · rw [consistent.outside_eq present, if_pos inside]
    · rw [consistent'.outside_eq present', sentence, if_pos inside', weight]

/-- The end of one text is the whole of another, and its front is longer. -/
theorem sample_weights_are_local :
    let e := (ofGrammar (Declarations.sampleGrammar 0.25)).after [.setCorpus ["aab", "ab"]]
    (∃ x, (e.inside 1 2 0 0).1 = .ok x ∧ (e.inside 0 1 1 0).1 = .ok x) ∧
      ∃ x, (e.outside 0 1 0 0).1 = .ok x ∧ (e.outside 0 0 1 0).1 = .ok x := by
  intro e
  have corpus : e.corpus = #[{ text := "aab", tokens := #[0, 0, 1] }, { text := "ab", tokens := #[0, 1] }] := by
    simp [e, Engine.after, answer, reply, setCorpus, readStrings, ofGrammar, sample_tokenize, sample_tokenize_short,
      bind, Except.bind, pure, Except.pure]
  have first : e.corpus[0]? = some { text := "aab", tokens := #[0, 0, 1] } := by
    rw [corpus]
    rfl
  have second : e.corpus[1]? = some { text := "ab", tokens := #[0, 1] } := by
    rw [corpus]
    rfl
  obtain ⟨inside, outside⟩ := weights_are_local (Declarations.sample_grammar 0.25)
    [.setCorpus ["aab", "ab"]] [.setCorpus ["aab", "ab"]] first second rfl
  exact ⟨inside 1 2 0 1 0 (by decide) (by decide) rfl, outside 0 1 0 0 (by decide) (by decide) rfl rfl⟩

end Engine

end StochasticGrammar
