import StochasticGrammar.Proofs.Engine.BestParse
import StochasticGrammar.Proofs.Engine.Spawning
import StochasticGrammar.Proofs.Tree.Brackets
import StochasticGrammar.Proofs.Tree.Charted
import StochasticGrammar.Proofs.Tree.Masses

/-!
Which tree the text of a parse stands for. Parses are told apart by their texts but for literals that have
a quote in front and neither blanks nor brackets: these are shown as they are, and can be taken for the
beginning of a quoted literal.
-/

namespace StochasticGrammar

theorem Grammar.bracketed_congr {g other : Grammar} (rules : other.rules = g.rules)
    (alphabet : other.alphabet = g.alphabet) (tree : Derivation) : other.bracketed tree = g.bracketed tree := by
  induction tree with
  | leaf rule => simp only [bracketed, lhs, leafText, literal?, rules, alphabet]
  | node rule left right leftIh rightIh => simp only [bracketed, lhs, rules, leftIh, rightIh]

theorem Grammar.bestParse_rooted {g : Grammar} (formed : g.rules.WellFormed) {tokens : Array Nat} {string : Nat}
    {best : Best Float} (parsed : g.bestParse tokens string = .ok best) :
    g.rules.Rooted best.tree g.rules.start :=
  (bestParse?_derives formed (bestParse_eq_ok.mp parsed)).rooted

namespace Engine

/-- Parses with the same text are the same tree, unless a literal in one of them is shown as it is and
begins with a quote. The parses may be of any tokens, each after some session. -/
theorem bracketed_tells_parses {d : Declarations} {g : Grammar} (built : d.grammar = .ok g)
    (session session' : List Request) {tokens tokens' : Array Nat} {string string' : Nat} {first second : Best Float}
    (parsed : ((ofGrammar g).after session).grammar.bestParse tokens string = .ok first)
    (parsed' : ((ofGrammar g).after session').grammar.bestParse tokens' string' = .ok second)
    (legible : g.Legible first.tree) (legible' : g.Legible second.tree)
    (same : ((ofGrammar g).after session).grammar.bracketed first.tree =
      ((ofGrammar g).after session').grammar.bracketed second.tree) : first.tree = second.tree := by
  have formed : g.rules.WellFormed := Grammar.rules_wellFormed built
  have exact : g.alphabet.Exact := Grammar.holds_literals built
  have update (session : List Request) : g.UpdateOf ((ofGrammar g).after session).grammar :=
    ((consistent_ofGrammar built).after session).grammar
  have rooted {session : List Request} {tokens : Array Nat} {string : Nat} {best : Best Float}
      (parsed : ((ofGrammar g).after session).grammar.bestParse tokens string = .ok best) :
      g.rules.Rooted best.tree g.rules.start := by
    have rules := (update session).rules
    rw [← rules] at formed ⊢
    exact Grammar.bestParse_rooted formed parsed
  have texts : g.bracketed first.tree = g.bracketed second.tree := by
    rwa [Grammar.bracketed_congr (update session).rules (update session).alphabet,
      Grammar.bracketed_congr (update session').rules (update session').alphabet] at same
  have lists : (g.bracketed first.tree).toList ++ [] = (g.bracketed second.tree).toList ++ [] := by rw [texts]
  exact (Grammar.bracketed_unique formed exact (Grammar.terminals_eq built) (rooted parsed) (rooted parsed')
    legible legible' lists).1

/-- A word parsed before and after an update: the parses differ in weight and not in their texts. -/
theorem sample_parses_told :
    let e := ofGrammar (Declarations.sampleGrammar 0.25)
    let update : Request := .setValues [(0, 0.5)]
    ∃ first second, (e.after []).grammar.bestParse #[0, 0, 1] 0 = .ok first ∧
      (e.after [update]).grammar.bestParse #[0, 0, 1] 0 = .ok second ∧
      first.weight < second.weight ∧ first.tree = second.tree := by
  intro e update
  let g := Declarations.sampleGrammar 0.25
  have run : ((e.after []).grammar.bestParse #[0, 0, 1] 0 >>= fun first =>
      (e.after [update]).grammar.bestParse #[0, 0, 1] 0 >>= fun second =>
        .ok (decide (first.weight < second.weight ∧ g.Legible first.tree ∧ g.Legible second.tree ∧
          (e.after []).grammar.bracketed first.tree = (e.after [update]).grammar.bracketed second.tree))) =
      .ok true := by decide +kernel
  obtain ⟨first, parsed, run⟩ := bind_eq_ok.mp run
  obtain ⟨second, parsed', run⟩ := bind_eq_ok.mp run
  obtain ⟨less, legible, legible', same⟩ := of_decide_eq_true (Except.ok.inj run)
  exact ⟨first, second, parsed, parsed', less,
    bracketed_tells_parses (Declarations.sample_grammar 0.25) [] [update] parsed parsed' legible legible' same⟩

/-- Some of the literals have a quote in front or behind, and some have the structure of a text in them. -/
def quotes : Declarations where
  terminalRules := #[⟨1, "\"a", none⟩, ⟨1, "c", none⟩, ⟨1, "b\"", none⟩, ⟨1, "x)) (0 (1 z) (1 y", none⟩,
    ⟨1, "a) (1 c)) (0 (1 b", none⟩, ⟨1, "\"x", none⟩, ⟨1, "z", none⟩, ⟨1, "y\"", none⟩]
  binaryRules := #[⟨0, 1, 1, none⟩, ⟨0, 0, 0, none⟩]

/-- The parses of two lists of tokens, if there are such. -/
def quotes.parses (tokens tokens' : Array Nat) : Option (Grammar × Best Float × Best Float) :=
  match quotes.grammar with
  | .error _ => none
  | .ok g =>
    match g.bestParse tokens 0, g.bestParse tokens' 1 with
    | .ok first, .ok second => some (g, first, second)
    | _, _ => none

theorem quotes.parses_eq {tokens tokens' : Array Nat} {g : Grammar} {first second : Best Float}
    (found : quotes.parses tokens tokens' = some (g, first, second)) :
    quotes.grammar = .ok g ∧ g.bestParse tokens 0 = .ok first ∧ g.bestParse tokens' 1 = .ok second := by
  unfold quotes.parses at found
  split at found
  · cases found
  · rename_i built
    split at found
    · rename_i parsed parsed'
      cases found
      exact ⟨built, parsed, parsed'⟩
    · cases found

/-- The literals of either text stand in the literals of the other. -/
theorem quotes_same_text : ∃ g first second, quotes.grammar = .ok g ∧
    g.tokenize "\"acb\"x)) (0 (1 z) (1 y" = .ok #[0, 1, 2, 3] ∧
      g.tokenize "a) (1 c)) (0 (1 b\"xzy\"" = .ok #[4, 5, 6, 7] ∧
      g.bestParse #[0, 1, 2, 3] 0 = .ok first ∧ g.bestParse #[4, 5, 6, 7] 1 = .ok second ∧
      g.bracketed first.tree = g.bracketed second.tree ∧ first.tree ≠ second.tree := by
  have run : ((quotes.parses #[0, 1, 2, 3] #[4, 5, 6, 7]).any fun (g, first, second) =>
      decide (g.tokenize "\"acb\"x)) (0 (1 z) (1 y" = .ok #[0, 1, 2, 3] ∧
        g.tokenize "a) (1 c)) (0 (1 b\"xzy\"" = .ok #[4, 5, 6, 7] ∧
        g.bracketed first.tree = g.bracketed second.tree ∧ first.tree ≠ second.tree)) = true := by
    decide +kernel
  obtain ⟨⟨g, first, second⟩, found, checked⟩ := (Option.any_eq_true _ _).mp run
  obtain ⟨built, parsed, parsed'⟩ := quotes.parses_eq found
  obtain ⟨read, read', same, differ⟩ := of_decide_eq_true checked
  exact ⟨g, first, second, built, read, read', parsed, parsed', same, differ⟩

end Engine

end StochasticGrammar
