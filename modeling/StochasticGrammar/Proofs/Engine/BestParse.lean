import StochasticGrammar.Proofs.Engine.Consistent
import StochasticGrammar.Proofs.Grammar.Numbering
import StochasticGrammar.Proofs.Tree.BestChart

/-!
What the best parse of a list of tokens is, at the values that the rules have after any session.
-/

namespace StochasticGrammar

open Double

theorem bestParse?_bestOf {s : Sentence Float} (formed : s.rules.WellFormed)
    (bounded : ∀ rule, ¬ 1.0 < s.value rule) :
    s.BestOf 0 (s.tokens.size - 1) s.rules.start s.bestParse? := by
  unfold Sentence.bestParse?
  by_cases empty : s.tokens.isEmpty = true
  · rw [if_pos empty]
    intro tree usable
    have size : s.tokens.size = 0 := Array.isEmpty_iff_size_eq_zero.mp empty
    have span := usable.1.span.2
    omega
  · rw [if_neg empty]
    have size : s.tokens.size ≠ 0 := mt Array.isEmpty_iff_size_eq_zero.mpr empty
    exact bestChart_filled formed bounded 0 (s.tokens.size - 1) s.rules.start (Nat.zero_le _) (by omega)
      (by omega) formed.start

theorem bestParse?_isBest {s : Sentence Float} (formed : s.rules.WellFormed)
    (bounded : ∀ rule, ¬ 1.0 < s.value rule) :
    ((∃ best, s.bestParse? = some best) ↔
        ∃ tree, s.Usable tree 0 (s.tokens.size - 1) s.rules.start ∧ 0.0 < tree.weight s.value) ∧
      ∀ best, s.bestParse? = some best →
        s.Usable best.tree 0 (s.tokens.size - 1) s.rules.start ∧
          best.weight = best.tree.weight s.value ∧ 0.0 < best.weight ∧
          (∀ other, s.Usable other 0 (s.tokens.size - 1) s.rules.start →
            ¬ best.weight < other.weight s.value) ∧
          ∀ part ∈ best.tree.parts 0, ∃ stop nt, s.Chosen part.2 part.1 stop nt := by
  have isBest := bestParse?_bestOf formed bounded
  cases found : s.bestParse? with
  | none =>
    rw [found] at isBest
    refine ⟨⟨?_, ?_⟩, ?_⟩
    · intro found
      rcases found with ⟨best, some⟩
      cases some
    · intro derived
      rcases derived with ⟨tree, usable, positive⟩
      rw [pos_iff_level (fraction_weight bounded usable), isBest tree usable] at positive
      cases positive
    · intro best same
      cases same
  | some best =>
    rw [found] at isBest
    have weight := isBest.weight
    have fraction := fraction_weight bounded isBest.usable
    have positive : 0.0 < best.weight := by
      rw [weight, pos_iff_level fraction, ← weight]
      exact isBest.positive
    refine ⟨⟨?_, ?_⟩, ?_⟩
    · intro some
      exact ⟨best.tree, isBest.usable, weight ▸ positive⟩
    · intro some
      exact ⟨best, rfl⟩
    · intro other same
      cases same
      refine ⟨isBest.usable, weight, positive, ?_, isBest.chosen⟩
      intro other usable
      have atMost := isBest.greatest other usable
      rw [weight] at atMost ⊢
      rw [lt_iff_level fraction.1 (fraction_weight bounded usable).1]
      exact Nat.not_lt.mpr atMost

namespace Grammar

variable {g : Grammar} {tokens : Array Nat} {string : Nat}

theorem bestParse_eq : g.bestParse tokens string = match (g.sentence tokens).bestParse? with
    | some best => .ok best
    | none => .error (.noParse string) := rfl

theorem bestParse_eq_ok {best : Best Float} :
    g.bestParse tokens string = .ok best ↔ (g.sentence tokens).bestParse? = some best := by
  rw [bestParse_eq]
  cases (g.sentence tokens).bestParse? with
  | none => simp
  | some found => simp

theorem bestParse_eq_error {fault : Error} (failed : g.bestParse tokens string = .error fault) :
    fault = .noParse string := by
  rw [bestParse_eq] at failed
  split at failed
  · cases failed
  · cases failed
    rfl

end Grammar

namespace Engine

/-- A parse is found whenever a derivation weighs anything. It is of maximal weight, and at each of
its nodes the first rule is taken that leads there, and the first split. -/
theorem bestParse_is_best {d : Declarations} {g : Grammar} (built : d.grammar = .ok g)
    (session : List Request)
    (bounded : ∀ rule, ¬ 1.0 < ((ofGrammar g).after session).grammar.values.value rule)
    (tokens : Array Nat) (string : Nat) :
    let p := ((ofGrammar g).after session).grammar.sentence tokens
    let parse := ((ofGrammar g).after session).grammar.bestParse tokens string
    ((∃ best, parse = .ok best) ↔
        ∃ tree, p.Usable tree 0 (tokens.size - 1) p.rules.start ∧ 0.0 < tree.weight p.value) ∧
      (∀ fault, parse = .error fault → fault = .noParse string) ∧
      ∀ best, parse = .ok best →
        p.Usable best.tree 0 (tokens.size - 1) p.rules.start ∧
          best.weight = best.tree.weight p.value ∧ 0.0 < best.weight ∧
          (∀ other, p.Usable other 0 (tokens.size - 1) p.rules.start →
            ¬ best.weight < other.weight p.value) ∧
          ∀ part ∈ best.tree.parts 0, ∃ stop nt, p.Chosen part.2 part.1 stop nt := by
  have rules : ((ofGrammar g).after session).grammar.rules = g.rules :=
    ((consistent_ofGrammar built).after session).grammar.rules
  generalize ((ofGrammar g).after session).grammar = updated at *
  intro p parse
  have formed : p.rules.WellFormed := by
    have same : p.rules = g.rules := rules
    rw [same]
    exact Grammar.rules_wellFormed built
  have bounded' : ∀ rule, ¬ 1.0 < p.value rule := bounded
  obtain ⟨found, optimal⟩ := bestParse?_isBest formed bounded'
  have parsed : ∀ best, parse = .ok best ↔ p.bestParse? = some best := fun _ => Grammar.bestParse_eq_ok
  simp only [parsed]
  exact ⟨found, fun fault => Grammar.bestParse_eq_error, optimal⟩

/-- Two derivations of three tokens weigh the same here. -/
theorem sample_bestParse_is_best :
    let g := Declarations.sampleGrammar 0.25
    let p := ((ofGrammar g).after []).grammar.sentence #[0, 0, 1]
    (∀ rule, ¬ 1.0 < g.values.value rule) ∧
      ∃ best, ((ofGrammar g).after []).grammar.bestParse #[0, 0, 1] 0 = .ok best ∧
        p.Usable best.tree 0 2 0 ∧ best.weight = best.tree.weight p.value ∧
        ∀ part ∈ best.tree.parts 0, ∃ stop nt, p.Chosen part.2 part.1 stop nt := by
  intro g p
  have bounded : ∀ rule, ¬ 1.0 < g.values.value rule := by
    intro rule
    match rule with
    | 0 => decide +kernel
    | 1 => decide +kernel
    | 2 => decide +kernel
    | 3 => decide +kernel
    | rule + 4 =>
      change ¬ (1.0 : Float) < 0.0
      decide +kernel
  obtain ⟨found, -, optimal⟩ :=
    bestParse_is_best (Declarations.sample_grammar 0.25) [] bounded #[0, 0, 1] 0
  have tree : p.Usable (.node 3 (.node 2 (.leaf 0) (.leaf 0)) (.leaf 1)) 0 2 0 := by
    constructor
    · exact .node rfl (.node rfl (.leaf rfl rfl) (.leaf rfl rfl)) (.leaf rfl rfl)
    · decide +kernel
  obtain ⟨best, parsed⟩ := found.mpr ⟨_, tree, by decide +kernel⟩
  obtain ⟨usable, weight, -, -, chosen⟩ := optimal best parsed
  exact ⟨bounded, best, parsed, usable, weight, chosen⟩

end Engine

end StochasticGrammar
