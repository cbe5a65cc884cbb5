import StochasticGrammar.Proofs.Engine.BestParse
import StochasticGrammar.Proofs.Engine.PlainWeights
import StochasticGrammar.Proofs.Tree.Support

/-!
When a string has a parse, and when it has a probability. Both are decided by products of doubles: a
string can have derivations and yet no parse, when each of their products falls below the least
positive double.
-/

namespace StochasticGrammar

open Double

theorem Lexicon.size_tokens {forest : Forest} {read result : Array Nat} {position : Nat}
    {input : List Char} (tokenized : tokens forest read position input = .ok result) :
    read.size ≤ result.size ∧ (input ≠ [] → read.size < result.size) := by
  fun_induction tokens forest read position input with
  | case1 read position input empty =>
    cases tokenized
    exact ⟨Nat.le_refl _, fun some => absurd (List.isEmpty_iff.mp empty) some⟩
  | case2 read position input some none => cases tokenized
  | case3 read position input some token found shorter ih =>
    have more := (ih tokenized).1
    rw [Array.size_push] at more
    exact ⟨by omega, fun _ => more⟩

theorem Grammar.tokens_pos {g : Grammar} {text : String} {tokens : Array Nat}
    (nonempty : text.isEmpty = false) (tokenized : g.tokenize text = .ok tokens) : 0 < tokens.size := by
  have some : text.toList ≠ [] := by
    intro empty
    rw [String.toList_eq_nil_iff] at empty
    subst empty
    cases nonempty
  unfold Grammar.tokenize Lexicon.tokenize at tokenized
  split at tokenized
  · rename_i read
    cases tokenized
    exact (Lexicon.size_tokens read).2 some
  · cases tokenized

/-- What comes of finite weights by finite weights is finite. -/
theorem settled_isFinite {s : Sentence Float} (formed : s.rules.WellFormed)
    (certain : ∀ rule, s.certain rule = true → Unsigned (s.value rule)) {cell : Cell}
    (within : s.Within cell) (tame : s.Tame cell) : (s.settled cell).1.isFinite = true := by
  have finite := tame_value cell tame
  rwa [watched_plain_value formed within, ← settled_eq_plain formed certain within tame] at finite

section

variable {s : Sentence Float} (fractions : ∀ rule, Fraction (s.value rule)) {start stop nt : Nat}
  {tree : Derivation}

include fractions

/-- A derivation that weighs anything makes its span weigh something, or its sums and products are out
of range. -/
theorem settled_pos_of_weight (formed : s.rules.WellFormed)
    (certain : ∀ rule, s.certain rule = true → Unsigned (s.value rule))
    (within : s.Within (.inside start stop nt)) (usable : s.Usable tree start stop nt)
    (weight : 0.0 < tree.weight s.value) :
    0.0 < (s.settled (.inside start stop nt)).1 ∨
      (s.settled (.inside start stop nt)).1.isNaN = true ∧ ¬ s.Tame (.inside start stop nt) := by
  have supports := settled_supports fractions formed within
  rcases supports.defined with nan | sign
  · refine .inr ⟨isNaN_iff.mpr nan, ?_⟩
    exact fun tame => not_isFinite_of_nan nan (settled_isFinite formed certain within tame)
  · have atLeast := supports.atLeast sign tree ((mem_derivations formed within.1).mpr usable.1)
    rw [pos_iff_height (Supports.fraction_tree fractions tree).height_eq.1] at weight
    exact .inl ((pos_iff_height sign).mpr (lt_of_lt_of_le weight atLeast))

/-- A derivation of a whole text weighs something when its values are not too small for its length. -/
theorem weight_pos_of_length {k length : Nat} (usable : s.Usable tree 0 (length - 1) nt)
    (some : 0 < length) (least : ∀ rule, 0.0 < s.value rule → AtLeastPower (s.value rule) k)
    (small : k * (2 * length - 1) ≤ 1074) : 0.0 < tree.weight s.value := by
  have rules := tree.length_rules
  have span : 0 + tree.width = length - 1 + 1 := usable.1.span.1
  have count : tree.rules.length = 2 * length - 1 := by omega
  rw [← count] at small
  exact (weight_pos fractions usable least small).pos (Supports.fraction_tree fractions tree) small

end

namespace Engine

variable {g : Grammar} {e : Engine}

theorem Consistent.stringProbability_eq (consistent : Consistent g e) {string : Nat} {s : CorpusString}
    (found : e.corpus[string]? = some s) (formed : e.grammar.rules.WellFormed) :
    (e.grammar.sentence s.tokens).grid.Holds 0 (s.tokens.size - 1) e.grammar.rules.start ∧
      (e.stringProbability string).1 =
        .ok ((e.grammar.sentence s.tokens).settled
          (.inside 0 (s.tokens.size - 1) e.grammar.rules.start)).1 := by
  have valid := consistent.corpus s (Array.mem_of_getElem? found)
  have some := Grammar.tokens_pos valid.nonempty valid.tokenized
  have holds : (e.grammar.sentence s.tokens).grid.Holds 0 (s.tokens.size - 1) e.grammar.rules.start :=
    ⟨Nat.zero_le _, Nat.sub_lt some Nat.one_pos, formed.start⟩
  refine ⟨holds, ?_⟩
  have length : e.length? string = .ok s.tokens.size := by simp only [length?, found]
  simp only [stringProbability, length]
  rw [consistent.inside_eq found, if_pos holds]

/-- A string has a parse just when a derivation weighs anything, as its product is rounded; it then
has a probability. A probability is never had without a derivation. As long as no product can fall
below the least positive double, all three come to the same. -/
theorem parse_iff_weighs {d : Declarations} (built : d.grammar = .ok g) (session : List Request)
    {string : Nat} {s : CorpusString} (present : ((ofGrammar g).after session).corpus[string]? = some s)
    (probabilities : ∀ rule, 0.0 ≤ ((ofGrammar g).after session).grammar.values.value rule ∧
      ((ofGrammar g).after session).grammar.values.value rule ≤ 1.0) :
    let e := (ofGrammar g).after session
    let p := e.grammar.sentence s.tokens
    let whole := Cell.inside 0 (s.tokens.size - 1) p.rules.start
    let parses := ∃ best, e.bestParse string = .ok best
    let derivable := ∃ tree, p.Usable tree 0 (s.tokens.size - 1) p.rules.start
    let weighs := ∃ tree, p.Usable tree 0 (s.tokens.size - 1) p.rules.start ∧ 0.0 < tree.weight p.value
    ∃ x, (e.stringProbability string).1 = .ok x ∧ (parses ↔ weighs) ∧
      (∀ fault, e.bestParse string = .error fault → fault = .noParse string) ∧
      (parses → 0.0 < x ∨ x.isNaN = true ∧ ¬ p.Tame whole) ∧ (0.0 < x → derivable) ∧
      ∀ k, (∀ rule, 0.0 < p.value rule → AtLeastPower (p.value rule) k) →
        k * (2 * s.tokens.size - 1) ≤ 1074 →
          (parses ↔ derivable) ∧ (derivable → 0.0 < x ∨ x.isNaN = true ∧ ¬ p.Tame whole) := by
  intro e p whole parses derivable weighs
  have consistent : Consistent g e := (consistent_ofGrammar built).after session
  have rules : p.rules = g.rules := consistent.grammar.rules
  have formed : p.rules.WellFormed := by
    rw [rules]
    exact Grammar.rules_wellFormed built
  have certain : ∀ rule, p.certain rule = true → Unsigned (p.value rule) := fun rule fixed =>
    RuleValues.unsigned_of_isCertain consistent.grammar.evaluated fixed
  have fractions : ∀ rule, Fraction (p.value rule) := fun rule =>
    fraction_of_le (probabilities rule).1 (probabilities rule).2
  have bounded : ∀ rule, ¬ 1.0 < p.value rule := fun rule => (fractions rule).not_lt
  obtain ⟨within, probability⟩ := consistent.stringProbability_eq present formed
  have within : p.Within whole := within
  have parsed : e.bestParse string = e.grammar.bestParse s.tokens string := by
    simp only [Engine.bestParse, e, present]
  have parses_iff : parses ↔ weighs := by
    have found := (bestParse?_isBest formed bounded).1
    simp only [parses, parsed, Grammar.bestParse_eq_ok]
    exact found
  have positive (some : weighs) : 0.0 < (p.settled whole).1 ∨
      (p.settled whole).1.isNaN = true ∧ ¬ p.Tame whole := by
    obtain ⟨tree, usable, weight⟩ := some
    exact settled_pos_of_weight fractions formed certain within usable weight
  refine ⟨_, probability, parses_iff, ?_, fun parse => positive (parses_iff.mp parse), ?_, ?_⟩
  · intro fault failed
    exact Grammar.bestParse_eq_error (parsed ▸ failed)
  · intro some
    obtain ⟨tree, among, rules⟩ := (settled_supports fractions formed within).positive some
    exact ⟨tree, (mem_derivations formed within.1).mp among, rules⟩
  · intro k least small
    have weighs_of (some : derivable) : weighs := by
      obtain ⟨tree, usable⟩ := some
      have length : s.tokens.size - 1 < s.tokens.size := usable.1.span.2
      exact ⟨tree, usable, weight_pos_of_length fractions usable (by omega) least small⟩
    refine ⟨⟨?_, fun some => parses_iff.mpr (weighs_of some)⟩, fun some => positive (weighs_of some)⟩
    intro parse
    obtain ⟨tree, usable, -⟩ := parses_iff.mp parse
    exact ⟨tree, usable⟩

theorem sample_within (value : Float) (probability : 0.0 ≤ value ∧ value ≤ 1.0) (rule : Nat) :
    0.0 ≤ (Declarations.sampleGrammar value).values.value rule ∧
      (Declarations.sampleGrammar value).values.value rule ≤ 1.0 := by
  have one : (0.0 : Float) ≤ 1.0 ∧ (1.0 : Float) ≤ 1.0 := by decide +kernel
  have zero : (0.0 : Float) ≤ 0.0 ∧ (0.0 : Float) ≤ 1.0 := by decide +kernel
  match rule with
  | 0 => exact probability
  | 1 => exact one
  | 2 => exact probability
  | 3 => exact one
  | rule + 4 => exact zero

theorem sample_usable (value : Float) (positive : 0.0 < value) :
    ((Declarations.sampleGrammar value).sentence #[0, 0, 1]).Usable
      (.node 3 (.node 2 (.leaf 0) (.leaf 0)) (.leaf 1)) 0 2 0 := by
  constructor
  · exact .node rfl (.node rfl (.leaf rfl rfl) (.leaf rfl rfl)) (.leaf rfl rfl)
  · intro rule used
    have one : (0.0 : Float) < 1.0 := by decide +kernel
    simp only [Derivation.rules, List.mem_cons, List.mem_append, List.not_mem_nil, or_false] at used
    rcases used with rfl | (rfl | rfl | rfl) | rfl
    · exact one
    · exact positive
    · exact positive
    · exact positive
    · exact one

/-- No value is below a quarter, and no tree has more than five rules. -/
theorem sample_parse_iff_weighs :
    let g := Declarations.sampleGrammar 0.25
    let e := (ofGrammar g).after [.setCorpus ["aab"]]
    (∃ best, e.bestParse 0 = .ok best) ∧ ∃ x, (e.stringProbability 0).1 = .ok x ∧ 0.0 < x := by
  intro g e
  have present : e.corpus[0]? = some { text := "aab", tokens := #[0, 0, 1] } := by
    simp only [e, g, sample_reads]
    rfl
  have same : e.grammar = g := by simp only [e, g, sample_reads]
  have probabilities : ∀ rule, 0.0 ≤ e.grammar.values.value rule ∧ e.grammar.values.value rule ≤ 1.0 := by
    rw [same]
    exact sample_within 0.25 (by decide +kernel)
  obtain ⟨x, probability, -, -, -, -, safe⟩ :=
    parse_iff_weighs (Declarations.sample_grammar 0.25) [.setCorpus ["aab"]] present probabilities
  have least : ∀ rule, 0.0 < (e.grammar.sentence #[0, 0, 1]).value rule →
      AtLeastPower ((e.grammar.sentence #[0, 0, 1]).value rule) 2 := by
    intro rule some
    rw [same] at some ⊢
    match rule with
    | 0 => decide +kernel
    | 1 => decide +kernel
    | 2 => decide +kernel
    | 3 => decide +kernel
    | rule + 4 =>
      have none : ¬ (0.0 : Float) < 0.0 := by decide +kernel
      exact absurd some none
  obtain ⟨parses, positive⟩ := safe 2 least (by decide)
  have derivable : ∃ tree, (e.grammar.sentence #[0, 0, 1]).Usable tree 0 2 e.grammar.rules.start := by
    rw [same]
    exact ⟨_, sample_usable 0.25 (by decide +kernel)⟩
  have tame : (e.grammar.sentence #[0, 0, 1]).Tame (.inside 0 2 e.grammar.rules.start) := by
    rw [same]
    decide +kernel
  exact ⟨parses.mpr derivable, x, probability, (positive derivable).resolve_right fun nan => nan.2 tame⟩

/-- Two derivations of which both products are lost. -/
theorem sample_underflow :
    let g := Declarations.sampleGrammar 1e-200
    let e := (ofGrammar g).after [.setCorpus ["aab"]]
    (∀ rule, 0.0 ≤ e.grammar.values.value rule ∧ e.grammar.values.value rule ≤ 1.0) ∧
      (∃ tree, (e.grammar.sentence #[0, 0, 1]).Usable tree 0 2 0) ∧
      e.bestParse 0 = .error (.noParse 0) ∧ (e.stringProbability 0).1 = .ok 0.0 := by
  intro g e
  have same : e.grammar = g := by simp only [e, g, sample_reads]
  have present : e.corpus[0]? = some { text := "aab", tokens := #[0, 0, 1] } := by
    simp only [e, g, sample_reads]
    rfl
  have consistent : Consistent g e :=
    (consistent_ofGrammar (Declarations.sample_grammar 1e-200)).after [.setCorpus ["aab"]]
  have formed : e.grammar.rules.WellFormed := by
    rw [same]
    exact Grammar.rules_wellFormed (Declarations.sample_grammar 1e-200)
  have none : (g.sentence #[0, 0, 1]).bestParse? = none :=
    Option.isNone_iff_eq_none.mp (by decide +kernel)
  refine ⟨?_, ?_, ?_, ?_⟩
  · rw [same]
    exact sample_within 1e-200 (by decide +kernel)
  · rw [same]
    exact ⟨_, sample_usable 1e-200 (by decide +kernel)⟩
  · have parsed : e.bestParse 0 = e.grammar.bestParse #[0, 0, 1] 0 := by
      simp only [Engine.bestParse, present]
    rw [parsed, same, Grammar.bestParse_eq, none]
  · rw [(consistent.stringProbability_eq present formed).2, same]
    have zero : ((g.sentence #[0, 0, 1]).settled (.inside 0 2 0)).1 = 0.0 := by decide +kernel
    exact congrArg _ zero

end Engine

end StochasticGrammar
