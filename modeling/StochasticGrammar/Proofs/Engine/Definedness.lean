import StochasticGrammar.Proofs.Chart.Bounds
import StochasticGrammar.Proofs.Double.Additions
import StochasticGrammar.Proofs.Engine.Objective

/-!
When the objective is a number. It is one unless some text has a negative probability, and no text has
one when no rule has a negative value. The check of the rule values is not enough for this: within its
tolerance it lets negative values pass.
-/

namespace StochasticGrammar

open Double

section

variable {x : Float}

/-- What is relied on of the logarithm: of a positive number it is a number, and not a large one. -/
def Logarithmic (x : Float) : Prop :=
  0.0 < x → x.isFinite = true → (Float.log x).isNaN = false ∧ Float.log x ≤ 1024.0

theorem naturalLog_of_lt (negative : x < 0.0) : (naturalLog x).isNaN = true := by
  rw [naturalLog, if_pos negative]
  decide +kernel

theorem naturalLog_of_not_lt (law : Logarithmic x) (finite : x.isFinite = true) (sign : ¬ x < 0.0) :
    (naturalLog x).isNaN = false ∧ rank (naturalLog x) ≤ (2 ^ 10 * unity : Nat) := by
  have defined := isNaN_of_isFinite finite
  have zero : (0.0 : Float).isNaN = false := by decide +kernel
  rw [naturalLog, if_neg sign]
  split
  · decide +kernel
  · rename_i other
    rw [lt_iff_rank defined zero] at sign
    rw [beq_iff_rank defined zero] at other
    have positive : 0.0 < x := (lt_iff_rank zero defined).mpr (by omega)
    rcases law positive finite with ⟨number, most⟩
    have bound : (1024.0 : Float).isNaN = false ∧ rank 1024.0 ≤ (2 ^ 10 * unity : Nat) := by decide +kernel
    rw [le_iff_rank number bound.1] at most
    exact ⟨number, Int.le_trans most bound.2⟩

end

namespace Grammar

variable {g : Grammar} {texts : List (Array Nat)} {v total : Float}

theorem foldl_addLog_isNaN (nan : total.isNaN = true) : (texts.foldl g.addLog total).isNaN = true := by
  induction texts generalizing total with
  | nil => exact nan
  | cons tokens texts ih => exact ih (isNaN_add (.inl nan))

/-- One text of negative probability is enough. -/
theorem foldl_addLog_of_negative (negative : ∃ tokens ∈ texts, g.textWeight tokens < 0.0) :
    (texts.foldl g.addLog total).isNaN = true := by
  induction texts generalizing total with
  | nil => exact absurd negative (by simp)
  | cons tokens texts ih =>
    rcases negative with ⟨other, member, below⟩
    rcases List.mem_cons.mp member with rfl | later
    · have nan : (g.addLog total other).isNaN = true := isNaN_add (.inr (naturalLog_of_lt below))
      rw [List.foldl_cons]
      exact foldl_addLog_isNaN nan
    · exact ih ⟨other, later, below⟩

theorem foldl_addLog_capped (capped : Capped total)
    (each : ∀ tokens ∈ texts, Logarithmic (g.textWeight tokens) ∧
      (g.textWeight tokens).isFinite = true ∧ ¬ g.textWeight tokens < 0.0) :
    Capped (texts.foldl g.addLog total) := by
  induction texts generalizing total with
  | nil => exact capped
  | cons tokens texts ih =>
    rw [List.forall_mem_cons] at each
    rcases each with ⟨⟨law, finite, sign⟩, others⟩
    rcases naturalLog_of_not_lt law finite sign with ⟨defined, most⟩
    exact ih (capped.add defined most) others

/-- The sum of the logarithms of finite probabilities. -/
theorem foldl_addLog_isNaN_iff (laws : ∀ tokens ∈ texts, Logarithmic (g.textWeight tokens))
    (finite : ∀ tokens ∈ texts, (g.textWeight tokens).isFinite = true) :
    (texts.foldl g.addLog 0.0).isNaN = true ↔ ∃ tokens ∈ texts, g.textWeight tokens < 0.0 := by
  refine ⟨?_, foldl_addLog_of_negative⟩
  intro nan
  by_contra none
  simp only [not_exists, not_and] at none
  have zero : Capped 0.0 := ⟨by decide +kernel, by decide +kernel⟩
  have sum := foldl_addLog_capped zero fun tokens member =>
    ⟨laws tokens member, finite tokens member, none tokens member⟩
  rw [sum.defined] at nan
  cases nan

theorem textWeight_signed (nonnegative : ∀ rule, 0.0 ≤ g.values.value rule) (tokens : Array Nat) :
    Signed (g.textWeight tokens) := by
  have values : ∀ rule, Signed ((g.sentence tokens).value rule) := fun rule =>
    .inr (nonnegative_iff.mpr (nonnegative rule))
  exact kept_signed.settled values _

theorem objective_eq_ok (computed : g.objective texts = .ok v) :
    g.verify = .ok () ∧ v = texts.foldl g.addLog 0.0 := by
  unfold objective at computed
  cases verified : g.verify with
  | error fault =>
    rw [verified] at computed
    cases computed
  | ok _ =>
    rw [verified] at computed
    cases computed
    exact ⟨rfl, rfl⟩

theorem verify_of_isNone (none : (g.inconsistency? g.values.values).isNone = true) : g.verify = .ok () := by
  rw [verify, Option.isNone_iff_eq_none.mp none]

theorem isProbability_of_verify (verified : g.verify = .ok ()) (rule : Nat) :
    isProbability (g.values.value rule) = true := by
  have none : g.badRule? g.values.values.toList = none := by
    unfold verify inconsistency? at verified
    cases found : g.badRule? g.values.values.toList with
    | none => rfl
    | some fault =>
      rw [found] at verified
      cases verified
  rw [RuleValues.value]
  cases found : g.values.values[rule]? with
  | none => decide +kernel
  | some value =>
    have listed : (value, rule) ∈ g.values.values.toList.zipIdx := by
      rw [List.mem_zipIdx_iff_getElem?, Array.getElem?_toList]
      exact found
    have passed := List.findSome?_eq_none_iff.mp none _ listed
    simp only at passed
    split at passed
    · assumption
    · cases passed

/-- Checked values that are not negative are below two, and few of them do not overflow. -/
theorem tame_of_verify (g : Grammar) (verified : g.verify = .ok ()) (nonnegative : ∀ rule, 0.0 ≤ g.values.value rule)
    {tokens : Array Nat} {b : Nat} (digits : b < 53) (many : g.rules.size * tokens.size ≤ 2 ^ b)
    (small : (b + 2) * tokens.size ≤ 1024) (nt : Nat) :
    (g.sentence tokens).Tame (.inside 0 (tokens.size - 1) nt) := by
  have values : ∀ rule, UpTo 1 1 ((g.sentence tokens).value rule) := by
    intro rule
    have checked := isProbability_of_verify verified rule
    rw [isProbability, Bool.and_eq_true, decide_eq_true_iff, decide_eq_true_iff] at checked
    have sign := nonnegative_iff.mpr (nonnegative rule)
    have top : (1.0 + tolerance).isNaN = false ∧ rank (1.0 + tolerance) ≤ (1 * 2 ^ 1 * unity : Nat) := by
      decide +kernel
    have most := (le_iff_rank sign.isNaN top.1).mp checked.2
    exact .of_rank sign (Int.le_trans most top.2) (by decide +kernel)
  have rules : (BinaryRule.all g.rules.rules).length ≤ g.rules.size := by
    rw [BinaryRule.all]
    refine Nat.le_trans (List.length_filterMap_le _ _) ?_
    rw [List.length_zipIdx, Array.length_toList]
    exact Nat.le_refl _
  have span : (b + 2) * (tokens.size - 1 - 0) + 1 < 1024 := by
    rw [Nat.sub_zero]
    rcases Nat.eq_zero_or_pos tokens.size with none | some
    · rw [none]
      omega
    · have level := Nat.mul_sub_one (b + 2) tokens.size
      have least : b + 2 ≤ (b + 2) * tokens.size := Nat.le_mul_of_pos_right _ some
      omega
  apply tame_inside values digits _ span
  exact Nat.le_trans (Nat.mul_le_mul rules (by omega)) many

end Grammar

namespace Engine

variable {g : Grammar} {e : Engine}

theorem Consistent.textWeight_isFinite (consistent : Consistent g e) (formed : e.grammar.rules.WellFormed)
    {tokens : Array Nat} (member : tokens ∈ e.texts)
    (tame : (e.grammar.sentence tokens).Tame (.inside 0 (tokens.size - 1) e.grammar.rules.start)) :
    (e.grammar.textWeight tokens).isFinite = true := by
  rcases List.mem_map.mp member with ⟨s, present, rfl⟩
  rcases Array.mem_iff_getElem?.mp (Array.mem_toList_iff.mp present) with ⟨string, found⟩
  have within := (consistent.stringProbability_eq found formed).1
  have certain : ∀ rule, (e.grammar.sentence s.tokens).certain rule = true →
      Unsigned ((e.grammar.sentence s.tokens).value rule) := fun rule fixed =>
    RuleValues.unsigned_of_isCertain consistent.grammar.evaluated fixed
  rw [Grammar.textWeight]
  exact settled_isFinite formed certain within tame

/-- The objective of checked values, text by text. -/
theorem objective_defined {d : Declarations} (built : d.grammar = .ok g) (session : List Request) {v : Float}
    (computed : ((ofGrammar g).after session).compute.1 = .ok v)
    (logs : ∀ tokens ∈ ((ofGrammar g).after session).texts,
      Logarithmic (((ofGrammar g).after session).grammar.textWeight tokens)) :
    let e := (ofGrammar g).after session
    let weight := e.grammar.textWeight
    let whole (tokens : Array Nat) := Cell.inside 0 (tokens.size - 1) e.grammar.rules.start
    (∀ string tokens, e.texts[string]? = some tokens → (e.stringProbability string).1 = .ok (weight tokens)) ∧
      ((∀ tokens ∈ e.texts, (weight tokens).isFinite = true) →
        (v.isNaN = true ↔ ∃ tokens ∈ e.texts, weight tokens < 0.0)) ∧
      ((∀ rule, 0.0 ≤ e.grammar.values.value rule) →
        (∀ tokens ∈ e.texts, 0.0 ≤ weight tokens ∨
          (weight tokens).isNaN = true ∧ ¬ (e.grammar.sentence tokens).Tame (whole tokens)) ∧
        ∀ b < 53, (∀ tokens ∈ e.texts, e.grammar.rules.size * tokens.size ≤ 2 ^ b ∧
            (b + 2) * tokens.size ≤ 1024) →
          v.isNaN = false ∧ ∀ tokens ∈ e.texts, 0.0 ≤ weight tokens ∧ (weight tokens).isFinite = true) := by
  intro e weight whole
  have consistent : Consistent g e := (consistent_ofGrammar built).after session
  have formed := Grammar.rules_wellFormed built
  have formed' : e.grammar.rules.WellFormed := consistent.grammar.rules ▸ formed
  rw [consistent.compute_eq formed] at computed
  rcases Grammar.objective_eq_ok computed with ⟨verified, rfl⟩
  have exact_iff := Grammar.foldl_addLog_isNaN_iff logs
  refine ⟨fun string tokens present => consistent.textWeight_eq formed present, exact_iff, ?_⟩
  intro nonnegative
  have tame_finite {tokens : Array Nat} (member : tokens ∈ e.texts)
      (tame : (e.grammar.sentence tokens).Tame (whole tokens)) : (weight tokens).isFinite = true :=
    consistent.textWeight_isFinite formed' member tame
  have signed := Grammar.textWeight_signed nonnegative
  refine ⟨?_, ?_⟩
  · intro tokens member
    rcases signed tokens with nan | sign
    · refine .inr ⟨isNaN_iff.mpr nan, fun tame => ?_⟩
      exact not_isFinite_of_nan nan (tame_finite member tame)
    · exact .inl (nonnegative_iff.mp sign)
  · intro b digits short
    have tame : ∀ tokens ∈ e.texts, (weight tokens).isFinite = true := by
      intro tokens member
      rcases short tokens member with ⟨many, small⟩
      apply tame_finite member
      exact e.grammar.tame_of_verify verified nonnegative digits many small _
    have sign : ∀ tokens ∈ e.texts, 0.0 ≤ weight tokens := by
      intro tokens member
      rcases signed tokens with nan | sign
      · exact absurd (tame tokens member) (not_isFinite_of_nan nan)
      · exact nonnegative_iff.mp sign
    refine ⟨?_, fun tokens member => ⟨sign tokens member, tame tokens member⟩⟩
    rw [← Bool.not_eq_true, exact_iff tame]
    rintro ⟨tokens, member, below⟩
    exact not_lt_of_zero_le (sign tokens member) below

/-- The objective of a text that has no probability is the negative infinity. -/
theorem sample_objective_defined :
    let e := (ofGrammar (Declarations.sampleGrammar 0.0)).after [.setCorpus ["aab"]]
    ∃ v, e.compute.1 = .ok v ∧ v.isNaN = false ∧ ∀ tokens ∈ e.texts, 0.0 ≤ e.grammar.textWeight tokens := by
  intro e
  have same : e.grammar = Declarations.sampleGrammar 0.0 := by simp only [e, sample_reads]
  have texts : e.texts = [#[0, 0, 1]] := by simp only [e, sample_reads, Engine.texts, List.map_cons, List.map_nil]
  have consistent : Consistent _ e := (consistent_ofGrammar (Declarations.sample_grammar 0.0)).after [.setCorpus ["aab"]]
  have verified : e.grammar.verify = .ok () := by
    rw [same]
    exact Grammar.verify_of_isNone (by decide +kernel)
  have computed : e.compute.1 = .ok (e.texts.foldl e.grammar.addLog 0.0) := by
    rw [consistent.compute_eq (Grammar.rules_wellFormed (Declarations.sample_grammar 0.0)), Grammar.objective, verified]
    rfl
  have logs : ∀ tokens ∈ e.texts, Logarithmic (e.grammar.textWeight tokens) := by
    rw [texts, same]
    intro tokens member positive
    rw [List.mem_singleton.mp member] at positive
    have none : ¬ (0.0 : Float) < (Declarations.sampleGrammar 0.0).textWeight #[0, 0, 1] := by decide +kernel
    exact absurd positive none
  have nonnegative : ∀ rule, 0.0 ≤ e.grammar.values.value rule := by
    rw [same]
    exact fun rule => (sample_within 0.0 (by decide +kernel) rule).1
  rcases objective_defined (Declarations.sample_grammar 0.0) [.setCorpus ["aab"]] computed logs with ⟨-, -, whole⟩
  have short : ∀ tokens ∈ e.texts, e.grammar.rules.size * tokens.size ≤ 2 ^ 4 ∧ (4 + 2) * tokens.size ≤ 1024 := by
    rw [texts, same]
    intro tokens member
    rw [List.mem_singleton.mp member]
    decide
  rcases (whole nonnegative).2 4 (by decide) short with ⟨defined, weights⟩
  exact ⟨_, computed, defined, fun tokens member => (weights tokens member).1⟩

end Engine

namespace Declarations

/-- Two words, one of them with a value that is within the tolerance and below zero. -/
def negative : Declarations where
  terminalRules := #[⟨0, "a", none⟩, ⟨0, "b", some "p"⟩]
  parameters := ⟨#[⟨"p", -1e-7, -1, 1⟩], 1⟩

def negativeStages : Stages where
  start := 0
  checked := [⟨[0], .certain⟩, ⟨[0], .formula (.parameter "p")⟩]
  numbered := ⟨⟨⟨sampleForest, 2⟩, #["a", "b"]⟩, #[⟨0, .terminal 0⟩, ⟨0, .terminal 1⟩]⟩
  values := ⟨negative.parameters, #[.certain, .formula (.parameter "p")], #[1.0, -1e-7]⟩

theorem negative_nonTerminals : negativeStages.nonTerminals = 1 := by
  simp [Draft.nonTerminals, negativeStages]

theorem negative_passes : negative.Passes negativeStages where
  nonempty := by simp [negative]
  start := rfl
  checked := by
    have known : negative.parameters.id? "p" = some 0 := by simp [negative, Parameters.id?]
    have second := sample_source _ known (.terminalRule 1 0 "b")
    refine ⟨[⟨[0], .certain⟩, ⟨[0], .formula (.parameter "p")⟩], [], ?_, rfl, rfl⟩
    simp only [negative, checkAll, checkTerminal, TerminalDeclaration.label] at second ⊢
    rw [second]
    rfl
  numbered := by
    refine ⟨⟨⟨⟨sampleForest, 2⟩, #["a", "b"]⟩, #[⟨0, .terminal 0⟩, ⟨0, .terminal 1⟩]⟩, ?_, rfl⟩
    simp [negative, sampleForest, addAll, addTerminal, Lexicon.insert, Forest.insert, Forest.chain,
      bind, Except.bind, pure, Except.pure]
  fits := by
    rw [negative_nonTerminals]
    change TablesFit 1 2
    decide
  ruled := by
    rw [Draft.index, negative_nonTerminals]
    change ruleless? (.ofRules 1 #[⟨0, .terminal 0⟩, ⟨0, .terminal 1⟩]) 1 = none
    cbv
  reached := by
    rw [Draft.index, negative_nonTerminals]
    change unreachable? (.ofRules 1 #[⟨0, .terminal 0⟩, ⟨0, .terminal 1⟩]) 1 0 = none
    cbv
  evaluated := by
    simp [RuleValues.ofSources, evaluateAll, evaluateFrom, Draft.sources, negativeStages, negative,
      RuleSource.evaluate, Formula.evaluate, Parameters.value?, bind, Except.bind, pure, Except.pure]

def negativeGrammar : Grammar := negativeStages.grammar negative.parameters

theorem negative_grammar : negative.grammar = .ok negativeGrammar :=
  grammar_eq_ok_iff.mpr ⟨_, negative_passes, rfl⟩

end Declarations

namespace Engine

/-- The check passes, and the objective is not a number. -/
theorem negative_objective :
    ∃ g v, Declarations.negative.grammar = .ok g ∧
      ((ofGrammar g).after [.setCorpus ["b"]]).compute.1 = .ok v ∧ v.isNaN = true := by
  have built := Declarations.negative_grammar
  have tokens : Lexicon.tokenize ⟨Declarations.sampleForest, 2⟩ "b" = .ok #[1] := by cbv
  have tokenized : Declarations.negativeGrammar.tokenize "b" = .ok #[1] := by
    simp [Grammar.tokenize, Declarations.negativeGrammar, Declarations.Stages.grammar,
      Declarations.negativeStages, tokens]
  have consistent := (consistent_ofGrammar built).setCorpus ["b"]
  have verified : Declarations.negativeGrammar.verify = .ok () :=
    Grammar.verify_of_isNone (by decide +kernel)
  have below : Declarations.negativeGrammar.textWeight #[1] < 0.0 := by decide +kernel
  have nan : ([#[1]].foldl Declarations.negativeGrammar.addLog 0.0).isNaN = true :=
    Grammar.foldl_addLog_of_negative ⟨#[1], List.mem_singleton_self _, below⟩
  refine ⟨_, _, built, ?_, nan⟩
  simp only [Engine.after, List.foldl_cons, List.foldl_nil, answer, reply]
  rw [setCorpus_single (by decide) tokenized] at consistent ⊢
  rw [consistent.compute_eq (Grammar.rules_wellFormed built), Grammar.objective, verified]
  rfl

end Engine

end StochasticGrammar
