import StochasticGrammar.Engine
import StochasticGrammar.Proofs.Double.Bounds
import StochasticGrammar.Proofs.Grammar.Construction
import StochasticGrammar.Proofs.Lexicon.Offers
import StochasticGrammar.Proofs.Tree.Growth
import StochasticGrammar.Random.Generator

/-!
Random strings belong to the language. Whatever the values of the rules are, a rule without a positive
value is not chosen: it adds nothing to the running sum, which a target that has not been passed is
not below. The literals of a tree are read back from the string in the only way there is.
-/

namespace StochasticGrammar

namespace Double

open Float.Model Float.Model.UnpackedFloat

variable {x y : Float}

theorem not_lt_zero_iff : ¬ x < 0.0 ↔ number x = .notANumber ∨ Nonnegative x := by
  rw [lt_iff_compare, number_zero, Nonnegative]
  cases shape : number x with
  | notANumber => exact iff_of_true (fun less => by cases less) (.inl rfl)
  | zero sign => exact iff_of_true (fun less => by cases less) (.inr trivial)
  | infinity sign | finite sign m e some =>
    cases sign with
    | positive => exact iff_of_true (fun less => by cases less) (.inr trivial)
    | negative => exact iff_of_false (fun above => above rfl) (by rintro (⟨⟨⟩⟩ | ⟨⟨⟩⟩))

theorem not_add_lt_zero (left : ¬ x < 0.0) (right : ¬ y < 0.0) : ¬ x + y < 0.0 := by
  rw [not_lt_zero_iff] at left right ⊢
  rcases left with nan | left
  · exact .inl (nan_add (.inl nan))
  · rcases right with nan | right
    · exact .inl (nan_add (.inr nan))
    · exact .inr (height_add left right).1

theorem not_mul_lt_zero (left : ¬ x < 0.0) (right : ¬ y < 0.0) : ¬ x * y < 0.0 := by
  rw [not_lt_zero_iff] at left right ⊢
  rcases left with nan | left
  · exact .inl (nan_mul (.inl nan))
  · rcases right with nan | right
    · exact .inl (nan_mul (.inr nan))
    · exact (height_mul left right).imp And.left And.left

theorem not_lt_zero_of_pos (positive : 0.0 < x) : ¬ x < 0.0 := by
  rw [lt_iff_compare, number_zero] at positive ⊢
  intro negative
  cases shape : number x with
  | notANumber | zero sign =>
    rw [shape] at positive
    cases positive
  | infinity sign | finite sign m e some =>
    cases sign with
    | positive =>
      rw [shape] at negative
      cases negative
    | negative =>
      rw [shape] at positive
      cases positive

theorem not_toFloat_lt_zero (word : UInt64) : ¬ word.toFloat < 0.0 := by
  apply not_lt_of_zero_le
  apply zero_le_of_unmarked
  refine unmarked_pack (f := UnpackedFloat.ofUInt64 Format.binary64 word) ?_
  simp only [UnpackedFloat.ofUInt64, UnpackedFloat.ofNat, UnpackedFloat.ofInt, UnpackedFloat.normalize]
  split
  · rename_i less
    rw [Int.compare_eq_lt] at less
    omega
  · trivial
  · exact unmarked_round _ _ _

theorem not_unit_lt_zero (word : UInt64) : ¬ RandomSource.unit word < 0.0 := by
  have scale : ¬ (1.1102230246251565e-16 : Float) < 0.0 := by decide +kernel
  exact not_mul_lt_zero (not_toFloat_lt_zero _) scale

end Double

namespace WeightedRules

section

variable {W σ : Type} [Weight W] [TameWeight W] {g : WeightedRules W} {draw : σ → W × σ} {nt rule : Nat}
  {source last : σ}

theorem add_positive {sum : W} (signless : Unsigned sum) (none : ¬ 0 < g.value rule) :
    sum + positive (g.value rule) = sum := by
  rw [positive, if_neg none]
  exact TameWeight.add_zero signless TameWeight.zero_beq

theorem pos_of_pick {target sum : W} {rules : List Nat} (signless : Unsigned sum) (passed : ¬ target < sum)
    (picked : g.pick? target sum rules = some rule) : 0 < g.value rule := by
  induction rules generalizing sum with
  | nil => cases picked
  | cons other rest ih =>
    simp only [pick?] at picked
    split at picked
    · rename_i below
      cases picked
      -- With nothing added, the sum would be one that is not passed.
      by_contra none
      rw [add_positive signless none] at below
      exact passed below
    · rename_i above
      exact ih (TameWeight.unsigned_add signless _) above picked

theorem pos_of_choose (irreflexive : ¬ (0 : W) < 0)
    (least : ∀ rules source, ¬ (draw source).1 * g.mass rules < 0)
    (chosen : g.choose draw nt source = (some rule, last)) : 0 < g.value rule := by
  rcases choose_cases chosen with ⟨some, only | picked | found⟩
  · rw [only] at some
    by_contra none
    have nothing : g.mass [rule] = 0 := add_positive unsigned_zero none
    rw [nothing] at some
    exact irreflexive some
  · exact pos_of_pick unsigned_zero (least _ source) picked
  · have positive := List.find?_some found
    exact of_decide_eq_true positive

end

theorem not_mass_lt_zero (g : WeightedRules Float) (rules : List Nat) : ¬ g.mass rules < 0.0 := by
  have zero : ¬ (0.0 : Float) < 0.0 := by decide +kernel
  refine List.foldlRecOn (motive := fun sum => ¬ sum < 0.0) _ _ zero ?_
  intro sum least value member
  rcases List.mem_map.mp member with ⟨rule, -, rfl⟩
  apply Double.not_add_lt_zero least
  rw [positive]
  split
  · rename_i some
    exact Double.not_lt_zero_of_pos some
  · exact zero

end WeightedRules

namespace Grammar

variable {d : Declarations} {g : Grammar}

theorem holds_literals (built : d.grammar = .ok g) : g.alphabet.lexicon.Holds g.alphabet.literals.toList := by
  rcases Declarations.grammar_eq_ok_iff.mp built with ⟨b, passes, rfl⟩
  rcases passes.mirrored.numbered with ⟨terminals, entered, followed⟩
  have exact : b.numbered.alphabet.Exact := followed.alphabet ▸ entered.exact
  exact exact

theorem terminals_eq (built : d.grammar = .ok g) : g.rules.terminals = g.alphabet.literals.size := by
  rcases Declarations.grammar_eq_ok_iff.mp built with ⟨b, passes, rfl⟩
  rfl

theorem spells_spell {numbers : List Nat} (known : ∀ number ∈ numbers, number < g.alphabet.literals.size) :
    Spells g.alphabet.literals.toList numbers (g.spell numbers.toArray) := by
  refine ⟨numbers.map fun number => (g.literal? number).getD "", ?_, rfl⟩
  rw [List.map_map]
  apply List.map_congr_left
  intro number member
  simp [literal?, known number member]

/-- What is drawn from the rules comes from a tree of rules of positive value. -/
theorem rooted_of_weighted (formed : g.rules.WellFormed) {σ : Type} [RandomSource σ] {root limit : Option Nat}
    {source last : σ} {tree : Derivation}
    (derived : g.weighted.derive RandomSource.nextUnit root limit source = some (.ok tree, last)) :
    g.rules.Rooted tree (root.getD g.rules.start) ∧ (∀ most ∈ limit, tree.depth ≤ most) ∧
      ∀ rule ∈ tree.rules, 0.0 < g.values.value rule := by
  have positive {nt rule : Nat} {source last : σ}
      (chosen : g.weighted.choose RandomSource.nextUnit nt source = (some rule, last)) :
      0.0 < g.values.value rule := by
    refine WeightedRules.pos_of_choose (by decide +kernel) ?_ chosen
    intro rules source
    exact Double.not_mul_lt_zero (Double.not_unit_lt_zero _) (WeightedRules.not_mass_lt_zero _ rules)
  unfold WeightedRules.derive at derived
  simp only at derived
  split at derived
  · rcases WeightedRules.rooted_of_grow formed positive derived with ⟨rooted, low, all⟩
    refine ⟨rooted, fun most within => ?_, all⟩
    have low := low most within
    omega
  · cases derived

theorem spawn_eq_ok_iff {σ : Type} [RandomSource σ] {root limit : Option Nat} {source last : σ} {text : String} :
    g.spawn root limit source = some (.ok text, last) ↔
      ∃ tree, g.weighted.derive RandomSource.nextUnit root limit source = some (.ok tree, last) ∧
        g.spell (tree.yield g.rules).toArray = text := by
  simp only [spawn, WeightedRules.spawn_eq]
  rcases g.weighted.derive RandomSource.nextUnit root limit source with _ | ⟨fault | tree, last⟩
  · simp
  · simp [Except.map]
  · simp [Except.map, and_comm, weighted]

/-- Whatever the values of the rules are, a random string is the yield of a tree of rules of positive
value, and the tokens it is read as are those of the yield. -/
theorem spawned_in_language (built : d.grammar = .ok g) (values : RuleValues) {σ : Type} [RandomSource σ]
    (root limit : Option Nat) (source : σ) {text : String} {last : σ}
    (spawned : { g with values }.spawn root limit source = some (.ok text, last)) :
    ∃ tree, g.rules.Rooted tree (root.getD g.rules.start) ∧ (∀ most ∈ limit, tree.depth ≤ most) ∧
      (∀ rule ∈ tree.rules, 0.0 < values.value rule) ∧
      Spells g.alphabet.literals.toList (tree.yield g.rules) text ∧
      { g with values }.tokenize text = .ok (tree.yield g.rules).toArray := by
  have formed := rules_wellFormed built
  obtain ⟨tree, derived, shown⟩ := spawn_eq_ok_iff.mp spawned
  rcases rooted_of_weighted (g := { g with values }) formed derived with ⟨rooted, low, all⟩
  have spells := spells_spell (g := g) fun terminal member =>
    (rooted.terminal_lt formed terminal member).trans_eq (terminals_eq built)
  have shown : g.spell (tree.yield g.rules).toArray = text := shown
  rw [shown] at spells
  have read := ((holds_literals built).serves.tokens text (tree.yield g.rules).toArray).mpr spells
  exact ⟨tree, rooted, low, all, spells, by simp only [tokenize, read]⟩

/-- A rule of negative value is passed over, and the second draw takes the first rule. -/
theorem sample_spawned_in_language :
    let values : RuleValues := { (Declarations.sampleGrammar 0.25).values with values := #[0.25, 1.0, -1.0, 1.0] }
    let g := { Declarations.sampleGrammar 0.25 with values }
    let words : Array UInt64 := #[0xffffffffffffffff, 0]
    let source := Generator.words words 0
    g.spawn none (some 2) source = some (.ok "ab", source) ∧
      ∃ tree, g.rules.Rooted tree 0 ∧ tree.depth ≤ 2 ∧ (∀ rule ∈ tree.rules, 0.0 < values.value rule) ∧
        Spells ["a", "b"] (tree.yield g.rules) "ab" ∧ g.tokenize "ab" = .ok (tree.yield g.rules).toArray := by
  intro values g words source
  have spawned : g.spawn none (some 2) source = some (.ok "ab", source) := by
    refine spawn_eq_ok_iff.mpr ⟨.node 3 (.leaf 0) (.leaf 1), ?_, by decide +kernel⟩
    have upper : g.weighted.choose RandomSource.nextUnit 0 source = (some 3, .words words 1) :=
      by decide +kernel
    have left : g.weighted.choose RandomSource.nextUnit 0 (.words words 1) = (some 0, source) :=
      by decide +kernel
    have right : g.weighted.choose RandomSource.nextUnit 1 source = (some 1, source) :=
      by decide +kernel
    rw [WeightedRules.derive, if_pos (by decide +kernel)]
    exact (WeightedRules.grow_node_iff rfl rfl).mpr ⟨_, _, upper, (WeightedRules.grow_leaf_iff rfl rfl).mpr left,
      (WeightedRules.grow_leaf_iff rfl rfl).mpr right⟩
  rcases spawned_in_language (Declarations.sample_grammar 0.25) values none (some 2) source spawned with
    ⟨tree, rooted, low, all, spells, read⟩
  exact ⟨spawned, tree, rooted, low 2 rfl, all, spells, read⟩

end Grammar

end StochasticGrammar
