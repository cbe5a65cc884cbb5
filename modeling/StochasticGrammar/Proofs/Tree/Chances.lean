import Mathlib.MeasureTheory.Measure.Lebesgue.Basic
import Mathlib.Probability.ProductMeasure
import StochasticGrammar.Proofs.Grammar.Numbering
import StochasticGrammar.Proofs.Tree.Slots

/-!
The chance of a tree in exact arithmetic. A tree is drawn by just those draws that lie, one by one, in
the slots of its rules that had a rival, in the order of their nodes from the root down and from the
left to the right. As the draws are independent, its chance is the product of those of its rules.
-/

namespace StochasticGrammar

open MeasureTheory

/-- Whether a rule is not the only one of its non-terminal. -/
def RuleSet.contested (g : RuleSet) (rule : Nat) : Bool := decide (2 ≤ (g.rivals rule).length)

/-- The rules of a tree that a choice was made for, in the order of the choices. -/
def RuleSet.choices (g : RuleSet) (tree : Derivation) : List Nat := tree.rules.filter g.contested

theorem RuleSet.choices_node (g : RuleSet) (rule : Nat) (left right : Derivation) :
    g.choices (.node rule left right) =
      [rule].filter g.contested ++ (g.choices left ++ g.choices right) := by
  rw [choices, choices, choices, ← List.filter_append, ← List.filter_append]
  rfl

namespace WeightedRules

/-- The draws lie in the slots of these rules, beginning with the one after those already made. -/
def Lands (g : WeightedRules ℝ) (draws : Nat → ℝ) (made : Nat) (rules : List Nat) : Prop :=
  ∀ i rule, rules[i]? = some rule → draws (made + i) ∈ g.slot rule

variable {g : WeightedRules ℝ} {draws : Nat → ℝ} {made last rule nt depth : Nat} {limit : Option Nat}
  {rules : List Nat} {tree : Derivation}

theorem lands_nil : g.Lands draws made [] := by
  intro i rule found
  cases found

theorem lands_cons :
    g.Lands draws made (rule :: rules) ↔ draws made ∈ g.slot rule ∧ g.Lands draws (made + 1) rules := by
  constructor
  · intro lands
    refine ⟨lands 0 rule rfl, fun i other found => ?_⟩
    rw [Nat.add_assoc, Nat.add_comm 1 i]
    exact lands (i + 1) other found
  · rintro ⟨here, rest⟩ i other found
    cases i with
    | zero =>
      cases found
      exact here
    | succ i =>
      rw [Nat.add_comm i 1, ← Nat.add_assoc]
      exact rest i other found

theorem lands_append {rules' : List Nat} :
    g.Lands draws made (rules ++ rules') ↔
      g.Lands draws made rules ∧ g.Lands draws (made + rules.length) rules' := by
  induction rules generalizing made with
  | nil => simp [lands_nil]
  | cons rule rest ih =>
    rw [List.cons_append, lands_cons, lands_cons, ih, and_assoc, List.length_cons, Nat.add_assoc,
      Nat.add_comm 1]

namespace Fair

variable (fair : g.Fair) (units : ∀ k, draws k ∈ Set.Ico 0 1)

include fair units

/-- What a rule is chosen by, as the root of a tree that goes on below. -/
theorem choose_lands (inside : nt < g.rules.nonTerminals) (member : rule ∈ g.rules.rulesOf nt) :
    g.choose (drawn draws) nt made = (some rule, last) ↔
      last = made + ([rule].filter g.rules.contested).length ∧
        g.Lands draws made ([rule].filter g.rules.contested) := by
  rw [fair.choose_iff inside units, and_iff_right member, ← RuleSet.rivals_eq fair.formed member]
  split
  · rename_i several
    simp [RuleSet.contested, several, lands_cons, lands_nil, and_comm]
  · rename_i single
    simp [RuleSet.contested, single, lands_nil]

/-- The draws that grow a tree, and how many of them there are. -/
theorem grow_iff (rooted : g.rules.Rooted tree nt) (low : ∀ most ∈ limit, depth + tree.depth ≤ most + 1) :
    g.grow (drawn draws) limit depth nt made = some (.ok tree, last) ↔
      last = made + (g.rules.choices tree).length ∧ g.Lands draws made (g.rules.choices tree) := by
  have inside := rooted.nt_lt fair.formed
  induction rooted generalizing depth made last with
  | @leaf rule nt terminal found =>
    have shallow : exceeded? limit depth = none :=
      exceeded_eq_none_iff.mpr fun most within => Nat.le_of_succ_le_succ (low most within)
    have member := (RuleSet.mem_rulesOf fair.formed).mpr ⟨_, found⟩
    rw [grow_leaf_iff shallow (RuleSet.production_eq_some_iff.mpr ⟨nt, found⟩)]
    exact fair.choose_lands units inside member
  | @node rule nt a b left right found first second firstIh secondIh =>
    simp only [Derivation.depth] at low
    have shallow : exceeded? limit depth = none := by
      refine exceeded_eq_none_iff.mpr fun most within => ?_
      have := low most within
      omega
    have left : ∀ most ∈ limit, depth + 1 + left.depth ≤ most + 1 := by grind
    have right : ∀ most ∈ limit, depth + 1 + right.depth ≤ most + 1 := by grind
    have member := (RuleSet.mem_rulesOf fair.formed).mpr ⟨_, found⟩
    rw [grow_node_iff shallow (RuleSet.production_eq_some_iff.mpr ⟨nt, found⟩)]
    simp only [fair.choose_lands units inside member, firstIh left (first.nt_lt fair.formed),
      secondIh right (second.nt_lt fair.formed), RuleSet.choices_node, lands_append, List.length_append]
    constructor
    · rintro ⟨_, _, ⟨rfl, here⟩, ⟨rfl, inLeft⟩, rfl, inRight⟩
      exact ⟨by omega, here, inLeft, inRight⟩
    · rintro ⟨rfl, here, inLeft, inRight⟩
      exact ⟨_, _, ⟨rfl, here⟩, ⟨rfl, inLeft⟩, by omega, inRight⟩

theorem derive_iff {root bound : Option Nat} (rooted : g.rules.Rooted tree (root.getD g.rules.start))
    (low : ∀ most ∈ bound, tree.depth ≤ most) :
    g.derive (drawn draws) root bound 0 = some (.ok tree, last) ↔
      last = (g.rules.choices tree).length ∧ g.Lands draws 0 (g.rules.choices tree) := by
  have low' : ∀ most ∈ bound, 1 + tree.depth ≤ most + 1 := by grind
  rw [derive, if_pos (rooted.nt_lt fair.formed), fair.grow_iff units rooted low', Nat.zero_add]

theorem exists_derive_iff {root bound : Option Nat} (rooted : g.rules.Rooted tree (root.getD g.rules.start))
    (low : ∀ most ∈ bound, tree.depth ≤ most) :
    (∃ made, g.derive (drawn draws) root bound 0 = some (.ok tree, made)) ↔
      g.Lands draws 0 (g.rules.choices tree) := by
  simp only [fair.derive_iff units rooted low, exists_eq_left]

end Fair

/-- A draw from the unit interval. -/
noncomputable def uniform : Measure ℝ := volume.restrict (Set.Ico 0 1)

instance : IsProbabilityMeasure uniform where
  measure_univ := by simp [uniform]

/-- Draws from the unit interval that do not depend on each other. -/
noncomputable def streams : Measure (Nat → ℝ) := Measure.infinitePi fun _ => uniform

theorem units_streams : ∀ᵐ draws ∂streams, ∀ k, draws k ∈ Set.Ico (0 : ℝ) 1 := by
  rw [ae_all_iff]
  intro k
  have unit : ∀ᵐ draw ∂uniform, draw ∈ Set.Ico (0 : ℝ) 1 := ae_restrict_mem measurableSet_Ico
  exact (measurePreserving_eval_infinitePi (fun _ => uniform) k).quasiMeasurePreserving.ae unit

theorem Fair.chance_nonneg (fair : g.Fair) (inside : nt < g.rules.nonTerminals)
    (member : rule ∈ g.rules.rulesOf nt) : 0 ≤ g.chance rule := by
  rw [chance, RuleSet.rivals_eq fair.formed member]
  exact div_nonneg (fair.least_of_mem rule member) (fair.total_pos nt inside).le

theorem Fair.uniform_slot (fair : g.Fair) (inside : nt < g.rules.nonTerminals)
    (member : rule ∈ g.rules.rulesOf nt) : uniform (g.slot rule) = ENNReal.ofReal (g.chance rule) := by
  have within : g.slot rule ⊆ Set.Ico 0 1 := fair.slot_subset inside member
  rw [uniform, Measure.restrict_eq_self _ within, slot, Real.volume_Ico, add_sub_cancel_left]

/-- The chances of the rules that are chosen are independent. -/
theorem Fair.streams_lands (fair : g.Fair)
    (each : ∀ rule ∈ rules, ∃ nt < g.rules.nonTerminals, rule ∈ g.rules.rulesOf nt) :
    streams {draws | g.Lands draws 0 rules} = ENNReal.ofReal (rules.map g.chance).prod := by
  have at_index (i : Fin rules.length) : ∃ nt < g.rules.nonTerminals, rules[i] ∈ g.rules.rulesOf nt :=
    each _ (List.getElem_mem i.isLt)
  have box : {draws | g.Lands draws 0 rules} =
      Set.pi (Finset.range rules.length) fun i => g.slot (rules[i]?.getD 0) := by
    ext draws
    simp only [Set.mem_ofPred_eq, Set.mem_pi, Finset.coe_range, Set.mem_Iio, Lands, Nat.zero_add]
    constructor
    · intro lands i short
      rw [List.getElem?_eq_getElem short]
      exact lands i _ (List.getElem?_eq_getElem short)
    · intro lands i rule found
      have within := lands i (List.getElem?_eq_some_iff.mp found).1
      rwa [found] at within
  calc streams {draws | g.Lands draws 0 rules}
      = ∏ i ∈ Finset.range rules.length, uniform (g.slot (rules[i]?.getD 0)) := by
        rw [box, streams, Measure.infinitePi_pi]
        exact fun _ _ => measurableSet_Ico
    _ = ∏ i : Fin rules.length, uniform (g.slot rules[i]) := by
        rw [Finset.prod_range]
        exact Finset.prod_congr rfl fun i _ => by rw [List.getElem?_eq_getElem i.isLt]; rfl
    _ = ∏ i : Fin rules.length, ENNReal.ofReal (g.chance rules[i]) := by
        refine Finset.prod_congr rfl fun i _ => ?_
        rcases at_index i with ⟨nt, inside, member⟩
        exact fair.uniform_slot inside member
    _ = ENNReal.ofReal (∏ i : Fin rules.length, g.chance rules[i]) := by
        refine (ENNReal.ofReal_prod_of_nonneg fun i _ => ?_).symm
        rcases at_index i with ⟨nt, inside, member⟩
        exact fair.chance_nonneg inside member
    _ = ENNReal.ofReal (rules.map g.chance).prod := by
        rw [← Fin.prod_univ_fun_getElem]
        rfl

/-- A rule without rivals is certain. -/
theorem Fair.chance_eq_one (fair : g.Fair) (inside : nt < g.rules.nonTerminals)
    (member : rule ∈ g.rules.rulesOf nt) (alone : ¬ g.rules.contested rule) : g.chance rule = 1 := by
  have positive := fair.total_pos nt inside
  rw [RuleSet.contested, decide_eq_true_iff, RuleSet.rivals_eq fair.formed member] at alone
  rw [chance, RuleSet.rivals_eq fair.formed member]
  rcases rules : g.rules.rulesOf nt with _ | ⟨first, _ | ⟨second, rest⟩⟩
  · rw [rules] at member
    cases member
  · rw [rules] at member positive
    cases List.mem_singleton.mp member
    rw [total, List.map_singleton, List.sum_singleton] at positive ⊢
    exact div_self positive.ne'
  · rw [rules] at alone
    exact absurd (Nat.le_add_left 2 rest.length) alone

theorem Fair.prod_contested (fair : g.Fair)
    (each : ∀ rule ∈ rules, ∃ nt < g.rules.nonTerminals, rule ∈ g.rules.rulesOf nt) :
    ((rules.filter g.rules.contested).map g.chance).prod = (rules.map g.chance).prod := by
  induction rules with
  | nil => rfl
  | cons rule rest ih =>
    rw [List.forall_mem_cons] at each
    rw [List.map_cons, List.prod_cons, ← ih each.2]
    by_cases contested : g.rules.contested rule
    · rw [List.filter_cons_of_pos contested, List.map_cons, List.prod_cons]
    · rcases each.1 with ⟨nt, inside, member⟩
      rw [List.filter_cons_of_neg contested, fair.chance_eq_one inside member contested, one_mul]

/-- The chance of a tree is the product of those of its rules. -/
theorem Fair.chance_tree (fair : g.Fair) {root bound : Option Nat}
    (rooted : g.rules.Rooted tree (root.getD g.rules.start)) (low : ∀ most ∈ bound, tree.depth ≤ most) :
    streams {draws | ∃ made, g.derive (drawn draws) root bound 0 = some (.ok tree, made)} =
      ENNReal.ofReal (tree.rules.map g.chance).prod := by
  have each := rooted.mem_rules fair.formed
  have almost : {draws | ∃ made, g.derive (drawn draws) root bound 0 = some (.ok tree, made)} =ᵐ[streams]
      {draws | g.Lands draws 0 (g.rules.choices tree)} := by
    filter_upwards [units_streams] with draws units
    exact propext (fair.exists_derive_iff units rooted low)
  calc streams {draws | ∃ made, g.derive (drawn draws) root bound 0 = some (.ok tree, made)}
      = streams {draws | g.Lands draws 0 (g.rules.choices tree)} := measure_congr almost
    _ = ENNReal.ofReal ((g.rules.choices tree).map g.chance).prod :=
      fair.streams_lands fun rule member => each rule (List.mem_of_mem_filter member)
    _ = ENNReal.ofReal (tree.rules.map g.chance).prod := by rw [RuleSet.choices, fair.prod_contested each]

end WeightedRules

namespace Grammar

open WeightedRules

/-- Draws in the unit interval choose a rule each, without recourse to the last rule that can be drawn, and
a random derivation is a tree just where each choice falls on the rule of the tree. The program gives
the terminals of that tree, and nothing where the derivation goes on for ever. -/
theorem draws_of_trees {d : Declarations} {g : Grammar} (built : d.grammar = .ok g) (value : Nat → ℝ)
    (certain : Nat → Bool) (least : ∀ rule < g.rules.size, 0 ≤ value rule)
    (total_pos : ∀ nt < g.rules.nonTerminals, 0 < ((g.rules.rulesOf nt).map value).sum) :
    let w : WeightedRules ℝ := ⟨g.rules, value, certain⟩
    (∀ nt < g.rules.nonTerminals,
      (∀ rule ∈ g.rules.rulesOf nt, ∃ low, w.slot rule =
        Set.Ico low (low + value rule / ((g.rules.rulesOf nt).map value).sum)) ∧
      {rule | rule ∈ g.rules.rulesOf nt}.PairwiseDisjoint w.slot ∧
      ⋃ rule ∈ g.rules.rulesOf nt, w.slot rule = Set.Ico 0 1 ∧
      ∀ draw ∈ Set.Ico 0 1, w.pick? (draw * w.mass (g.rules.rulesOf nt)) 0 (g.rules.rulesOf nt) ≠ none) ∧
    ∀ root bound : Option Nat,
      (∀ draws, w.spawn (drawn draws) root bound 0 =
        (w.derive (drawn draws) root bound 0).map fun (derived, made) =>
          (derived.map fun tree => (tree.yield g.rules).toArray, made)) ∧
      ∀ tree, g.rules.Rooted tree (root.getD g.rules.start) → (∀ most ∈ bound, tree.depth ≤ most) →
        (∀ draws made, (∀ k, draws k ∈ Set.Ico 0 1) →
          (w.derive (drawn draws) root bound 0 = some (.ok tree, made) ↔ made = (g.rules.choices tree).length ∧
            ∀ k rule, (g.rules.choices tree)[k]? = some rule → draws k ∈ w.slot rule)) ∧
        streams {draws | ∃ made, w.derive (drawn draws) root bound 0 = some (.ok tree, made)} =
          ENNReal.ofReal (tree.rules.map fun rule => value rule / ((g.rules.rivals rule).map value).sum).prod := by
  intro w
  have fair : w.Fair := ⟨rules_wellFormed built, least, total_pos⟩
  refine ⟨fun nt inside => ⟨fun rule member => ?_, fair.slots_disjoint inside, fair.slots_cover inside,
    fun draw unit => fair.pick_ne_none inside unit⟩, fun root bound => ⟨fun draws => spawn_eq root bound 0,
      fun tree rooted low => ⟨fun draws made units => ?_, fair.chance_tree rooted low⟩⟩⟩
  · rw [← RuleSet.rivals_eq fair.formed member]
    exact ⟨_, rfl⟩
  · rw [fair.derive_iff units rooted low]
    simp only [Lands, Nat.zero_add]
    rfl

/-- A word of two letters, by a choice at each of its two upper nodes. -/
theorem sample_draws_of_trees :
    let value : Nat → ℝ := fun rule => if rule = 2 then 0 else 1
    let w : WeightedRules ℝ := ⟨(Declarations.sampleGrammar 0.25).rules, value, fun _ => true⟩
    streams {draws | ∃ made,
        w.derive (drawn draws) none (some 2) 0 = some (.ok (.node 3 (.leaf 0) (.leaf 1)), made)} =
      ENNReal.ofReal (1 / 4) := by
  intro value w
  have least : ∀ rule < w.rules.size, 0 ≤ value rule := by
    intro rule _
    simp only [value]
    split <;> norm_num
  have first : w.rules.rulesOf 0 = [0, 2, 3] := by rfl
  have second : w.rules.rulesOf 1 = [1] := by rfl
  have total_pos : ∀ nt < w.rules.nonTerminals, 0 < ((w.rules.rulesOf nt).map value).sum := by
    intro nt inside
    have two : w.rules.nonTerminals = 2 := Declarations.sample_nonTerminals 0.25
    rw [two] at inside
    interval_cases nt
    · norm_num [first, value]
    · norm_num [second, value]
  have left : w.rules.Rooted (.leaf 0) 0 := .leaf (show w.rules.rules[0]? = some ⟨0, .terminal 0⟩ from rfl)
  have right : w.rules.Rooted (.leaf 1) 1 := .leaf (show w.rules.rules[1]? = some ⟨1, .terminal 1⟩ from rfl)
  have rooted : w.rules.Rooted (.node 3 (.leaf 0) (.leaf 1)) 0 := .node rfl left right
  rcases (draws_of_trees (Declarations.sample_grammar 0.25) value (fun _ => true) least total_pos).2 none
    (some 2) with ⟨-, trees⟩
  have within : ∀ most ∈ some 2, (Derivation.node 3 (.leaf 0) (.leaf 1)).depth ≤ most := by decide
  rw [(trees _ rooted within).2]
  have upper : w.rules.rivals 0 = [0, 2, 3] ∧ w.rules.rivals 3 = [0, 2, 3] := ⟨first, first⟩
  have lower : w.rules.rivals 1 = [1] := second
  change ENNReal.ofReal (([3, 0, 1].map fun rule => value rule / ((w.rules.rivals rule).map value).sum).prod) = _
  norm_num [upper, lower, value]

end Grammar

end StochasticGrammar
