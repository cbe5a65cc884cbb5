import StochasticGrammar.Proofs.Tree.BestChart
import StochasticGrammar.Proofs.Tree.InsideSums

/-!
Which spans weigh something, when no rule weighs more than one. A weight that is a number is at least
that of each derivation of the span, and is positive only when all rules of some derivation are. What
is lost to rounding is no more than what a product is below the least positive double.
-/

namespace StochasticGrammar

open Double

theorem Derivation.length_rules (tree : Derivation) : tree.rules.length + 1 = 2 * tree.width := by
  induction tree with
  | leaf rule => rfl
  | node rule left right leftIh rightIh =>
    rw [Derivation.rules, List.length_cons, List.length_append, Derivation.width]
    omega

/-- What a weight says of the trees whose weights it adds up. -/
structure Supports (value : Nat → Float) (x : Float) (trees : List Derivation) : Prop where
  defined : number x = .notANumber ∨ Nonnegative x
  positive : 0.0 < x → ∃ tree ∈ trees, ∀ rule ∈ tree.rules, 0.0 < value rule
  atLeast : Nonnegative x → ∀ tree ∈ trees, height (tree.weight value) ≤ height x

namespace Supports

variable {value : Nat → Float} {x y : Float} {trees others : List Derivation}

theorem of_nan (nan : number x = .notANumber) (trees : List Derivation) : Supports value x trees where
  defined := .inl nan
  positive some := absurd some (not_pos_of_nan nan)
  atLeast sign := absurd sign (not_nonnegative_of_nan nan)

theorem zero (none : ∀ tree ∈ trees, height (tree.weight value) = 0) : Supports value 0.0 trees where
  defined := .inr nonnegative_zero
  positive some := by
    rw [pos_iff_height nonnegative_zero, height_zero] at some
    exact absurd some (lt_irrefl _)
  atLeast _ tree member := by rw [none tree member, height_zero]

/-- Nothing weighs anything under a zero. -/
theorem of_beq_zero (supports : Supports value x trees) (zero : (x == 0.0) = true) :
    height x = 0 ∧ ∀ tree ∈ trees, height (tree.weight value) = 0 := by
  obtain ⟨sign, shape⟩ := beq_zero_iff.mp zero
  have none : height x = 0 := by
    rw [height, shape]
    rfl
  have nonnegative : Nonnegative x := by
    rw [Nonnegative, shape]
    trivial
  refine ⟨none, ?_⟩
  intro tree member
  have most := supports.atLeast nonnegative tree member
  rw [none] at most
  exact le_antisymm most zero_le

theorem remembered (supports : Supports value x trees) (constant : Bool) :
    Supports value (remembered x constant).1 trees := by
  unfold StochasticGrammar.remembered
  split
  · rename_i zero
    rw [Bool.and_eq_true] at zero
    exact .zero (supports.of_beq_zero zero.2).2
  · split
    · rename_i one
      rw [Bool.and_eq_true] at one
      rw [eq_one one.2] at supports
      exact supports
    · exact supports

theorem add (left : Supports value x trees) (right : Supports value y others) :
    Supports value (x + y) (trees ++ others) := by
  rcases left.defined with nan | sign
  · exact .of_nan (nan_add (.inl nan)) _
  · rcases right.defined with nan | sign'
    · exact .of_nan (nan_add (.inr nan)) _
    · obtain ⟨sum, amount⟩ := height_add sign sign'
      obtain ⟨first, second⟩ := height_le_add sign sign'
      refine ⟨.inr sum, ?_, ?_⟩
      · intro some
        rw [pos_iff_height sum, amount] at some
        by_cases zero : height x = 0
        · have positive : 0.0 < y := by
            rw [pos_iff_height sign', pos_iff_ne_zero]
            intro zero'
            rw [zero, zero', AddZeroClass.add_zero, MulZeroClass.zero_mul, attained_zero] at some
            exact lt_irrefl _ some
          obtain ⟨tree, member, rules⟩ := right.positive positive
          exact ⟨tree, List.mem_append_right _ member, rules⟩
        · have positive : 0.0 < x := by rwa [pos_iff_height sign, pos_iff_ne_zero]
          obtain ⟨tree, member, rules⟩ := left.positive positive
          exact ⟨tree, List.mem_append_left _ member, rules⟩
      · intro _ tree member
        rcases List.mem_append.mp member with inLeft | inRight
        · exact le_trans (left.atLeast sign tree inLeft) first
        · exact le_trans (right.atLeast sign' tree inRight) second

variable (fractions : ∀ rule, Fraction (value rule))

include fractions

theorem fraction_tree (tree : Derivation) : Fraction (tree.weight value) := by
  induction tree with
  | leaf rule => exact fractions rule
  | node rule left right leftIh rightIh =>
    exact (Fraction.mul (Fraction.mul (fractions rule) leftIh).1 rightIh).1

theorem height_node (rule : Nat) (left right : Derivation) :
    height ((Derivation.node rule left right).weight value) =
      attainedBoth (height (value rule)) (height (left.weight value)) (height (right.weight value)) := by
  have first := fraction_tree fractions left
  have front := (Fraction.mul (fractions rule) first).1
  have amount := Fraction.height_mul front (fraction_tree fractions right)
  rw [Fraction.height_mul (fractions rule) first] at amount
  exact amount

/-- A rule above two parts, of which neither is zero for certain. -/
theorem node {rule : Nat} (left : Supports value x trees) (right : Supports value y others) :
    Supports value (value rule * x * y)
      (trees.flatMap fun first => others.map fun second => .node rule first second) := by
  rcases left.defined with nan | sign
  · exact .of_nan (nan_mul (.inl (nan_mul (.inr nan)))) _
  · rcases right.defined with nan | sign'
    · exact .of_nan (nan_mul (.inr nan)) _
    · have here := (fractions rule).height_eq.1
      rcases height_mul_mul here sign sign' with nan | ⟨product, amount⟩
      · exact .of_nan nan _
      · refine ⟨.inr product, ?_, ?_⟩
        · intro some
          rw [pos_iff_height product, amount] at some
          have factors : ¬ (height (value rule) = 0 ∨ height x = 0 ∨ height y = 0) := by
            intro zero
            rw [attainedBoth_zero zero] at some
            exact lt_irrefl _ some
          simp only [not_or, ← pos_iff_ne_zero, ← pos_iff_height here, ← pos_iff_height sign,
            ← pos_iff_height sign'] at factors
          obtain ⟨positive, firstPositive, secondPositive⟩ := factors
          obtain ⟨first, member, rules⟩ := left.positive firstPositive
          obtain ⟨second, member', rules'⟩ := right.positive secondPositive
          refine ⟨.node rule first second, ?_, ?_⟩
          · exact List.mem_flatMap.mpr ⟨first, member, List.mem_map.mpr ⟨second, member', rfl⟩⟩
          · intro other used
            rcases List.mem_cons.mp used with rfl | below
            · exact positive
            · exact (List.mem_append.mp below).elim (rules other) (rules' other)
        · intro _ tree within
          obtain ⟨first, member, made⟩ := List.mem_flatMap.mp within
          obtain ⟨second, member', rfl⟩ := List.mem_map.mp made
          rw [height_node fractions, amount]
          exact attainedBoth_mono (left.atLeast sign first member) (right.atLeast sign' second member')

/-- A rule above two parts, of which one is zero, adds nothing. -/
theorem skip {z : Float} {all : List Derivation} {rule : Nat} (total : Supports value z all)
    (left : Supports value x trees) (right : Supports value y others)
    (zero : (x == 0.0) = true ∨ (y == 0.0) = true) :
    Supports value z
      (all ++ trees.flatMap fun first => others.map fun second => .node rule first second) where
  defined := total.defined
  positive some := by
    obtain ⟨tree, member, rules⟩ := total.positive some
    exact ⟨tree, List.mem_append_left _ member, rules⟩
  atLeast sign tree within := by
    rcases List.mem_append.mp within with old | new
    · exact total.atLeast sign tree old
    · obtain ⟨first, member, made⟩ := List.mem_flatMap.mp new
      obtain ⟨second, member', rfl⟩ := List.mem_map.mp made
      rw [height_node fractions, attainedBoth_zero]
      · exact zero_le
      · exact .inr (zero.imp (fun zero => (left.of_beq_zero zero).2 first member)
          fun zero => (right.of_beq_zero zero).2 second member')

end Supports

section

variable {s : Sentence Float} (fractions : ∀ rule, Fraction (s.value rule))

include fractions

/-- One more term: the step that the sum of an inside cell keeps to its trees. -/
theorem supports_addKnown {read : Cell → Float × Bool} {start stop nt : Nat} {term : Term}
    {total : Float × Bool} {trees : List Derivation} (supports : Supports s.value total.1 trees)
    (first : Supports s.value (read term.first).1 (s.derivationsAt term.first))
    (second : Supports s.value (read term.second).1 (s.derivationsAt term.second)) :
    Supports s.value (s.addKnown read (.inside start stop nt) total term).1
      (trees ++ s.joined term) := by
  rw [Sentence.addKnown_eq]
  split
  · rename_i skip
    simp only [Sentence.constantZero, Bool.or_eq_true, Bool.and_eq_true] at skip
    exact supports.skip fractions first second (skip.imp And.left And.left)
  · exact supports.add (first.node fractions second)

/-- A derivation of which no product falls below the least positive double. -/
theorem weight_pos {start stop nt k : Nat} {tree : Derivation} (usable : s.Usable tree start stop nt)
    (least : ∀ rule, 0.0 < s.value rule → AtLeastPower (s.value rule) k)
    (small : k * tree.rules.length ≤ 1074) :
    AtLeastPower (tree.weight s.value) (k * tree.rules.length) := by
  obtain ⟨derives, positive⟩ := usable
  induction derives with
  | @leaf rule =>
    have here := least rule (positive _ (List.mem_singleton_self _))
    rwa [Derivation.rules, List.length_singleton, Nat.mul_one]
  | @node rule _ m _ _ a b left right found first second firstIh secondIh =>
    obtain ⟨root, inLeft, inRight⟩ := Derivation.forall_mem_rules_node.mp positive
    have here := least rule root
    have length : k * (Derivation.node rule left right).rules.length =
        k + k * left.rules.length + k * right.rules.length := by
      rw [Derivation.rules, List.length_cons, List.length_append]
      ring
    rw [length] at small ⊢
    have leftLow := firstIh (by omega) inLeft
    have rightLow := secondIh (by omega) inRight
    have leftFraction := Supports.fraction_tree fractions left
    have front := here.mul (fractions rule) leftFraction leftLow (by omega)
    have frontFraction := (Fraction.mul (fractions rule) leftFraction).1
    exact front.mul frontFraction (Supports.fraction_tree fractions right) rightLow small

theorem supports_leaf (rule : Nat) : Supports s.value (s.value rule) [.leaf rule] where
  defined := .inr (fractions rule).height_eq.1
  positive some := by
    refine ⟨.leaf rule, List.mem_singleton_self _, ?_⟩
    intro other used
    rw [List.mem_singleton.mp used]
    exact some
  atLeast _ tree member := by
    rw [List.mem_singleton.mp member]
    exact le_refl _

/-- The weight of a span supports its derivations. -/
theorem settled_supports (formed : s.rules.WellFormed) {start stop nt : Nat}
    (within : s.Within (.inside start stop nt)) :
    Supports s.value (s.settled (.inside start stop nt)).1 (s.derivations start stop nt) :=
  inside_induction (P := Supports s.value) formed (.zero (by simp)) (supports_leaf fractions)
    (fun constant supports => supports.remembered constant)
    (fun _ _ _ supports first second => supports_addKnown fractions supports first second) within

end

end StochasticGrammar
