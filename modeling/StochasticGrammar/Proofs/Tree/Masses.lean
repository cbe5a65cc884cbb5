import Mathlib.Algebra.BigOperators.Group.Finset.Sigma
import Mathlib.Algebra.Order.BigOperators.Group.Finset
import Mathlib.Algebra.Order.BigOperators.Group.List
import Mathlib.Algebra.Order.Ring.Rat
import StochasticGrammar.Proofs.Tree.Exact
import StochasticGrammar.Proofs.Tree.Growth

/-!
What the trees of a non-terminal weigh together. If the values of the rules of each non-terminal add up
to at most one, so do the weights of all trees down to a depth, and every finite set of trees is among
those. Strings that differ have no tree in common, so that their weights add up to at most one as well.
-/

namespace StochasticGrammar

namespace RuleSet

/-- The trees of a non-terminal down to a depth. -/
def trees (g : RuleSet) : (levels nt : Nat) → List Derivation
  | 0, _ => []
  | levels + 1, nt => (g.rulesOf nt).flatMap fun rule =>
    match g.production? rule with
    | some (.binary a b) =>
      (g.trees levels a).flatMap fun left => (g.trees levels b).map fun right => .node rule left right
    | _ => [.leaf rule]

theorem mem_trees {g : RuleSet} (formed : g.WellFormed) {levels nt : Nat} {tree : Derivation} :
    tree ∈ g.trees levels nt ↔ g.Rooted tree nt ∧ tree.depth ≤ levels := by
  induction levels generalizing nt tree with
  | zero => cases tree <;> simp [trees, Derivation.depth]
  | succ levels ih =>
    rw [trees, List.mem_flatMap]
    constructor
    · rintro ⟨rule, member, below⟩
      rcases (mem_rulesOf formed).mp member with ⟨production, found⟩
      rw [production_eq_some_iff.mpr ⟨nt, found⟩] at below
      cases production with
      | terminal terminal =>
        cases List.mem_singleton.mp below
        exact ⟨.leaf found, Nat.le_add_left 1 levels⟩
      | binary a b =>
        simp only [List.mem_flatMap, List.mem_map] at below
        rcases below with ⟨left, first, right, second, rfl⟩
        rcases ih.mp first with ⟨rooted, low⟩
        rcases ih.mp second with ⟨rooted', low'⟩
        exact ⟨.node found rooted rooted', Nat.succ_le_succ (max_le low low')⟩
    · rintro ⟨rooted, low⟩
      cases rooted with
      | @leaf rule _ terminal found =>
        refine ⟨rule, (mem_rulesOf formed).mpr ⟨_, found⟩, ?_⟩
        rw [production_eq_some_iff.mpr ⟨nt, found⟩]
        exact List.mem_singleton_self _
      | @node rule _ a b left right found first second =>
        refine ⟨rule, (mem_rulesOf formed).mpr ⟨_, found⟩, ?_⟩
        obtain ⟨low, low'⟩ := max_le_iff.mp (Nat.le_of_succ_le_succ low)
        rw [production_eq_some_iff.mpr ⟨nt, found⟩]
        simp only [List.mem_flatMap, List.mem_map]
        exact ⟨left, ih.mpr ⟨first, low⟩, right, ih.mpr ⟨second, low'⟩, rfl⟩

end RuleSet

namespace Sentence.Derives

variable {W : Type} {s : Sentence W} {tree : Derivation} {start stop nt : Nat}

theorem rooted (derives : s.Derives tree start stop nt) : s.rules.Rooted tree nt := by
  induction derives with
  | leaf found token => exact .leaf found
  | node found first second firstIh secondIh => exact .node found firstIh secondIh

/-- A tree yields the tokens that it derives. -/
theorem yield_eq (derives : s.Derives tree start stop nt) :
    tree.yield s.rules = (s.tokens.extract start (stop + 1)).toList := by
  induction derives with
  | @leaf rule i nt t found token =>
    obtain ⟨inside, rfl⟩ := Array.getElem?_eq_some_iff.mp token
    rw [Derivation.yield, RuleSet.production_eq_some_iff.mpr ⟨nt, found⟩]
    simp [Array.extract_succ_right, inside]
  | @node rule start m stop nt a b left right found first second firstIh secondIh =>
    have order := first.order
    have order' := second.order
    rw [Derivation.yield, firstIh, secondIh, ← Array.toList_append, Array.extract_append_extract,
      Nat.min_eq_left (by omega), Nat.max_eq_right (by omega)]

end Sentence.Derives

namespace WeightedRules

/-- Values from zero up whose sum is at most one for each non-terminal. -/
structure Substochastic (g : WeightedRules ℚ) : Prop where
  formed : g.rules.WellFormed
  least : ∀ rule < g.rules.size, 0 ≤ g.value rule
  most : ∀ nt < g.rules.nonTerminals, ((g.rules.rulesOf nt).map g.value).sum ≤ 1

/-- What the trees of a non-terminal weigh, down to a depth. -/
def treeMass (g : WeightedRules ℚ) (levels nt : Nat) : ℚ :=
  ((g.rules.trees levels nt).map (·.weight g.value)).sum

namespace Substochastic

variable {g : WeightedRules ℚ} (bounded : g.Substochastic)

include bounded

theorem value_nonneg {rule : Nat} {found : Rule} (known : g.rules.rules[rule]? = some found) :
    0 ≤ g.value rule :=
  bounded.least rule (Array.getElem?_eq_some_iff.mp known).1

theorem weight_nonneg {tree : Derivation} {nt : Nat} (rooted : g.rules.Rooted tree nt) :
    0 ≤ tree.weight g.value := by
  induction rooted with
  | leaf found => exact bounded.value_nonneg found
  | node found first second firstIh secondIh =>
    exact mul_nonneg (mul_nonneg (bounded.value_nonneg found) firstIh) secondIh

theorem treeMass_nonneg (levels nt : Nat) : 0 ≤ g.treeMass levels nt := by
  apply List.sum_nonneg
  simp only [List.mem_map]
  rintro _ ⟨tree, member, rfl⟩
  exact bounded.weight_nonneg ((RuleSet.mem_trees bounded.formed).mp member).1

/-- One more level: below each rule are the trees of its symbols, which weigh at most one. -/
theorem treeMass_le_one {levels nt : Nat} (inside : nt < g.rules.nonTerminals) :
    g.treeMass levels nt ≤ 1 := by
  induction levels generalizing nt with
  | zero => exact zero_le_one
  | succ levels ih =>
    rw [treeMass, RuleSet.trees, sum_flatMap]
    refine le_trans (List.sum_le_sum fun rule member => ?_) (bounded.most nt inside)
    rcases (RuleSet.mem_rulesOf bounded.formed).mp member with ⟨production, found⟩
    rw [RuleSet.production_eq_some_iff.mpr ⟨nt, found⟩]
    cases production with
    | terminal terminal => exact (add_zero (g.value rule)).le
    | binary a b =>
      have known := bounded.formed.binary (Array.mem_of_getElem? found)
      have value := bounded.value_nonneg found
      have front := mul_le_of_le_one_right value (ih known.2.1)
      change (((g.rules.trees levels a).flatMap fun left => (g.rules.trees levels b).map fun right =>
        Derivation.node rule left right).map (Derivation.weight g.value)).sum ≤ g.value rule
      rw [nodes_total]
      calc g.value rule * g.treeMass levels a * g.treeMass levels b
          ≤ g.value rule * g.treeMass levels a :=
            mul_le_of_le_one_right (mul_nonneg value (bounded.treeMass_nonneg levels a)) (ih known.2.2)
        _ ≤ g.value rule := front

theorem sum_trees_le_one {nt : Nat} (inside : nt < g.rules.nonTerminals) (trees : Finset Derivation)
    (rooted : ∀ tree ∈ trees, g.rules.Rooted tree nt) : ∑ tree ∈ trees, tree.weight g.value ≤ 1 := by
  let levels := trees.sup Derivation.depth
  have among : trees.toList ⊆ g.rules.trees levels nt := by
    intro tree member
    rw [Finset.mem_toList] at member
    exact (RuleSet.mem_trees bounded.formed).mpr ⟨rooted tree member, Finset.le_sup member⟩
  rcases trees.nodup_toList.subperm among with ⟨chosen, same, part⟩
  calc ∑ tree ∈ trees, tree.weight g.value
      = (chosen.map (·.weight g.value)).sum := by
        rw [← Finset.sum_map_toList]
        exact (same.map _).sum_eq.symm
    _ ≤ g.treeMass levels nt := by
        apply (part.map _).sum_le_sum
        simp only [List.mem_map]
        rintro _ ⟨tree, member, rfl⟩
        exact bounded.weight_nonneg ((RuleSet.mem_trees bounded.formed).mp member).1
    _ ≤ 1 := bounded.treeMass_le_one inside


/-- No two strings have a tree in common. -/
theorem sum_strings_le_one {nt : Nat} (inside : nt < g.rules.nonTerminals) (strings : Finset (Array Nat))
    (nonempty : ∀ tokens ∈ strings, 0 < tokens.size) :
    ∑ tokens ∈ strings, ({ g with tokens } : Sentence ℚ).plainInside 0 (tokens.size - 1) nt ≤ 1 := by
  let trees (tokens : Array Nat) : Finset Derivation :=
    (({ g with tokens } : Sentence ℚ).derivations 0 (tokens.size - 1) nt).toFinset
  have mem_trees (tokens : Array Nat) (tree : Derivation) : tree ∈ trees tokens ↔
      ({ g with tokens } : Sentence ℚ).Derives tree 0 (tokens.size - 1) nt := by
    rw [List.mem_toFinset, mem_derivations bounded.formed (Nat.zero_le _)]
  have apart : (strings : Set (Array Nat)).PairwiseDisjoint trees := by
    intro tokens member other member' different
    rw [Function.onFun, Finset.disjoint_left]
    intro tree first second
    have yielded := ((mem_trees tokens tree).mp first).yield_eq
    have yielded' := ((mem_trees other tree).mp second).yield_eq
    have full (word : Array Nat) (some : 0 < word.size) : word.extract 0 (word.size - 1 + 1) = word := by
      rw [Nat.sub_add_cancel some, Array.extract_size]
    rw [full tokens (nonempty tokens member)] at yielded
    rw [full other (nonempty other member')] at yielded'
    exact different (Array.toList_inj.mp (yielded.symm.trans yielded'))
  calc ∑ tokens ∈ strings, ({ g with tokens } : Sentence ℚ).plainInside 0 (tokens.size - 1) nt
      = ∑ tokens ∈ strings, ∑ tree ∈ trees tokens, tree.weight g.value :=
        Finset.sum_congr rfl fun tokens _ => (sum_derivations bounded.formed (Nat.zero_le _)).symm
    _ = ∑ tree ∈ strings.biUnion trees, tree.weight g.value := (Finset.sum_biUnion apart).symm
    _ ≤ 1 := by
        apply bounded.sum_trees_le_one inside
        intro tree member
        rcases Finset.mem_biUnion.mp member with ⟨tokens, -, derived⟩
        exact ((mem_trees tokens tree).mp derived).rooted

theorem plainInside_mem {tokens : Array Nat} {start stop nt : Nat} (order : start ≤ stop)
    (inside : nt < g.rules.nonTerminals) :
    ({ g with tokens } : Sentence ℚ).plainInside start stop nt ∈ Set.Icc 0 1 := by
  have rooted : ∀ tree ∈ (({ g with tokens } : Sentence ℚ).derivations start stop nt).toFinset,
      g.rules.Rooted tree nt := by
    intro tree member
    rw [List.mem_toFinset, mem_derivations bounded.formed order] at member
    exact member.rooted
  rw [← sum_derivations bounded.formed order]
  exact ⟨Finset.sum_nonneg fun tree member => bounded.weight_nonneg (rooted tree member),
    bounded.sum_trees_le_one inside _ rooted⟩

end Substochastic

end WeightedRules

/-- If no non-terminal has rules that are worth more than one together, the weights of strings that differ
add up to at most one, from every non-terminal; and each weight of a span lies between zero and one. -/
theorem weights_at_most_one {d : Declarations} {g : Grammar} (built : d.grammar = .ok g) (value : Nat → ℚ)
    (certain : Nat → Bool) (least : ∀ rule < g.rules.size, 0 ≤ value rule)
    (most : ∀ nt < g.rules.nonTerminals, ((g.rules.rulesOf nt).map value).sum ≤ 1)
    (earlier : Array Nat → Cell → List Cell) :
    let s (tokens : Array Nat) : Sentence ℚ := { rules := g.rules, value, certain, tokens }
    let weight (tokens : Array Nat) (cell : Cell) : ℚ := (s tokens).answer (earlier tokens cell) cell
    (∀ nt < g.rules.nonTerminals, ∀ strings : Finset (Array Nat), (∀ tokens ∈ strings, 0 < tokens.size) →
      ∑ tokens ∈ strings, weight tokens (.inside 0 (tokens.size - 1) nt) ≤ 1) ∧
    (∀ tokens start stop nt, (s tokens).grid.Holds start stop nt →
      weight tokens (.inside start stop nt) ∈ Set.Icc 0 1) ∧
    ∀ tokens : Array Nat, 0 < tokens.size →
      weight tokens (.inside 0 (tokens.size - 1) g.rules.start) ∈ Set.Icc 0 1 := by
  intro s weight
  have formed : g.rules.WellFormed := Grammar.rules_wellFormed built
  have bounded : WeightedRules.Substochastic ⟨g.rules, value, certain⟩ := ⟨formed, least, most⟩
  have whole {tokens : Array Nat} (some : 0 < tokens.size) {nt : Nat} (inside : nt < g.rules.nonTerminals) :
      (s tokens).grid.Holds 0 (tokens.size - 1) nt :=
    ⟨Nat.zero_le _, Nat.sub_lt some Nat.one_pos, inside⟩
  have spans (tokens : Array Nat) (start stop nt : Nat) (holds : (s tokens).grid.Holds start stop nt) :
      weight tokens (.inside start stop nt) ∈ Set.Icc 0 1 := by
    have summed : weight tokens (.inside start stop nt) = (s tokens).plainInside start stop nt :=
      answer_eq_plain formed _ holds
    rw [summed]
    exact bounded.plainInside_mem holds.1 holds.2.2
  refine ⟨fun nt inside strings nonempty => ?_, spans,
    fun tokens some => spans tokens _ _ _ (whole some formed.start)⟩
  refine le_of_eq_of_le (Finset.sum_congr rfl fun tokens member => ?_)
    (bounded.sum_strings_le_one inside strings nonempty)
  exact answer_eq_plain (s := s tokens) formed _ (whole (nonempty tokens member) inside)

/-- Four words that begin with `a`, and a span of the longest of them. -/
theorem sample_weights_at_most_one :
    let g := Declarations.sampleGrammar 0.25
    let value : Nat → ℚ := fun rule => if rule = 0 then 1 / 2 else if rule = 1 then 1 else 1 / 4
    let weight (tokens : Array Nat) (cell : Cell) : ℚ :=
      ({ rules := g.rules, value, certain := fun _ => false, tokens } : Sentence ℚ).answer [] cell
    ∑ tokens ∈ {#[0], #[0, 0], #[0, 1], #[0, 0, 1]}, weight tokens (.inside 0 (tokens.size - 1) 0) ≤ 1 ∧
      weight #[0, 0, 1] (.inside 0 1 0) ∈ Set.Icc 0 1 := by
  intro g value weight
  have least : ∀ rule < g.rules.size, 0 ≤ value rule := by
    intro rule _
    simp only [value]
    split
    · norm_num
    · split <;> norm_num
  have first : g.rules.rulesOf 0 = [0, 2, 3] := by rfl
  have second : g.rules.rulesOf 1 = [1] := by rfl
  have most : ∀ nt < g.rules.nonTerminals, ((g.rules.rulesOf nt).map value).sum ≤ 1 := by
    intro nt inside
    have two : g.rules.nonTerminals = 2 := Declarations.sample_nonTerminals 0.25
    rw [two] at inside
    interval_cases nt
    · norm_num [first, value]
    · norm_num [second, value]
  obtain ⟨strings, spans, -⟩ := weights_at_most_one (Declarations.sample_grammar 0.25) value (fun _ => false)
    least most fun _ _ => []
  refine ⟨strings 0 (by decide) _ ?_, spans #[0, 0, 1] 0 1 0 (by decide)⟩
  simp

end StochasticGrammar
