import StochasticGrammar.Proofs.Double.Fractions
import StochasticGrammar.Proofs.Tree.Derives
import StochasticGrammar.Proofs.Tree.FirstBest

/-!
The chart of the best derivations. Every entry is the first of the heaviest derivations of its span
and its non-terminal, and so are all trees below it; where there is no entry all derivations weigh
nothing. Rounding is monotone, so that better children never make for a worse tree.
-/

namespace StochasticGrammar

open Double

/-- Whether a node comes before another in the order of rules, and then of splits. -/
def Derivation.Placed.Precedes (a b : Derivation.Placed) : Prop :=
  a.rule < b.rule ∨ a.rule = b.rule ∧ a.split.getD 0 ≤ b.split.getD 0

namespace Sentence

section

variable {W : Type} [Weight W] (s : Sentence W)

/-- Derivations by rules of positive weight only. -/
def Usable (tree : Derivation) (start stop nt : Nat) : Prop :=
  s.Derives tree start stop nt ∧ ∀ rule ∈ tree.rules, 0 < s.value rule

def Maximal (tree : Derivation) (start stop nt : Nat) : Prop :=
  s.Usable tree start stop nt ∧
    ∀ other, s.Usable other start stop nt → ¬ tree.weight s.value < other.weight s.value

/-- The root comes before those of all other derivations of maximal weight. -/
def Chosen (tree : Derivation) (start stop nt : Nat) : Prop :=
  s.Maximal tree start stop nt ∧
    ∀ other, s.Maximal other start stop nt → (tree.root start).Precedes (other.root start)

/-- The rules and splits of a span, in the order in which they are tried. -/
def pairs (start stop nt : Nat) : List (BinaryRule × Nat) :=
  (s.rules.binariesOf nt).flatMap fun r => (List.range' start (stop - start)).map fun m => (r, m)

def tryPair (chart : BestChart W) (start stop : Nat) (pair : BinaryRule × Nat) : Option (Best W) :=
  if 0 < s.value pair.1.index then
    match chart.get? start pair.2 pair.1.left, chart.get? (pair.2 + 1) stop pair.1.right with
    | some left, some right =>
      some ⟨s.value pair.1.index * left.weight * right.weight, .node pair.1.index left.tree right.tree⟩
    | _, _ => none
  else none

end

variable (s : Sentence Float)

structure IsBest (best : Best Float) (start stop nt : Nat) : Prop where
  usable : s.Usable best.tree start stop nt
  weight : best.weight = best.tree.weight s.value
  positive : 0 < level best.weight
  greatest : ∀ other, s.Usable other start stop nt → level (other.weight s.value) ≤ level best.weight
  chosen : ∀ part ∈ best.tree.parts start, ∃ stop' nt', s.Chosen part.2 part.1 stop' nt'

def BestOf (start stop nt : Nat) : Option (Best Float) → Prop
  | none => ∀ tree, s.Usable tree start stop nt → level (tree.weight s.value) = 0
  | some best => s.IsBest best start stop nt

/-- All spans that reach less than `reach` tokens beyond their start are in the chart. -/
def Filled (chart : BestChart Float) (reach : Nat) : Prop :=
  ∀ start stop nt : Nat, start ≤ stop → stop - start < reach → stop < s.tokens.size →
    nt < s.rules.nonTerminals → s.BestOf start stop nt (chart.get? start stop nt)

end Sentence

section

variable {W : Type} {s : Sentence W} {start stop nt : Nat}

theorem mayEnclose_of_mayCover (cover : s.mayCover nt start stop = true) :
    s.mayEnclose nt start stop = true := by
  rcases mayCover_iff.mp cover with ⟨a, b, begins, ends, first, last, -⟩
  simp [Sentence.mayEnclose, begins, ends, first, last]

theorem mem_pairs (formed : s.rules.WellFormed) {pair : BinaryRule × Nat} :
    pair ∈ s.pairs start stop nt ↔
      s.rules.rules[pair.1.index]? = some ⟨nt, .binary pair.1.left pair.1.right⟩ ∧ pair.1.lhs = nt ∧
        start ≤ pair.2 ∧ pair.2 < stop := by
  simp only [Sentence.pairs, List.mem_flatMap, List.mem_map, List.mem_range'_1,
    RuleSet.mem_binariesOf formed]
  constructor
  · intro listed
    rcases listed with ⟨r, ⟨found, same⟩, m, ⟨low, high⟩, rfl⟩
    exact ⟨found, same, low, by omega⟩
  · intro fits
    rcases fits with ⟨found, same, low, high⟩
    exact ⟨pair.1, ⟨found, same⟩, pair.2, ⟨low, by omega⟩, rfl⟩

/-- Rules ascend, and for each rule its splits. -/
theorem pairwise_pairs (formed : s.rules.WellFormed) (start stop nt : Nat) :
    (s.pairs start stop nt).Pairwise fun a b =>
      a.1.index < b.1.index ∨ a.1.index = b.1.index ∧ a.2 ≤ b.2 := by
  rw [Sentence.pairs, RuleSet.binariesOf_eq formed]
  apply List.pairwise_flatMap.mpr
  constructor
  · intro r member
    apply List.pairwise_map.mpr
    apply List.Pairwise.imp _ List.pairwise_le_range'
    intro m m' less
    exact .inr ⟨rfl, less⟩
  · apply ((pairwise_index s.rules.rules).filter _).imp
    intro r r' less a member b member'
    rcases List.mem_map.mp member with ⟨m, -, rfl⟩
    rcases List.mem_map.mp member' with ⟨m', -, rfl⟩
    exact .inl less

end

section

variable {W : Type} [Weight W] {s : Sentence W} {chart : BestChart W} {start stop nt : Nat}

theorem tryRule_eq (best : Option (Best W)) (r : BinaryRule) :
    s.tryRule chart start stop best r =
      ((List.range' start (stop - start)).map fun m => (r, m)).foldl
        (keepBetter (s.tryPair chart start stop)) best := by
  rw [List.foldl_map, Sentence.tryRule]
  by_cases positive : 0 < s.value r.index
  · rw [if_pos positive]
    congr 1
    funext best m
    simp only [Sentence.trySplit, keepBetter, Sentence.tryPair, if_pos positive]
    cases chart.get? start m r.left with
    | none => rfl
    | some left =>
      cases chart.get? (m + 1) stop r.right with
      | none => rfl
      | some right => rfl
  · rw [if_neg positive]
    have skip : ∀ m, keepBetter (s.tryPair chart start stop) best (r, m) = best := by
      intro m
      simp only [keepBetter, Sentence.tryPair, if_neg positive]
    exact (List.foldl_fixed' skip _).symm

/-- The search of a span goes through its rules and splits one by one. -/
theorem bestSpan_eq (enclosed : s.mayEnclose nt start stop = true) :
    s.bestSpan chart start stop nt =
      (s.pairs start stop nt).foldl (keepBetter (s.tryPair chart start stop)) none := by
  rw [Sentence.bestSpan, if_pos enclosed, Sentence.pairs, List.foldl_flatMap]
  congr 1
  funext best r
  exact tryRule_eq best r

/-- What each row keeps that is added to the rows of the shorter spans holds of the whole chart. -/
theorem bestChart_induction {P : BestChart W → Nat → Prop} (start : P #[] 0)
    (step : ∀ (chart : BestChart W) (reach : Nat), chart.size = reach → P chart reach →
      P (chart.push (s.bestRow chart reach)) (reach + 1)) : P s.bestChart s.tokens.size := by
  have rows (count : Nat) : ∀ chart : BestChart W,
      chart = (List.range count).foldl (fun (chart : BestChart W) (reach : Nat) =>
        chart.push (s.bestRow chart reach)) #[] → chart.size = count ∧ P chart count := by
    induction count with
    | zero =>
      intro chart same
      subst same
      exact ⟨rfl, start⟩
    | succ count ih =>
      intro chart same
      subst same
      rw [List.range_succ, List.foldl_append, List.foldl_cons, List.foldl_nil]
      obtain ⟨size, kept⟩ := ih _ rfl
      exact ⟨by rw [Array.size_push, size], step _ count size kept⟩
  exact (rows s.tokens.size s.bestChart rfl).2

/-- A token has at most one derivation from a non-terminal. -/
theorem usable_token (formed : s.rules.WellFormed) {tree : Derivation} (usable : s.Usable tree start start nt) :
    ∃ rule, tree = .leaf rule ∧ (s.tokens[start]?).bind (s.rules.terminalRule? nt) = some rule := by
  rcases usable with ⟨derives, -⟩
  cases derives with
  | leaf found token =>
    refine ⟨_, rfl, ?_⟩
    rw [token]
    exact (RuleSet.terminalRule_eq_some_iff formed).mpr found
  | node found first second =>
    have low := first.order
    have high := second.order
    omega

theorem tryPair_eq_some {pair : BinaryRule × Nat} {new : Best W}
    (found : s.tryPair chart start stop pair = some new) :
    0 < s.value pair.1.index ∧ ∃ left right, chart.get? start pair.2 pair.1.left = some left ∧
      chart.get? (pair.2 + 1) stop pair.1.right = some right ∧
      new = ⟨s.value pair.1.index * left.weight * right.weight,
        .node pair.1.index left.tree right.tree⟩ := by
  unfold Sentence.tryPair at found
  split at found
  · rename_i positive
    split at found
    · rename_i left right first second
      cases found
      exact ⟨positive, left, right, first, second, rfl⟩
    · cases found
  · cases found

end

section

variable {s : Sentence Float} {chart : BestChart Float} {start stop nt : Nat}

variable (bounded : ∀ rule, ¬ 1.0 < s.value rule)

include bounded

theorem fraction_weight {tree : Derivation} (usable : s.Usable tree start stop nt) :
    Fraction (tree.weight s.value) := by
  rcases usable with ⟨derives, positive⟩
  induction derives with
  | leaf found token =>
    exact fraction_of_pos (positive _ (List.mem_singleton_self _)) (bounded _)
  | node found first second firstIh secondIh =>
    obtain ⟨here, left, right⟩ := Derivation.forall_mem_rules_node.mp positive
    have front := (Fraction.mul (fraction_of_pos here (bounded _)) (firstIh left)).1
    exact (Fraction.mul front (secondIh right)).1

theorem not_lt_iff_level {tree other : Derivation} (usable : s.Usable tree start stop nt)
    (usable' : s.Usable other start stop nt) : ¬ tree.weight s.value < other.weight s.value ↔
      level (other.weight s.value) ≤ level (tree.weight s.value) := by
  rw [lt_iff_level (fraction_weight bounded usable).1 (fraction_weight bounded usable').1, Nat.not_lt]

theorem level_node {rule : Nat} {left right : Derivation} {m a b : Nat} (positive : 0 < s.value rule)
    (first : s.Usable left start m a) (second : s.Usable right (m + 1) stop b) :
    Fraction ((Derivation.node rule left right).weight s.value) ∧
      level ((Derivation.node rule left right).weight s.value) =
        rounded (rounded (level (s.value rule) * level (left.weight s.value)) *
          level (right.weight s.value)) := by
  have here := fraction_of_pos positive (bounded rule)
  rcases Fraction.mul here (fraction_weight bounded first) with ⟨front, frontLevel⟩
  rcases Fraction.mul front (fraction_weight bounded second) with ⟨whole, wholeLevel⟩
  refine ⟨whole, ?_⟩
  rw [← frontLevel]
  exact wholeLevel

end

section

variable {s : Sentence Float} {chart : BestChart Float} {start stop nt : Nat}
  (formed : s.rules.WellFormed) (filled : s.Filled chart (stop - start)) (inside : stop < s.tokens.size)

include formed filled inside

/-- What a pair makes of the best children is a derivation of the span. -/
theorem tryPair_sound {pair : BinaryRule × Nat} (member : pair ∈ s.pairs start stop nt)
    {new : Best Float} (found : s.tryPair chart start stop pair = some new) :
    ∃ left right, s.IsBest left start pair.2 pair.1.left ∧ s.IsBest right (pair.2 + 1) stop pair.1.right ∧
      new = ⟨s.value pair.1.index * left.weight * right.weight,
        .node pair.1.index left.tree right.tree⟩ ∧
      s.Usable new.tree start stop nt ∧ new.weight = new.tree.weight s.value := by
  rcases (mem_pairs formed).mp member with ⟨present, -, low, high⟩
  rcases formed.binary (Array.mem_of_getElem? present) with ⟨-, leftRange, rightRange⟩
  rcases tryPair_eq_some found with ⟨positive, left, right, first, second, rfl⟩
  have isLeft := filled start pair.2 pair.1.left low (by omega) (by omega) leftRange
  have isRight := filled (pair.2 + 1) stop pair.1.right high (by omega) inside rightRange
  rw [first] at isLeft
  rw [second] at isRight
  refine ⟨left, right, isLeft, isRight, rfl, ⟨.node present isLeft.usable.1 isRight.usable.1, ?_⟩, ?_⟩
  · exact Derivation.forall_mem_rules_node.mpr ⟨positive, isLeft.usable.2, isRight.usable.2⟩
  · rw [isLeft.weight, isRight.weight]
    rfl

variable (bounded : ∀ rule, ¬ 1.0 < s.value rule)

include bounded

/-- A derivation that weighs something is outdone by what its rule and its split make. -/
theorem tryPair_dominates {tree : Derivation} (long : start < stop)
    (usable : s.Usable tree start stop nt) (positive : 0 < level (tree.weight s.value)) :
    ∃ pair ∈ s.pairs start stop nt, ∃ new, s.tryPair chart start stop pair = some new ∧
      level (tree.weight s.value) ≤ level new.weight ∧
      (tree.root start).rule = pair.1.index ∧ (tree.root start).split = some pair.2 := by
  rcases usable with ⟨derives, rules⟩
  cases derives with
  | leaf found token => omega
  | @node rule _ m _ _ a b left right found first second =>
    rcases formed.binary (Array.mem_of_getElem? found) with ⟨-, leftRange, rightRange⟩
    have low := first.order
    have high := second.order
    obtain ⟨here, inLeft, inRight⟩ := Derivation.forall_mem_rules_node.mp rules
    have leftUsable : s.Usable left start m a := ⟨first, inLeft⟩
    have rightUsable : s.Usable right (m + 1) stop b := ⟨second, inRight⟩
    have amount := (level_node bounded here leftUsable rightUsable).2
    have isLeft := filled start m a low (by omega) (by omega) leftRange
    have isRight := filled (m + 1) stop b high (by omega) inside rightRange
    cases leftFound : chart.get? start m a with
    | none =>
      rw [leftFound] at isLeft
      rw [amount, isLeft left leftUsable, Nat.mul_zero, rounded_zero, Nat.zero_mul, rounded_zero] at positive
      cases positive
    | some bestLeft =>
      cases rightFound : chart.get? (m + 1) stop b with
      | none =>
        rw [rightFound] at isRight
        rw [amount, isRight right rightUsable, Nat.mul_zero, rounded_zero] at positive
        cases positive
      | some bestRight =>
        rw [leftFound] at isLeft
        rw [rightFound] at isRight
        refine ⟨(⟨rule, nt, a, b⟩, m), (mem_pairs formed).mpr ⟨found, rfl, low, high⟩,
          ⟨s.value rule * bestLeft.weight * bestRight.weight, .node rule bestLeft.tree bestRight.tree⟩,
          ?_, ?_, rfl, first.node_parts.1⟩
        · simp only [Sentence.tryPair, if_pos here, leftFound, rightFound]
        · have best := (level_node bounded here isLeft.usable isRight.usable).2
          have better : level (s.value rule * bestLeft.weight * bestRight.weight) =
              rounded (rounded (level (s.value rule) * level bestLeft.weight) * level bestRight.weight) := by
            rw [isLeft.weight, isRight.weight]
            exact best
          rw [amount, better]
          apply rounded_mono
          apply Nat.mul_le_mul _ (isRight.greatest right rightUsable)
          apply rounded_mono
          exact Nat.mul_le_mul_left _ (isLeft.greatest left leftUsable)

theorem isBest_of_firstBest (long : start < stop) {best : Best Float}
    (first : FirstBest (s.tryPair chart start stop) (s.pairs start stop nt) (some best)) :
    s.IsBest best start stop nt := by
  have most := first.greatest
  rcases first with ⟨before, pair, after, split, found, positive, less, -⟩
  have member : pair ∈ s.pairs start stop nt := by
    rw [split]
    exact List.mem_append_right _ List.mem_cons_self
  obtain ⟨left, right, isLeft, isRight, made, usable, weight⟩ :=
    tryPair_sound formed filled inside member found
  have tree : best.tree = .node pair.1.index left.tree right.tree := by rw [made]
  have greatest : ∀ other, s.Usable other start stop nt →
      level (other.weight s.value) ≤ level best.weight := by
    intro other usable'
    rcases Nat.eq_zero_or_pos (level (other.weight s.value)) with zero | some
    · omega
    · obtain ⟨pair', member', new, found', atLeast, -⟩ :=
        tryPair_dominates formed filled inside bounded long usable' some
      exact Nat.le_trans atLeast (most pair' member' new found')
  have maximal : s.Maximal best.tree start stop nt := by
    refine ⟨usable, ?_⟩
    intro other usable'
    rw [not_lt_iff_level bounded usable usable', ← weight]
    exact greatest other usable'
  obtain ⟨cut, parts⟩ :
      ((Derivation.node pair.1.index left.tree right.tree).root start).split = some pair.2 ∧ _ :=
    isLeft.usable.1.node_parts
  have precedes : ∀ other, s.Maximal other start stop nt →
      (best.tree.root start).Precedes (other.root start) := by
    intro other maximal'
    have equal := (not_lt_iff_level bounded maximal'.1 usable).mp (maximal'.2 best.tree usable)
    rw [← weight] at equal
    obtain ⟨pair', member', new, found', atLeast, rule, cut'⟩ :=
      tryPair_dominates formed filled inside bounded long maximal'.1 (by omega)
    have order := pairwise_pairs formed start stop nt
    rw [split] at order member'
    rw [Derivation.Placed.Precedes, rule, cut', tree, cut]
    rcases List.mem_append.mp member' with early | late
    · have smaller := less pair' early new found'
      omega
    · rcases List.mem_cons.mp late with rfl | late
      · exact .inr ⟨rfl, Nat.le_refl _⟩
      · exact List.rel_of_pairwise_cons (List.pairwise_append.mp order).2.1 late
  refine ⟨usable, weight, positive, greatest, ?_⟩
  intro part within
  rw [tree, parts] at within
  rcases List.mem_cons.mp within with rfl | below
  · refine ⟨stop, nt, ?_⟩
    rw [← tree]
    exact ⟨maximal, precedes⟩
  · rcases List.mem_append.mp below with inLeft | inRight
    · exact isLeft.chosen part inLeft
    · exact isRight.chosen part inRight

theorem bestSpan_bestOf (long : start < stop) :
    s.BestOf start stop nt (s.bestSpan chart start stop nt) := by
  by_cases enclosed : s.mayEnclose nt start stop = true
  · rw [bestSpan_eq enclosed]
    have first : FirstBest (s.tryPair chart start stop) (s.pairs start stop nt)
        ((s.pairs start stop nt).foldl (keepBetter (s.tryPair chart start stop)) none) := by
      apply firstBest_foldl
      intro pair member new found
      rcases tryPair_sound formed filled inside member found with ⟨-, -, -, -, -, usable, weight⟩
      rw [weight]
      exact fraction_weight bounded usable
    revert first
    generalize (s.pairs start stop nt).foldl (keepBetter (s.tryPair chart start stop)) none = kept
    intro first
    cases kept with
    | none =>
      intro tree usable
      apply Decidable.byContradiction
      intro some
      obtain ⟨pair, member, new, found, atLeast, -⟩ :=
        tryPair_dominates formed filled inside bounded long usable (Nat.pos_of_ne_zero some)
      have zero := first pair member new found
      omega
    | some best => exact isBest_of_firstBest formed filled inside bounded long first
  · rw [Sentence.bestSpan, if_neg enclosed]
    intro tree usable
    have cover := mayEnclose_of_mayCover (usable.1.mayCover formed)
    exact absurd cover enclosed

end

section

variable {s : Sentence Float} (formed : s.rules.WellFormed) (bounded : ∀ rule, ¬ 1.0 < s.value rule)

include formed bounded

theorem bestToken_bestOf (start nt : Nat) : s.BestOf start start nt (s.bestToken start nt) := by
  unfold Sentence.bestToken
  cases known : (s.tokens[start]?).bind (s.rules.terminalRule? nt) with
  | none =>
    intro tree usable
    rcases usable_token formed usable with ⟨rule, -, known'⟩
    rw [known] at known'
    cases known'
  | some rule =>
    have only : ∀ tree, s.Usable tree start start nt → tree = .leaf rule := by
      intro tree usable
      rcases usable_token formed usable with ⟨rule', rfl, known'⟩
      rw [known] at known'
      cases known'
      rfl
    simp only [Option.bind_eq_bind, Option.bind_some, better]
    split
    · rename_i positive
      rcases Option.bind_eq_some_iff.mp known with ⟨t, token, found⟩
      have fraction := fraction_of_pos positive (bounded rule)
      have usable : s.Usable (.leaf rule) start start nt := by
        refine ⟨.leaf ((RuleSet.terminalRule_eq_some_iff formed).mp found) token, ?_⟩
        intro other member
        cases List.mem_singleton.mp member
        exact positive
      refine ⟨usable, rfl, (pos_iff_level fraction).mp positive, ?_, ?_⟩
      · intro other usable'
        rw [only other usable']
        exact Nat.le_refl _
      · intro part member
        cases List.mem_singleton.mp member
        refine ⟨start, nt, ⟨usable, ?_⟩, ?_⟩
        · intro other usable'
          rw [only other usable', lt_iff_level (fraction_weight bounded usable).1
            (fraction_weight bounded usable).1]
          exact Nat.lt_irrefl _
        · intro other maximal
          rw [only other maximal.1]
          exact .inr ⟨rfl, Nat.le_refl _⟩
    · rename_i zero
      intro tree usable
      cases only tree usable
      exact absurd (usable.2 rule (List.mem_singleton_self _)) zero

theorem bestRow_bestOf {chart : BestChart Float} {reach : Nat} (filled : s.Filled chart reach)
    {start nt : Nat} (inside : start + reach < s.tokens.size) (range : nt < s.rules.nonTerminals) :
    ∃ row best, (s.bestRow chart reach)[start]? = some row ∧ row[nt]? = some best ∧
      s.BestOf start (start + reach) nt best := by
  have before : start < s.tokens.size - reach := by omega
  refine ⟨_, _, Array.getElem?_ofFn.trans (dif_pos before), Array.getElem?_ofFn.trans (dif_pos range), ?_⟩
  by_cases short : reach = 0
  · rw [if_pos short]
    change s.BestOf start (start + reach) nt (s.bestToken start nt)
    rw [short]
    exact bestToken_bestOf formed bounded start nt
  · rw [if_neg short]
    apply bestSpan_bestOf formed _ inside bounded (by omega)
    rw [Nat.add_sub_cancel_left]
    exact filled

theorem filled_push {chart : BestChart Float} {reach : Nat} (filled : s.Filled chart reach)
    (size : chart.size = reach) : s.Filled (chart.push (s.bestRow chart reach)) (reach + 1) := by
  intro start stop nt order short inside range
  by_cases old : stop - start < reach
  · have same : (chart.push (s.bestRow chart reach))[stop - start]? = chart[stop - start]? := by
      rw [Array.getElem?_push, if_neg (by omega)]
    have kept := filled start stop nt order old inside range
    unfold BestChart.get? at kept ⊢
    rw [same]
    exact kept
  · have here : start + reach < s.tokens.size := by omega
    rcases bestRow_bestOf formed bounded filled here range with ⟨row, best, rowFound, found, isBest⟩
    have last : (chart.push (s.bestRow chart reach))[stop - start]? = some (s.bestRow chart reach) := by
      rw [Array.getElem?_push, if_pos (by omega)]
    have whole : start + reach = stop := by omega
    rw [whole] at isBest
    unfold BestChart.get?
    rw [last, Option.bind_eq_bind, Option.bind_some, rowFound, Option.bind_eq_bind, Option.bind_some, found]
    exact isBest

theorem bestChart_filled : s.Filled s.bestChart s.tokens.size := by
  refine bestChart_induction ?_ ?_
  · intro start stop nt order short
    exact absurd short (Nat.not_lt_zero _)
  · intro chart reach size filled
    exact filled_push formed bounded filled size

end

end StochasticGrammar
