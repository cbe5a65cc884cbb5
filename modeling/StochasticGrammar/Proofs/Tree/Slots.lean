import Mathlib.Algebra.BigOperators.Group.List.Lemmas
import Mathlib.Algebra.Order.BigOperators.Group.List
import Mathlib.Data.Real.Basic
import Mathlib.Data.Set.Pairwise.Lattice
import Mathlib.Order.Interval.Set.Defs
import StochasticGrammar.Proofs.Tree.Growth

/-!
Choices in exact arithmetic. Each rule has a slot in the unit interval, as wide as its share of the
values of all rules of its non-terminal, and in their order. A draw chooses the rule in whose slot it
lies, and the slots leave nothing out.
-/

namespace StochasticGrammar

noncomputable instance : Weight ℝ where
  decidableLT := inferInstance

/-- All rules of the non-terminal of a rule. -/
def RuleSet.rivals (g : RuleSet) (rule : Nat) : List Nat := g.rulesOf ((g.lhs? rule).getD 0)

theorem RuleSet.rivals_eq {g : RuleSet} (formed : g.WellFormed) {nt rule : Nat} (member : rule ∈ g.rulesOf nt) :
    g.rivals rule = g.rulesOf nt := by
  rcases (mem_rulesOf formed).mp member with ⟨production, found⟩
  rw [rivals, lhs?, rule?, found]
  rfl

theorem RuleSet.rulesOf_nodup {g : RuleSet} (formed : g.WellFormed) (nt : Nat) : (g.rulesOf nt).Nodup := by
  have ascending {α : Type} {key : α → Nat} {items : List α} {p : α → Bool}
      (sorted : items.Pairwise fun r r' => key r < key r') : ((items.filter p).map key).Nodup := by
    rw [List.Nodup, List.pairwise_map]
    exact (sorted.filter p).imp Nat.ne_of_lt
  rw [rulesOf, terminalsOf_eq formed, binariesOf_eq formed, List.nodup_append]
  refine ⟨ascending (pairwise_index_terminal g.rules), ascending (pairwise_index g.rules), ?_⟩
  simp only [List.mem_map, List.mem_filter, mem_allTerminal, mem_allBinary]
  rintro _ ⟨r, ⟨found, -⟩, rfl⟩ _ ⟨r', ⟨found', -⟩, rfl⟩ same
  rw [same, found', Option.some.injEq, Rule.mk.injEq] at found
  cases found.2

namespace WeightedRules

/-- The values of the rules of a list before the given one. -/
def before (value : Nat → ℝ) (rules : List Nat) (rule : Nat) : ℝ :=
  ((rules.takeWhile fun other => decide (other ≠ rule)).map value).sum

section

variable {value : Nat → ℝ} {rules : List Nat} {rule : Nat}

theorem before_self : before value (rule :: rules) rule = 0 := by simp [before]

theorem before_cons {other : Nat} (different : other ≠ rule) :
    before value (other :: rules) rule = value other + before value rules rule := by
  simp [before, different]

theorem before_nonneg (least : ∀ rule ∈ rules, 0 ≤ value rule) : 0 ≤ before value rules rule := by
  apply List.sum_nonneg
  simp only [List.mem_map]
  rintro _ ⟨other, member, rfl⟩
  exact least other ((List.takeWhile_prefix _).subset member)

theorem before_add_le (least : ∀ rule ∈ rules, 0 ≤ value rule) (member : rule ∈ rules) :
    before value rules rule + value rule ≤ (rules.map value).sum := by
  induction rules with
  | nil => cases member
  | cons other rest ih =>
    rw [List.forall_mem_cons] at least
    rw [List.map_cons, List.sum_cons]
    by_cases same : other = rule
    · subst same
      have others : 0 ≤ (rest.map value).sum := List.sum_nonneg (List.forall_mem_map.mpr least.2)
      rw [before_self]
      linarith
    · rw [before_cons same]
      have inside : rule ∈ rest := (List.mem_cons.mp member).resolve_left (Ne.symm same)
      linarith [ih least.2 inside]

end

variable (g : WeightedRules ℝ)

noncomputable def total (rules : List Nat) : ℝ := (rules.map g.value).sum

/-- The share that a rule has of the values of its rivals. -/
noncomputable def chance (rule : Nat) : ℝ := g.value rule / g.total (g.rules.rivals rule)

/-- The draws that choose a rule. -/
noncomputable def slot (rule : Nat) : Set ℝ :=
  let low := before g.value (g.rules.rivals rule) rule / g.total (g.rules.rivals rule)
  Set.Ico low (low + g.chance rule)

variable {g} {rules : List Nat} {rule nt : Nat} {target sum : ℝ}

theorem positive_eq {value : ℝ} (least : 0 ≤ value) : positive value = value := by
  rw [positive]
  split
  · rfl
  · exact le_antisymm least (not_lt.mp ‹_›)

theorem mass_eq_total (least : ∀ rule ∈ rules, 0 ≤ g.value rule) : g.mass rules = g.total rules := by
  have same : rules.map (fun rule => positive (g.value rule)) = rules.map g.value :=
    List.map_congr_left fun rule member => positive_eq (least rule member)
  rw [mass, same, total, List.sum_eq_foldl]

/-- The rule that is picked is the one whose part of the sum has the target in it. -/
theorem pick_eq_some_iff (distinct : rules.Nodup) (least : ∀ rule ∈ rules, 0 ≤ g.value rule)
    (reached : sum ≤ target) :
    g.pick? target sum rules = some rule ↔
      rule ∈ rules ∧ sum + before g.value rules rule ≤ target ∧
        target < sum + before g.value rules rule + g.value rule := by
  induction rules generalizing sum with
  | nil => simp [pick?]
  | cons other rest ih =>
    rw [List.nodup_cons] at distinct
    rw [List.forall_mem_cons] at least
    simp only [pick?, positive_eq least.1]
    -- The part of the first rule begins at the sum, and those of all others after its end.
    by_cases same : other = rule
    · subst same
      rw [before_self]
      split
      · rename_i below
        simpa [reached] using below
      · rename_i passed
        refine iff_of_false (fun picked => distinct.1 (pick_mem picked)) ?_
        rintro ⟨-, -, below⟩
        rw [add_zero] at below
        exact passed below
    · rw [before_cons same, ← add_assoc, List.mem_cons, or_iff_right (Ne.symm same)]
      split
      · rename_i below
        refine iff_of_false (fun picked => same (Option.some.inj picked)) ?_
        rintro ⟨-, above, -⟩
        have some : 0 ≤ before g.value rest rule := before_nonneg least.2
        linarith
      · rename_i passed
        exact ih distinct.2 least.2 (not_lt.mp passed)

theorem pick_isSome (least : ∀ rule ∈ rules, 0 ≤ g.value rule) (low : sum ≤ target)
    (high : target < sum + g.total rules) : ∃ rule, g.pick? target sum rules = some rule := by
  induction rules generalizing sum with
  | nil =>
    rw [total, List.map_nil, List.sum_nil] at high
    linarith
  | cons other rest ih =>
    rw [List.forall_mem_cons] at least
    rw [total, List.map_cons, List.sum_cons, ← add_assoc] at high
    simp only [pick?, positive_eq least.1]
    split
    · exact ⟨other, rfl⟩
    · exact ih least.2 (not_lt.mp ‹_›) high

/-- Draws given beforehand; the source is the number of those that have been made. -/
def drawn (draws : Nat → ℝ) (made : Nat) : ℝ × Nat := (draws made, made + 1)

/-- Weights to draw by: none is negative, and every non-terminal has one that is not zero. -/
structure Fair (g : WeightedRules ℝ) : Prop where
  formed : g.rules.WellFormed
  least : ∀ rule < g.rules.size, 0 ≤ g.value rule
  total_pos : ∀ nt < g.rules.nonTerminals, 0 < g.total (g.rules.rulesOf nt)

namespace Fair

variable {u : ℝ} (fair : g.Fair)

include fair

theorem least_of_mem : ∀ rule ∈ g.rules.rulesOf nt, 0 ≤ g.value rule := by
  intro rule member
  rcases (RuleSet.mem_rulesOf fair.formed).mp member with ⟨production, found⟩
  exact fair.least rule (Array.getElem?_eq_some_iff.mp found).1

variable (inside : nt < g.rules.nonTerminals)

include inside

theorem mem_slot_iff (member : rule ∈ g.rules.rulesOf nt) :
    u ∈ g.slot rule ↔ before g.value (g.rules.rulesOf nt) rule ≤ u * g.total (g.rules.rulesOf nt) ∧
      u * g.total (g.rules.rulesOf nt) < before g.value (g.rules.rulesOf nt) rule + g.value rule := by
  have positive := fair.total_pos nt inside
  simp only [slot, chance, RuleSet.rivals_eq fair.formed member]
  rw [← add_div, Set.mem_Ico, div_le_iff₀ positive, lt_div_iff₀ positive]

theorem slot_subset (member : rule ∈ g.rules.rulesOf nt) : g.slot rule ⊆ Set.Ico 0 1 := by
  intro u within
  have positive := fair.total_pos nt inside
  rw [fair.mem_slot_iff inside member] at within
  have low : 0 ≤ before g.value (g.rules.rulesOf nt) rule := before_nonneg fair.least_of_mem
  have high : _ ≤ g.total _ := before_add_le fair.least_of_mem member
  constructor
  · by_contra negative
    have product := mul_neg_of_neg_of_pos (not_le.mp negative) positive
    linarith
  · by_contra large
    have product := mul_le_mul_of_nonneg_right (not_lt.mp large) positive.le
    linarith

variable (unit : u ∈ Set.Ico 0 1)

include unit

theorem pick_iff : g.pick? (u * g.mass (g.rules.rulesOf nt)) 0 (g.rules.rulesOf nt) = some rule ↔
    rule ∈ g.rules.rulesOf nt ∧ u ∈ g.slot rule := by
  have reached : 0 ≤ u * g.total (g.rules.rulesOf nt) := mul_nonneg unit.1 (fair.total_pos nt inside).le
  rw [mass_eq_total fair.least_of_mem,
    pick_eq_some_iff (RuleSet.rulesOf_nodup fair.formed nt) fair.least_of_mem reached, zero_add]
  exact and_congr_right fun member => (fair.mem_slot_iff inside member).symm

theorem pick_ne_none : g.pick? (u * g.mass (g.rules.rulesOf nt)) 0 (g.rules.rulesOf nt) ≠ none := by
  have positive := fair.total_pos nt inside
  have reached : 0 ≤ u * g.total (g.rules.rulesOf nt) := mul_nonneg unit.1 positive.le
  have short : u * g.total (g.rules.rulesOf nt) < 0 + g.total (g.rules.rulesOf nt) := by
    rw [zero_add]
    exact mul_lt_of_lt_one_left positive unit.2
  rcases pick_isSome fair.least_of_mem reached short with ⟨rule, picked⟩
  rw [mass_eq_total fair.least_of_mem, picked]
  exact Option.some_ne_none rule

omit unit

theorem slots_disjoint : {rule | rule ∈ g.rules.rulesOf nt}.PairwiseDisjoint g.slot := by
  intro rule member other member' different
  refine Set.disjoint_left.mpr fun u within within' => different ?_
  have unit := fair.slot_subset inside member within
  have picked := (fair.pick_iff inside unit).mpr ⟨member, within⟩
  rw [(fair.pick_iff inside unit).mpr ⟨member', within'⟩] at picked
  exact (Option.some.inj picked).symm

theorem slots_cover : ⋃ rule ∈ g.rules.rulesOf nt, g.slot rule = Set.Ico 0 1 := by
  apply subset_antisymm
  · exact Set.iUnion₂_subset fun rule member => fair.slot_subset inside member
  · intro u unit
    rcases Option.ne_none_iff_exists'.mp (fair.pick_ne_none inside unit) with ⟨rule, picked⟩
    have chosen := (fair.pick_iff inside unit).mp picked
    exact Set.mem_iUnion₂.mpr ⟨rule, chosen.1, chosen.2⟩

/-- Without a choice nothing is drawn, and otherwise one draw, in the slot of the rule. -/
theorem choose_iff {draws : Nat → ℝ} (units : ∀ k, draws k ∈ Set.Ico 0 1) {made last : Nat} :
    g.choose (drawn draws) nt made = (some rule, last) ↔ rule ∈ g.rules.rulesOf nt ∧
      if 2 ≤ (g.rules.rulesOf nt).length then draws made ∈ g.slot rule ∧ last = made + 1 else last = made := by
  have positive := fair.total_pos nt inside
  have mass : 0 < g.mass (g.rules.rulesOf nt) := by rwa [mass_eq_total fair.least_of_mem]
  have pick : _ = some rule ↔ _ := fair.pick_iff inside (units made)
  have found := fair.pick_ne_none inside (units made)
  rw [choose, if_pos mass]
  rcases rules : g.rules.rulesOf nt with _ | ⟨first, _ | ⟨second, rest⟩⟩
  · rw [rules, total, List.map_nil, List.sum_nil] at positive
    exact absurd positive (lt_irrefl 0)
  · simp [eq_comm]
  · rw [rules] at pick found
    rcases Option.ne_none_iff_exists'.mp found with ⟨chosen, picked⟩
    rw [picked, Option.some.injEq] at pick
    have several : 2 ≤ (first :: second :: rest).length := Nat.le_add_left 2 rest.length
    simp only [drawn, picked, Prod.mk.injEq, Option.some.injEq]
    rw [if_pos several, pick, and_assoc, eq_comm (b := last)]

end Fair

end WeightedRules

end StochasticGrammar
