import StochasticGrammar.Proofs.Engine.Spawning
import StochasticGrammar.Proofs.Tree.Descents

/-!
Random strings within a limit of depth. A non-terminal has a rule to choose exactly when one of its rules
has a positive value: a sum of doubles that are not negative is at least each of them.
-/

namespace StochasticGrammar

open Double

theorem Double.nonnegative_of_pos {x : Float} (positive : 0.0 < x) : Nonnegative x := by
  rcases not_lt_zero_iff.mp (not_lt_zero_of_pos positive) with nan | sign
  · exact absurd positive (not_pos_of_nan nan)
  · exact sign

namespace WeightedRules

variable {σ : Type} {g : WeightedRules Float} {nt : Nat} {rules : List Nat}

theorem nonnegative_positive (value : Float) : Nonnegative (positive value) := by
  unfold positive
  split
  · rename_i some
    exact nonnegative_of_pos some
  · exact nonnegative_zero

/-- A sum is not less than what it begins with, nor than any of its values. -/
theorem height_le_foldl {sum : Float} (sign : Nonnegative sum) (rules : List Nat) :
    let total := (rules.map fun rule => positive (g.value rule)).foldl (· + ·) sum
    Nonnegative total ∧ height sum ≤ height total ∧
      ∀ rule ∈ rules, height (positive (g.value rule)) ≤ height total := by
  induction rules generalizing sum with
  | nil => exact ⟨sign, le_refl _, by simp⟩
  | cons rule rest ih =>
    have here := nonnegative_positive (g.value rule)
    obtain ⟨total, least, each⟩ := ih (height_add sign here).1
    obtain ⟨first, second⟩ := height_le_add sign here
    refine ⟨total, le_trans first least, ?_⟩
    intro other member
    rcases List.mem_cons.mp member with rfl | later
    · exact le_trans second least
    · exact each other later

theorem pos_mass_iff : 0.0 < g.mass rules ↔ ∃ rule ∈ rules, 0.0 < g.value rule := by
  constructor
  · intro some
    by_contra none
    rw [not_exists] at none
    have nothing : g.mass rules = 0 := by
      rw [mass, List.foldl_map]
      refine List.foldlRecOn (motive := fun sum => sum = 0) _ _ rfl ?_
      intro sum zero rule member
      rw [zero]
      exact add_positive unsigned_zero fun positive => none rule ⟨member, positive⟩
    rw [nothing] at some
    revert some
    decide +kernel
  · intro found
    obtain ⟨rule, member, some⟩ := found
    obtain ⟨total, -, each⟩ := height_le_foldl (g := g) nonnegative_zero rules
    have least := each rule member
    have kept : positive (g.value rule) = g.value rule := if_pos some
    rw [kept] at least
    rw [pos_iff_height (nonnegative_of_pos some)] at some
    exact (pos_iff_height total).mpr (lt_of_lt_of_le some least)

/-- Where there is a rule of positive value, one is chosen, whatever is drawn. -/
theorem choose_ne_none_iff {draw : σ → Float × σ} {source : σ} :
    (g.choose draw nt source).1 ≠ none ↔ ∃ rule ∈ g.rules.rulesOf nt, 0.0 < g.value rule := by
  rw [← pos_mass_iff]
  unfold choose
  simp only
  split
  · rename_i some
    refine iff_of_true ?_ some
    split
    · simp
    · split
      · simp
      · obtain ⟨rule, member, positive⟩ := pos_mass_iff.mp some
        intro missing
        rw [List.find?_eq_none] at missing
        exact missing rule (List.mem_reverse.mpr member) (decide_eq_true positive)
  · rename_i none
    exact iff_of_false (by simp) none

end WeightedRules

namespace Grammar

variable {σ : Type} [RandomSource σ]

theorem spawn_eq_tooDeep_iff (g : Grammar) (root : Option Nat) (limit : Nat) (source last : σ) :
    g.spawn root (some limit) source = some (.error (.tooDeep limit), last) ↔
      g.weighted.spawn RandomSource.nextUnit root (some limit) source = some (.error (.tooDeep limit), last) := by
  unfold spawn
  rcases g.weighted.spawn RandomSource.nextUnit root (some limit) source with _ | ⟨fault | tokens, last⟩
  · simp
  · simp [Except.map]
  · simp [Except.map]

/-- Whatever the values of the rules are and whatever is drawn, the derivation ends, and no more rules are
chosen than a tree within the limit has nodes. The limit is exceeded exactly when a symbol below it is come
to, and each symbol before it had a rule of positive value. -/
theorem spawned_within_limit (g : Grammar) (root : Option Nat) (limit : Nat) (source : σ) :
    let w := g.weighted
    let start := root.getD g.rules.start
    let popped (n : Nat) := w.popped RandomSource.nextUnit n [⟨start, []⟩] source
    (∃ result, w.spawnWithin RandomSource.nextUnit (2 ^ limit - 1) root limit source = some result ∧
        w.spawn RandomSource.nextUnit root (some limit) source = some result) ∧
      ((∃ last, g.spawn root (some limit) source = some (.error (.tooDeep limit), last)) ↔
        start < g.rules.nonTerminals ∧ ∃ n node, popped n = some node ∧ limit < node.depth ∧
          ∀ m < n, ∀ other, popped m = some other →
            ∃ rule ∈ g.rules.rulesOf other.nt, 0.0 < g.values.value rule) := by
  intro w start popped
  refine ⟨WeightedRules.spawnWithin_eq root source, ?_⟩
  simp only [spawn_eq_tooDeep_iff]
  by_cases known : start < g.rules.nonTerminals
  · have expanded : w.spawn RandomSource.nextUnit root (some limit) source =
        w.expand RandomSource.nextUnit (some limit) #[] ([⟨start, []⟩].map WeightedRules.Node.pending) source :=
      if_pos known
    have earlier {n : Nat} {node : WeightedRules.Node} (here : popped n = some node) :
        ∀ m < n, ∀ other, popped m = some other → ∃ rule ∈ g.rules.rulesOf other.nt, 0.0 < g.values.value rule := by
      intro m before other there
      obtain ⟨from', chosen⟩ := WeightedRules.exists_choose_of_popped before here there
      exact WeightedRules.choose_ne_none_iff.mp chosen
    change (∃ last, w.spawn RandomSource.nextUnit root (some limit) source = _) ↔ _
    rw [expanded, WeightedRules.expand_tooDeep_iff, and_iff_right known]
    exact exists_congr fun n => exists_congr fun node =>
      and_congr_right fun here => (and_iff_left (earlier here)).symm
  · have refused : w.spawn RandomSource.nextUnit root (some limit) source =
        some (.error (.unknownNonTerminal start g.rules.nonTerminals), source) := if_neg known
    change (∃ last, w.spawn RandomSource.nextUnit root (some limit) source = _) ↔ _
    rw [refused]
    exact iff_of_false (by simp) fun found => known found.1

end Grammar

end StochasticGrammar
