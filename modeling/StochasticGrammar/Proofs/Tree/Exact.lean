import Mathlib.Algebra.BigOperators.Ring.Finset
import StochasticGrammar.Proofs.Chart.Epochs
import StochasticGrammar.Proofs.Grammar.Numbering
import StochasticGrammar.Proofs.Tree.Contexts

/-!
The charts with exact weights. Inside weights are sums over derivations, and with the outside weights
they tell what the derivations of the whole string weigh that have a non-terminal over a span.
-/

namespace StochasticGrammar

namespace Sentence

/-- The answer to a demand, after others have filled in the tables. -/
def answer {W : Type} [Weight W] (s : Sentence W) (earlier : List Cell) (cell : Cell) : W :=
  (s.demand (earlier.foldl (fun (work : Work W) (cell : Cell) => (s.demand work cell).2) ⟨{}, {}⟩) cell).1.1

/-- That a node of a derivation of the whole string spans `start` to `stop` and stands for `nt`. -/
def Contains {W : Type} (s : Sentence W) (whole : Derivation) (start stop nt : Nat) : Prop :=
  ∃ part, s.Derives part start stop nt ∧ (start, part) ∈ whole.parts 0

end Sentence

theorem answer_eq {W : Type} [Weight W] (s : Sentence W) (earlier : List Cell) (cell : Cell) :
    s.answer earlier cell = (s.settled cell).1 := by
  have sound : ∀ work : Work W, s.Sound work.tables →
      s.Sound (earlier.foldl (fun (work : Work W) (cell : Cell) => (s.demand work cell).2) work).tables := by
    induction earlier with
    | nil => exact fun _ sound => sound
    | cons first rest ih =>
      intro work sound
      exact ih _ (demand_settled sound first).2
  unfold Sentence.answer
  rw [(demand_settled (sound ⟨{}, {}⟩ (sound_empty s)) cell).1]

section

variable {s : Sentence ℚ} (formed : s.rules.WellFormed)

include formed

/-- Exact weights are always tame. -/
theorem tame_rat {cell : Cell} (within : s.Within cell) : s.Tame cell := by
  induction rank : cell.rank s.tokens.size using Nat.strongRecOn generalizing cell with
  | _ rank ih =>
    subst rank
    have fold : ∀ (terms : List Term) (base : Watched ℚ), base.tame = true →
        (∀ term ∈ terms, (s.watched.product s.watched.plain cell term).tame = true) →
        (terms.foldl (fun total term => total + s.watched.product s.watched.plain cell term) base).tame =
          true := by
      intro terms
      induction terms with
      | nil => exact fun _ start _ => start
      | cons term terms rest =>
        intro base start all
        apply rest
        · have here := all term List.mem_cons_self
          change (base.tame && (s.watched.product s.watched.plain cell term).tame && true) = true
          rw [start, here]
          rfl
        · exact fun other member => all other (List.mem_cons_of_mem _ member)
    unfold Sentence.Tame
    rw [plain_eq]
    apply fold
    · rw [(plainPlan_watched cell).2]
      rfl
    · intro term member
      rw [(plainPlan_watched cell).1] at member
      obtain ⟨⟨first, firstLower⟩, second, secondLower⟩ := plainPlan_rank formed within member
      have firstTame : (s.watched.plain term.first).tame = true := ih _ firstLower first rfl
      have secondTame : (s.watched.plain term.second).tame = true := ih _ secondLower second rfl
      cases cell with
      | inside start stop nt =>
        change ((true && (s.watched.plain term.first).tame && true) &&
          (s.watched.plain term.second).tame && true) = true
        rw [firstTame, secondTame]
        rfl
      | outside start stop nt =>
        change (((s.watched.plain term.second).tame && true && true) &&
          (s.watched.plain term.first).tame && true) = true
        rw [firstTame, secondTame]
        rfl

theorem answer_eq_plain (earlier : List Cell) {cell : Cell} (within : s.Within cell) :
    s.answer earlier cell = s.plain cell := by
  rw [answer_eq]
  apply settled_eq_plain formed _ within (tame_rat formed within)
  intro rule _ zero
  exact beq_iff_eq.mp zero

theorem sum_derivations {start stop nt : Nat} (order : start ≤ stop) :
    ∑ tree ∈ (s.derivations start stop nt).toFinset, tree.weight s.value = s.plainInside start stop nt := by
  rw [List.sum_toFinset _ (nodup_derivations formed order), plainInside_eq formed order]

/-- Inside times outside is what the derivations weigh that have such a node. -/
theorem inside_mul_outside {start stop nt : Nat} (order : start ≤ stop)
    [DecidablePred fun whole => s.Contains whole start stop nt] :
    s.plainInside start stop nt * s.plainOutside start stop nt =
      ∑ whole ∈ s.wholes, if s.Contains whole start stop nt then whole.weight s.value else 0 := by
  have contains : ∀ whole : Derivation,
      (∃ part ∈ (s.derivations start stop nt).toFinset, (start, part) ∈ whole.parts 0) ↔
        s.Contains whole start stop nt := by
    intro whole
    simp only [List.mem_toFinset, mem_derivations formed order]
    exact Iff.rfl
  calc s.plainInside start stop nt * s.plainOutside start stop nt
      = ∑ part ∈ (s.derivations start stop nt).toFinset, s.share (start, part) := by
        rw [← sum_derivations formed order, Finset.sum_mul]
        apply Finset.sum_congr rfl
        intro part member
        rw [List.mem_toFinset, mem_derivations formed order] at member
        exact weight_mul_outside formed member
    _ = ∑ whole ∈ s.wholes, ∑ part ∈ (s.derivations start stop nt).toFinset,
          if (start, part) ∈ whole.parts 0 then whole.weight s.value else 0 := Finset.sum_comm
    _ = ∑ whole ∈ s.wholes, if s.Contains whole start stop nt then whole.weight s.value else 0 := by
        apply Finset.sum_congr rfl
        intro whole _
        classical
        rw [sum_unique, if_congr (contains whole) rfl rfl]
        intro part member other member' within within'
        rw [List.mem_toFinset, mem_derivations formed order] at member member'
        apply Derivation.part_unique within within'
        have span := member.span.1
        have span' := member'.span.1
        omega

theorem sum_position {i : Nat} (inside : i < s.tokens.size) :
    ∑ nt ∈ Finset.range s.rules.nonTerminals, s.plainInside i i nt * s.plainOutside i i nt =
      s.plainInside 0 (s.tokens.size - 1) s.rules.start := by
  classical
  have some : ∀ whole ∈ s.wholes, ∃ nt ∈ Finset.range s.rules.nonTerminals, s.Contains whole i i nt := by
    intro whole member
    have derives := (mem_wholes formed).mp member
    obtain ⟨part, nt, derives', within⟩ := derives.exists_leaf (Nat.zero_le i) (by omega)
    exact ⟨nt, Finset.mem_range.mpr (derives'.nt_lt formed), part, derives', within⟩
  have only : ∀ whole : Derivation, ∀ nt nt' : Nat, s.Contains whole i i nt → s.Contains whole i i nt' →
      nt = nt' := by
    intro whole nt nt' contains contains'
    rcases contains with ⟨part, derives, within⟩
    rcases contains' with ⟨part', derives', within'⟩
    have width : part.width = part'.width := by
      have span := derives.span.1
      have span' := derives'.span.1
      omega
    rw [← Derivation.part_unique within within' width] at derives'
    exact (derives.unique derives').2
  calc ∑ nt ∈ Finset.range s.rules.nonTerminals, s.plainInside i i nt * s.plainOutside i i nt
      = ∑ nt ∈ Finset.range s.rules.nonTerminals, ∑ whole ∈ s.wholes,
          if s.Contains whole i i nt then whole.weight s.value else 0 := by
        apply Finset.sum_congr rfl
        intro nt _
        exact inside_mul_outside formed (Nat.le_refl i)
    _ = ∑ whole ∈ s.wholes, ∑ nt ∈ Finset.range s.rules.nonTerminals,
          if s.Contains whole i i nt then whole.weight s.value else 0 := Finset.sum_comm
    _ = ∑ whole ∈ s.wholes, whole.weight s.value := by
        apply Finset.sum_congr rfl
        intro whole member
        rw [sum_unique, if_pos (some whole member)]
        intro nt _ nt' _
        exact only whole nt nt'
    _ = s.plainInside 0 (s.tokens.size - 1) s.rules.start := sum_derivations formed (Nat.zero_le _)

end

/-- The answers with exact weights: an inside weight is the sum over the derivations of its span, and
inside times outside that over the derivations of the whole string with such a node. Over each
position the products add up to the weight of the string. -/
theorem exact_weights {d : Declarations} {g : Grammar} (built : d.grammar = .ok g) (value : Nat → ℚ)
    (certain : Nat → Bool) (tokens : Array Nat) (earlier : Cell → List Cell) :
    let s : Sentence ℚ := { rules := g.rules, value, certain, tokens }
    let weight (cell : Cell) : ℚ := s.answer (earlier cell) cell
    (∀ start stop nt, s.grid.Holds start stop nt →
      (∃ trees : Finset Derivation, (∀ tree, tree ∈ trees ↔ s.Derives tree start stop nt) ∧
        weight (.inside start stop nt) = ∑ tree ∈ trees, tree.weight value) ∧
      ∃ trees : Finset Derivation,
        (∀ tree, tree ∈ trees ↔
          s.Derives tree 0 (tokens.size - 1) g.rules.start ∧ s.Contains tree start stop nt) ∧
        weight (.inside start stop nt) * weight (.outside start stop nt) =
          ∑ tree ∈ trees, tree.weight value) ∧
    ∀ i < tokens.size,
      ∑ nt ∈ Finset.range g.rules.nonTerminals, weight (.inside i i nt) * weight (.outside i i nt) =
        weight (.inside 0 (tokens.size - 1) g.rules.start) := by
  intro s weight
  have formed : s.rules.WellFormed := Grammar.rules_wellFormed built
  constructor
  · intro start stop nt holds
    have order := holds.1
    have inside : weight (.inside start stop nt) = s.plainInside start stop nt :=
      answer_eq_plain formed _ holds
    have outside : weight (.outside start stop nt) = s.plainOutside start stop nt :=
      answer_eq_plain formed _ holds
    rw [inside, outside]
    constructor
    · refine ⟨(s.derivations start stop nt).toFinset, ?_, (sum_derivations formed order).symm⟩
      intro tree
      rw [List.mem_toFinset, mem_derivations formed order]
    · classical
      refine ⟨s.wholes.filter fun whole => s.Contains whole start stop nt, ?_, ?_⟩
      · intro tree
        rw [Finset.mem_filter, mem_wholes formed]
      · rw [inside_mul_outside formed order, Finset.sum_filter]
  · intro i inside
    have whole : weight (.inside 0 (tokens.size - 1) g.rules.start) =
        s.plainInside 0 (s.tokens.size - 1) s.rules.start := by
      apply answer_eq_plain formed
      exact ⟨Nat.zero_le _, by change tokens.size - 1 < tokens.size; omega, formed.start⟩
    rw [whole, ← sum_position formed inside]
    apply Finset.sum_congr rfl
    intro nt member
    have holds : s.grid.Holds i i nt := ⟨Nat.le_refl i, inside, Finset.mem_range.mp member⟩
    have first : weight (.inside i i nt) = s.plainInside i i nt := answer_eq_plain formed _ holds
    have second : weight (.outside i i nt) = s.plainOutside i i nt := answer_eq_plain formed _ holds
    rw [first, second]

/-- Three tokens, with all rules at one half. -/
theorem sample_exact_weights :
    let g := Declarations.sampleGrammar 0.25
    let s : Sentence ℚ := ⟨⟨g.rules, fun _ => 1 / 2, fun _ => false⟩, #[0, 0, 1]⟩
    s.grid.Holds 0 1 0 ∧
      (∃ trees : Finset Derivation, (∀ tree, tree ∈ trees ↔ s.Derives tree 0 1 0) ∧
        s.answer [] (.inside 0 1 0) = ∑ tree ∈ trees, tree.weight s.value) ∧
      ∑ nt ∈ Finset.range g.rules.nonTerminals,
          s.answer [] (.inside 1 1 nt) * s.answer [] (.outside 1 1 nt) =
        s.answer [] (.inside 0 2 g.rules.start) := by
  intro g s
  have holds : s.grid.Holds 0 1 0 := by decide
  obtain ⟨cells, positions⟩ := exact_weights (Declarations.sample_grammar 0.25) s.value s.certain
    #[0, 0, 1] fun _ => []
  exact ⟨holds, (cells 0 1 0 holds).1, positions 1 (by decide)⟩

end StochasticGrammar
