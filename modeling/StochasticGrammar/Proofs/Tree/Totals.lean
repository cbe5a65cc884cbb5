import Mathlib.Algebra.BigOperators.Group.Finset.Basic
import Mathlib.Algebra.BigOperators.Ring.List
import Mathlib.Algebra.Field.Rat
import Mathlib.Data.List.ProdSigma
import Mathlib.Tactic.Ring
import StochasticGrammar.Proofs.Tree.Derives

/-!
All derivations of a span, and the sum of their weights. With exact weights the plain recursion of
the inside is that sum.
-/

namespace StochasticGrammar

namespace Cell

def start : Cell → Nat
  | inside start _ _ | outside start _ _ => start

def stop : Cell → Nat
  | inside _ stop _ | outside _ stop _ => stop

end Cell

namespace Sentence

variable {W : Type} (s : Sentence W)

/-- All trees that derive a span from a non-terminal. -/
def derivations (start stop nt : Nat) : List Derivation :=
  if start < stop then
    ((BinaryRule.all s.rules.rules).filter fun r => r.lhs == nt).flatMap fun r =>
      (List.finRange (stop - start)).flatMap fun (k : Fin (stop - start)) =>
        (derivations start (start + k) r.left).flatMap fun left =>
          (derivations (start + k + 1) stop r.right).map fun right => .node r.index left right
  else
    match (s.tokens[start]?).bind fun t => s.rules.rules.findIdx? (· == ⟨nt, .terminal t⟩) with
    | some rule => [.leaf rule]
    | none => []
termination_by stop - start

def derivationsAt : Cell → List Derivation
  | .inside start stop nt => s.derivations start stop nt
  | .outside .. => []

/-- The trees with the rule of a term whose children derive its cells. -/
def joined (term : Term) : List Derivation :=
  (s.derivationsAt term.first).flatMap fun left =>
    (s.derivationsAt term.second).map fun right => .node term.rule left right

end Sentence

section

variable {W : Type} {s : Sentence W} {start stop nt : Nat}

theorem derivations_of_lt (order : start < stop) :
    s.derivations start stop nt = (s.allInsideTerms start stop nt).flatMap s.joined := by
  rw [Sentence.derivations, if_pos order, Sentence.allInsideTerms, List.flatMap_assoc]
  congr 1
  funext r
  rw [range'_eq_map, List.map_map, List.flatMap_map]
  rfl

theorem derivations_token (formed : s.rules.WellFormed) (start nt : Nat) :
    s.derivations start start nt =
      (((s.tokens[start]?).bind (s.rules.terminalRule? nt)).map Derivation.leaf).toList := by
  rw [Sentence.derivations, if_neg (Nat.lt_irrefl _), tokenRule_eq formed]
  cases (s.tokens[start]?).bind (s.rules.terminalRule? nt) with
  | none => rfl
  | some rule => rfl

theorem mem_joined {rule m a b : Nat} {tree : Derivation} :
    tree ∈ s.joined ⟨rule, .inside start m a, .inside (m + 1) stop b⟩ ↔
      ∃ left ∈ s.derivations start m a, ∃ right ∈ s.derivations (m + 1) stop b,
        tree = .node rule left right := by
  simp only [Sentence.joined, Sentence.derivationsAt, List.mem_flatMap, List.mem_map, eq_comm]

theorem mem_derivations (formed : s.rules.WellFormed) (order : start ≤ stop) {tree : Derivation} :
    tree ∈ s.derivations start stop nt ↔ s.Derives tree start stop nt := by
  induction length : stop - start using Nat.strongRecOn generalizing start stop nt tree with
  | _ length ih =>
    subst length
    rcases Nat.eq_or_lt_of_le order with rfl | long
    · rw [derivations_token formed, Option.mem_toList, Option.map_eq_some_iff]
      constructor
      · intro leaf
        rcases leaf with ⟨rule, known, rfl⟩
        rcases Option.bind_eq_some_iff.mp known with ⟨t, token, found⟩
        exact .leaf ((RuleSet.terminalRule_eq_some_iff formed).mp found) token
      · intro derives
        cases derives with
        | leaf found token =>
          refine ⟨_, ?_, rfl⟩
          rw [token]
          exact (RuleSet.terminalRule_eq_some_iff formed).mpr found
        | node found first second =>
          have low := first.order
          have high := second.order
          omega
    · rw [derivations_of_lt long, List.mem_flatMap]
      constructor
      · intro node
        rcases node with ⟨term, member, joined⟩
        obtain ⟨r, present, rfl, m, low, high, rfl⟩ := mem_allInsideTerms.mp member
        obtain ⟨left, first, right, second, rfl⟩ := mem_joined.mp joined
        have first := (ih (m - start) (by omega) low rfl).mp first
        have second := (ih (stop - (m + 1)) (by omega) high rfl).mp second
        exact .node (mem_allBinary.mp present) first second
      · intro derives
        cases derives with
        | leaf found token => omega
        | @node rule _ m _ _ a b left right found first second =>
          have low := first.order
          have high := second.order
          refine ⟨⟨rule, .inside start m a, .inside (m + 1) stop b⟩, ?_, ?_⟩
          · exact mem_allInsideTerms.mpr ⟨⟨rule, nt, a, b⟩, mem_allBinary.mpr found, rfl, m, low, high, rfl⟩
          · apply mem_joined.mpr
            exact ⟨left, (ih (m - start) (by omega) low rfl).mpr first, right,
              (ih (stop - (m + 1)) (by omega) high rfl).mpr second, rfl⟩

/-- Lists put together stay without repetition when a key tells which of them an item comes from. -/
theorem nodup_flatMap_of_key {α β κ : Type} {l : List α} {f : α → List β} (key : β → κ) (mark : α → κ)
    (marked : ∀ a ∈ l, ∀ b ∈ f a, key b = mark a) (distinct : (l.map mark).Nodup)
    (each : ∀ a ∈ l, (f a).Nodup) : (l.flatMap f).Nodup := by
  refine List.nodup_flatMap.mpr ⟨each, ?_⟩
  apply List.Pairwise.imp_of_mem _ (List.pairwise_map.mp distinct)
  intro a a' member member' differ b here there
  exact differ ((marked a member b here).symm.trans (marked a' member' b there))

theorem nodup_places {rules : List BinaryRule} (distinct : (rules.map (·.index)).Nodup) {places : List Nat}
    (nodup : places.Nodup) : (rules.flatMap fun r => places.map fun m => (r.index, m)).Nodup := by
  apply nodup_flatMap_of_key Prod.fst (·.index)
  · intro r member pair within
    rcases List.mem_map.mp within with ⟨m, -, rfl⟩
    rfl
  · exact distinct
  · intro r member
    apply nodup.map
    intro m m' same
    exact congrArg Prod.snd same

theorem nodup_index (rules : Array Rule) (p : BinaryRule → Bool) :
    (((BinaryRule.all rules).filter p).map (·.index)).Nodup := by
  apply List.pairwise_map.mpr
  apply ((pairwise_index rules).filter p).imp
  intro r r' less
  exact Nat.ne_of_lt less

theorem nodup_joined {term : Term} (first : (s.derivationsAt term.first).Nodup)
    (second : (s.derivationsAt term.second).Nodup) : (s.joined term).Nodup := by
  have pairs : s.joined term = ((s.derivationsAt term.first).product (s.derivationsAt term.second)).map
      fun pair => .node term.rule pair.1 pair.2 := by
    simp only [Sentence.joined, List.product, List.map_flatMap, List.map_map]
    rfl
  rw [pairs]
  apply (first.product second).map
  intro pair pair' same
  rcases pair with ⟨left, right⟩
  rcases pair' with ⟨left', right'⟩
  cases same
  rfl

theorem nodup_derivations (formed : s.rules.WellFormed) (order : start ≤ stop) :
    (s.derivations start stop nt).Nodup := by
  induction length : stop - start using Nat.strongRecOn generalizing start stop nt with
  | _ length ih =>
    subst length
    rcases Nat.eq_or_lt_of_le order with rfl | long
    · rw [derivations_token formed]
      cases (s.tokens[start]?).bind (s.rules.terminalRule? nt) with
      | none => exact List.nodup_nil
      | some rule => exact List.nodup_singleton _
    · rw [derivations_of_lt long]
      let split (tree : Derivation) : Nat × Nat :=
        ((tree.root start).rule, (tree.root start).split.getD 0)
      apply nodup_flatMap_of_key split fun term => (term.rule, term.first.stop)
      · intro term member tree joined
        obtain ⟨r, present, rfl, m, low, high, rfl⟩ := mem_allInsideTerms.mp member
        obtain ⟨left, first, right, -, rfl⟩ := mem_joined.mp joined
        have span := ((mem_derivations formed low).mp first).span.1
        change (r.index, start + left.width - 1) = (r.index, m)
        rw [span]
        rfl
      · rw [Sentence.allInsideTerms, List.map_flatMap]
        simp only [List.map_map]
        exact nodup_places (nodup_index _ _) List.nodup_range'
      · intro term member
        obtain ⟨r, present, rfl, m, low, high, rfl⟩ := mem_allInsideTerms.mp member
        apply nodup_joined
        · exact ih (m - start) (by omega) low rfl
        · exact ih (stop - (m + 1)) (by omega) high rfl

end

section

variable {s : Sentence ℚ} {start stop nt : Nat}

theorem plain_sum (cell : Cell) :
    s.plain cell = (s.plainPlan cell).base + ((s.plainPlan cell).terms.map (s.product s.plain cell)).sum := by
  rw [plain_eq]
  generalize (s.plainPlan cell).base = base
  induction (s.plainPlan cell).terms generalizing base with
  | nil => exact (add_zero base).symm
  | cons term terms ih =>
    rw [List.foldl_cons, ih, List.map_cons, List.sum_cons]
    exact add_assoc _ _ _

theorem sum_flatMap {α β : Type} (l : List α) (f : α → List β) (g : β → ℚ) :
    ((l.flatMap f).map g).sum = (l.map fun a => ((f a).map g).sum).sum := by
  rw [List.map_flatMap, List.flatMap_def, List.sum_flatten, List.map_map]
  rfl

/-- Nodes of one rule over all pairs of trees of two lists. -/
theorem nodes_total (value : Nat → ℚ) (rule : Nat) (lefts rights : List Derivation) :
    ((lefts.flatMap fun left => rights.map fun right => .node rule left right).map
        (Derivation.weight value)).sum =
      value rule * (lefts.map (·.weight value)).sum * (rights.map (·.weight value)).sum := by
  have inner : ∀ left : Derivation,
      ((rights.map fun right => Derivation.node rule left right).map (·.weight value)).sum =
        value rule * left.weight value * (rights.map (·.weight value)).sum := by
    intro left
    rw [List.map_map, ← List.sum_map_mul_left]
    rfl
  rw [sum_flatMap]
  simp only [inner]
  rw [List.sum_map_mul_right, List.sum_map_mul_left]

theorem joined_total (term : Term) :
    ((s.joined term).map (·.weight s.value)).sum =
      s.value term.rule * ((s.derivationsAt term.first).map (·.weight s.value)).sum *
        ((s.derivationsAt term.second).map (·.weight s.value)).sum :=
  nodes_total s.value term.rule _ _

/-- The inside weight is the sum over all derivations. -/
theorem plainInside_eq (formed : s.rules.WellFormed) (order : start ≤ stop) :
    s.plainInside start stop nt = ((s.derivations start stop nt).map (·.weight s.value)).sum := by
  induction length : stop - start using Nat.strongRecOn generalizing start stop nt with
  | _ length ih =>
    subst length
    rcases Nat.eq_or_lt_of_le order with rfl | long
    · rw [derivations_token formed, Sentence.plainInside, if_neg (Nat.lt_irrefl _), Sentence.tokenWeight,
        tokenRule_eq formed]
      cases (s.tokens[start]?).bind (s.rules.terminalRule? nt) with
      | none => rfl
      | some rule => exact (add_zero _).symm
    · have plan : s.plainPlan (.inside start stop nt) = { base := 0, terms := s.allInsideTerms start stop nt } :=
        if_pos long
      have sum := plain_sum (s := s) (.inside start stop nt)
      rw [plan] at sum
      rw [derivations_of_lt long, sum_flatMap]
      refine sum.trans ((zero_add _).trans ?_)
      congr 1
      apply List.map_congr_left
      intro term member
      obtain ⟨r, present, rfl, m, low, high, rfl⟩ := mem_allInsideTerms.mp member
      have first : s.plainInside start m r.left = _ := ih (m - start) (by omega) low rfl
      have second : s.plainInside (m + 1) stop r.right = _ := ih (stop - (m + 1)) (by omega) high rfl
      rw [joined_total]
      change s.value r.index * s.plainInside start m r.left * s.plainInside (m + 1) stop r.right = _
      rw [first, second]
      rfl

end

end StochasticGrammar
