import Mathlib.Algebra.BigOperators.Group.Finset.Piecewise
import Mathlib.Algebra.BigOperators.Group.Finset.Sigma
import StochasticGrammar.Proofs.Tree.Totals

/-!
What stands around a node. Every tree below the root of another has one parent there, which the
outside weights run through: the weight of a tree times the outside weight of its span is what all
derivations weigh that have the tree at that place.
-/

namespace StochasticGrammar

namespace Derivation

/-- That the second of two placed trees is a child of the first. -/
inductive Child : Nat × Derivation → Nat × Derivation → Prop where
  | left {i rule : Nat} {left right : Derivation} : Child (i, node rule left right) (i, left)
  | right {i rule : Nat} {left right : Derivation} :
    Child (i, node rule left right) (i + left.width, right)

theorem Child.span {parent child : Nat × Derivation} (relation : Child parent child) :
    parent.1 ≤ child.1 ∧ child.1 + child.2.width ≤ parent.1 + parent.2.width ∧
      child.2.width < parent.2.width := by
  cases relation with
  | @left i rule left right =>
    have first := left.width_pos
    have second := right.width_pos
    simp only [width]
    omega
  | @right i rule left right =>
    have first := left.width_pos
    have second := right.width_pos
    simp only [width]
    omega

theorem parent_exists {tree : Derivation} {start : Nat} {child : Nat × Derivation}
    (member : child ∈ tree.parts start) :
    child = (start, tree) ∨ ∃ parent ∈ tree.parts start, Child parent child := by
  induction tree generalizing start with
  | leaf rule => exact .inl (List.mem_singleton.mp member)
  | node rule left right leftIh rightIh =>
    rcases List.mem_cons.mp member with same | below
    · exact .inl same
    · apply Or.inr
      rcases List.mem_append.mp below with inLeft | inRight
      · rcases leftIh inLeft with rfl | ⟨parent, within, relation⟩
        · exact ⟨_, List.mem_cons_self, .left⟩
        · exact ⟨parent, List.mem_cons_of_mem _ (List.mem_append_left _ within), relation⟩
      · rcases rightIh inRight with rfl | ⟨parent, within, relation⟩
        · exact ⟨_, List.mem_cons_self, .right⟩
        · exact ⟨parent, List.mem_cons_of_mem _ (List.mem_append_right _ within), relation⟩

theorem child_mem_parts {tree : Derivation} {start : Nat} {parent child : Nat × Derivation}
    (member : parent ∈ tree.parts start) (relation : Child parent child) : child ∈ tree.parts start := by
  induction tree generalizing start with
  | leaf rule =>
    rw [List.mem_singleton.mp member] at relation
    cases relation
  | node rule left right leftIh rightIh =>
    apply List.mem_cons_of_mem
    rcases List.mem_cons.mp member with same | below
    · rw [same] at relation
      cases relation with
      | left => exact List.mem_append_left _ (left.self_mem_parts start)
      | right => exact List.mem_append_right _ (right.self_mem_parts _)
    · rcases List.mem_append.mp below with inLeft | inRight
      · exact List.mem_append_left _ (leftIh inLeft)
      · exact List.mem_append_right _ (rightIh inRight)

theorem left_before_right {left right : Derivation} {start : Nat} {first second : Nat × Derivation}
    (inLeft : first ∈ left.parts start) (inRight : second ∈ right.parts (start + left.width)) :
    first.1 + first.2.width ≤ second.1 := by
  have span := parts_span inLeft
  have span' := parts_span inRight
  omega

theorem width_of_below {rule start : Nat} {left right : Derivation} {part : Nat × Derivation}
    (below : part ∈ left.parts start ++ right.parts (start + left.width)) :
    part.2.width < (node rule left right).width := by
  have first := left.width_pos
  have second := right.width_pos
  rw [width]
  rcases List.mem_append.mp below with inLeft | inRight
  · have span := parts_span inLeft
    omega
  · have span := parts_span inRight
    omega

/-- What is below a node is no parent of its children. -/
theorem not_child_of_below {rule start : Nat} {left right : Derivation} {other child : Nat × Derivation}
    (relation : Child (start, node rule left right) child)
    (below : other ∈ left.parts start ++ right.parts (start + left.width)) : ¬ Child other child := by
  intro relation'
  have inner := relation'.span
  have positive := child.2.width_pos
  rcases List.mem_append.mp below with inLeft | inRight
  · have span := parts_span inLeft
    cases relation with
    | left =>
      simp only at inner
      omega
    | right =>
      simp only at inner positive
      omega
  · have span := parts_span inRight
    cases relation with
    | left =>
      simp only at inner positive
      omega
    | right =>
      simp only at inner
      omega

theorem parent_unique {tree : Derivation} {start : Nat} {parent other child : Nat × Derivation}
    (member : parent ∈ tree.parts start) (member' : other ∈ tree.parts start)
    (relation : Child parent child) (relation' : Child other child) : parent = other := by
  induction tree generalizing start with
  | leaf rule => rw [List.mem_singleton.mp member, List.mem_singleton.mp member']
  | node rule left right leftIh rightIh =>
    have inner := relation.span
    have inner' := relation'.span
    have positive := child.2.width_pos
    rcases List.mem_cons.mp member with same | below
    · rcases List.mem_cons.mp member' with same' | below'
      · rw [same, same']
      · rw [same] at relation
        exact absurd relation' (not_child_of_below relation below')
    · rcases List.mem_cons.mp member' with same' | below'
      · rw [same'] at relation'
        exact absurd relation (not_child_of_below relation' below)
      · rcases List.mem_append.mp below with inLeft | inRight
        · rcases List.mem_append.mp below' with inLeft' | inRight'
          · exact leftIh inLeft inLeft'
          · have apart := left_before_right inLeft inRight'
            omega
        · rcases List.mem_append.mp below' with inLeft' | inRight'
          · have apart := left_before_right inLeft' inRight
            omega
          · exact rightIh inRight inRight'

/-- Trees at the same place and of the same width are the same. -/
theorem part_unique {tree part other : Derivation} {start i : Nat} (member : (i, part) ∈ tree.parts start)
    (member' : (i, other) ∈ tree.parts start) (same : part.width = other.width) : part = other := by
  induction tree generalizing start with
  | leaf rule =>
    cases List.mem_singleton.mp member
    cases List.mem_singleton.mp member'
    rfl
  | node rule left right leftIh rightIh =>
    have positive := part.width_pos
    have positive' := other.width_pos
    rcases List.mem_cons.mp member with root | below
    · cases root
      rcases List.mem_cons.mp member' with root' | below'
      · cases root'
        rfl
      · exact absurd same (Nat.ne_of_gt (width_of_below below'))
    · rcases List.mem_cons.mp member' with root' | below'
      · cases root'
        exact absurd same (Nat.ne_of_lt (width_of_below below))
      · rcases List.mem_append.mp below with inLeft | inRight
        · rcases List.mem_append.mp below' with inLeft' | inRight'
          · exact leftIh inLeft inLeft'
          · have apart := left_before_right inLeft inRight'
            simp only at apart
            omega
        · rcases List.mem_append.mp below' with inLeft' | inRight'
          · have apart := left_before_right inLeft' inRight
            simp only at apart
            omega
          · exact rightIh inRight inRight'

end Derivation

namespace Sentence

variable {W : Type} (s : Sentence W)

/-- The placed trees with the given one as their left child. -/
def leftParents (tree : Derivation) (start stop nt : Nat) : List (Nat × Derivation) :=
  (s.allRightTerms start stop nt).flatMap fun term =>
    (s.derivationsAt term.first).map fun sibling => (term.second.start, .node term.rule tree sibling)

def rightParents (tree : Derivation) (start stop nt : Nat) : List (Nat × Derivation) :=
  (s.allLeftTerms start stop nt).flatMap fun term =>
    (s.derivationsAt term.first).map fun sibling => (term.second.start, .node term.rule sibling tree)

def parents (tree : Derivation) (start stop nt : Nat) : List (Nat × Derivation) :=
  s.leftParents tree start stop nt ++ s.rightParents tree start stop nt

end Sentence

section

variable {W : Type} {s : Sentence W} {tree : Derivation} {start stop nt : Nat}

theorem mem_leftParents (formed : s.rules.WellFormed) {parent : Nat × Derivation} :
    parent ∈ s.leftParents tree start stop nt ↔ ∃ r ∈ BinaryRule.all s.rules.rules, r.left = nt ∧
      ∃ e, stop < e ∧ e < s.tokens.size ∧ ∃ sibling, s.Derives sibling (stop + 1) e r.right ∧
        parent = (start, .node r.index tree sibling) := by
  simp only [Sentence.leftParents, List.mem_flatMap, List.mem_map]
  constructor
  · intro member
    rcases member with ⟨term, member, sibling, derived, rfl⟩
    rcases mem_allRightTerms.mp member with ⟨r, present, same, e, low, high, rfl⟩
    exact ⟨r, present, same, e, low, high, sibling, (mem_derivations formed low).mp derived, rfl⟩
  · intro joined
    rcases joined with ⟨r, present, same, e, low, high, sibling, derives, rfl⟩
    exact ⟨_, mem_allRightTerms.mpr ⟨r, present, same, e, low, high, rfl⟩, sibling,
      (mem_derivations formed low).mpr derives, rfl⟩

theorem mem_rightParents (formed : s.rules.WellFormed) {parent : Nat × Derivation} :
    parent ∈ s.rightParents tree start stop nt ↔ ∃ r ∈ BinaryRule.all s.rules.rules, r.right = nt ∧
      ∃ b, b < start ∧ ∃ sibling, s.Derives sibling b (start - 1) r.left ∧
        parent = (b, .node r.index sibling tree) := by
  simp only [Sentence.rightParents, List.mem_flatMap, List.mem_map]
  constructor
  · intro member
    rcases member with ⟨term, member, sibling, derived, rfl⟩
    rcases mem_allLeftTerms.mp member with ⟨r, present, same, b, before, rfl⟩
    have order : b ≤ start - 1 := by omega
    exact ⟨r, present, same, b, before, sibling, (mem_derivations formed order).mp derived, rfl⟩
  · intro joined
    rcases joined with ⟨r, present, same, b, before, sibling, derives, rfl⟩
    have order : b ≤ start - 1 := by omega
    exact ⟨_, mem_allLeftTerms.mpr ⟨r, present, same, b, before, rfl⟩, sibling,
      (mem_derivations formed order).mpr derives, rfl⟩

theorem mem_parents (formed : s.rules.WellFormed) (derives : s.Derives tree start stop nt)
    {parent : Nat × Derivation} :
    parent ∈ s.parents tree start stop nt ↔
      (∃ stop' nt', s.Derives parent.2 parent.1 stop' nt') ∧ Derivation.Child parent (start, tree) := by
  rw [Sentence.parents, List.mem_append, mem_leftParents formed, mem_rightParents formed]
  constructor
  · intro joined
    rcases joined with ⟨r, present, rfl, e, low, high, sibling, other, rfl⟩ |
      ⟨r, present, rfl, b, before, sibling, other, rfl⟩
    · exact ⟨⟨e, r.lhs, .node (mem_allBinary.mp present) derives other⟩, .left⟩
    · have span := other.span.1
      have next : start - 1 + 1 = start := by omega
      have here : b + sibling.width = start := by omega
      refine ⟨⟨stop, r.lhs, .node (mem_allBinary.mp present) other ?_⟩, ?_⟩
      · rw [next]
        exact derives
      · rw [← here]
        exact .right
  · intro child
    rcases child with ⟨⟨stop', nt', whole⟩, relation⟩
    cases relation with
    | @left _ rule _ sibling =>
      cases whole with
      | @node _ _ m _ _ a b _ _ found first second =>
        rcases first.unique derives with ⟨rfl, rfl⟩
        exact .inl ⟨⟨rule, nt', _, b⟩, mem_allBinary.mpr found, rfl, stop', second.order, second.span.2,
          sibling, second, rfl⟩
    | @right i rule sibling _ =>
      cases whole with
      | @node _ _ m _ _ a b _ _ found first second =>
        have span := first.span.1
        have positive := sibling.width_pos
        rw [← span] at second
        rcases second.unique derives with ⟨rfl, rfl⟩
        refine .inr ⟨⟨rule, nt', a, _⟩, mem_allBinary.mpr found, rfl, i, by omega, sibling, ?_, rfl⟩
        rw [span]
        exact first

theorem nodup_parents (formed : s.rules.WellFormed) (derives : s.Derives tree start stop nt) :
    (s.parents tree start stop nt).Nodup := by
  have span := derives.span.1
  apply List.Nodup.append
  · apply nodup_flatMap_of_key (fun parent => (parent.2.rule, parent.1 + parent.2.width - 1))
      fun term => (term.rule, term.second.stop)
    · intro term member parent within
      rcases mem_allRightTerms.mp member with ⟨r, present, same, e, low, high, rfl⟩
      rcases List.mem_map.mp within with ⟨sibling, derived, rfl⟩
      have other := ((mem_derivations formed low).mp derived).span.1
      change (r.index, start + (tree.width + sibling.width) - 1) = (r.index, e)
      rw [← Nat.add_assoc, span, other]
      rfl
    · rw [Sentence.allRightTerms, List.map_flatMap]
      simp only [List.map_map]
      exact nodup_places (nodup_index _ _) List.nodup_range'
    · intro term member
      rcases mem_allRightTerms.mp member with ⟨r, present, same, e, low, high, rfl⟩
      apply (nodup_derivations formed low).map
      intro sibling sibling' equal
      cases equal
      rfl
  · apply nodup_flatMap_of_key (fun parent => (parent.2.rule, parent.1))
      fun term => (term.rule, term.second.start)
    · intro term member parent within
      rcases mem_allLeftTerms.mp member with ⟨r, present, same, b, before, rfl⟩
      rcases List.mem_map.mp within with ⟨sibling, derived, rfl⟩
      rfl
    · rw [Sentence.allLeftTerms, List.map_flatMap]
      simp only [List.map_map]
      exact nodup_places (nodup_index _ _) List.nodup_range
    · intro term member
      rcases mem_allLeftTerms.mp member with ⟨r, present, same, b, before, rfl⟩
      have order : b ≤ start - 1 := by omega
      apply (nodup_derivations formed order).map
      intro sibling sibling' equal
      cases equal
      rfl
  · intro parent isLeft isRight
    rcases (mem_leftParents formed).mp isLeft with ⟨_, _, _, _, _, _, _, _, same⟩
    rcases (mem_rightParents formed).mp isRight with ⟨_, _, _, b, before, _, _, same'⟩
    have place : start = b := congrArg Prod.fst (same.symm.trans same')
    omega

end

/-- A sum of which at most one item takes part. -/
theorem sum_unique {α : Type} {items : Finset α} {p : α → Prop} [DecidablePred p]
    [Decidable (∃ a ∈ items, p a)] (unique : ∀ a ∈ items, ∀ b ∈ items, p a → p b → a = b) (w : ℚ) :
    (∑ a ∈ items, if p a then w else 0) = if ∃ a ∈ items, p a then w else 0 := by
  by_cases some : ∃ a ∈ items, p a
  · rw [if_pos some]
    rcases some with ⟨a, member, holds⟩
    rw [Finset.sum_eq_single_of_mem a member, if_pos holds]
    intro b member' differ
    exact if_neg fun holds' => differ (unique b member' a member holds' holds)
  · rw [if_neg some]
    apply Finset.sum_eq_zero
    intro a member
    exact if_neg fun holds => some ⟨a, member, holds⟩

namespace Sentence

variable (s : Sentence ℚ)

/-- All derivations of the whole string. -/
def wholes : Finset Derivation := (s.derivations 0 (s.tokens.size - 1) s.rules.start).toFinset

/-- What all derivations of the whole string weigh that have the given tree at its place. -/
def share (part : Nat × Derivation) : ℚ :=
  ∑ whole ∈ s.wholes, if part ∈ whole.parts 0 then whole.weight s.value else 0

end Sentence

section

variable {s : Sentence ℚ} {tree : Derivation} {start stop nt : Nat}

/-- A term of an outside sum, spread over the trees that a sibling makes with the given one. -/
theorem product_share {term : Term} (join : Derivation → Derivation)
    (total : s.plain term.first = ((s.derivationsAt term.first).map (·.weight s.value)).sum)
    (weight : ∀ sibling, (join sibling).weight s.value =
      s.value term.rule * tree.weight s.value * sibling.weight s.value)
    (shares : ∀ sibling ∈ s.derivationsAt term.first,
      (join sibling).weight s.value * s.plain term.second = s.share (term.second.start, join sibling)) :
    tree.weight s.value * s.product s.plain (.outside start stop nt) term =
      (((s.derivationsAt term.first).map fun sibling => (term.second.start, join sibling)).map s.share).sum := by
  have product : s.product s.plain (.outside start stop nt) term =
      s.plain term.second * s.value term.rule * s.plain term.first := rfl
  rw [product, total, List.map_map, ← List.sum_map_mul_left, ← List.sum_map_mul_left]
  congr 1
  apply List.map_congr_left
  intro sibling member
  have here := shares sibling member
  rw [weight sibling] at here
  rw [Function.comp_apply, ← here]
  ring

variable (formed : s.rules.WellFormed)

include formed

theorem mem_wholes : tree ∈ s.wholes ↔ s.Derives tree 0 (s.tokens.size - 1) s.rules.start := by
  rw [Sentence.wholes, List.mem_toFinset]
  exact mem_derivations formed (Nat.zero_le _)

theorem share_whole (derives : s.Derives tree 0 stop nt) (full : stop + 1 = s.tokens.size) :
    s.share (0, tree) = if nt = s.rules.start then tree.weight s.value else 0 := by
  have root : ∀ whole ∈ s.wholes, ((0, tree) ∈ whole.parts 0 ↔ whole = tree) := by
    intro whole member
    have derives' := (mem_wholes formed).mp member
    constructor
    · intro within
      apply Derivation.part_unique (whole.self_mem_parts 0) within
      have span := derives.span.1
      have span' := derives'.span.1
      omega
    · intro same
      subst same
      exact whole.self_mem_parts 0
  have last : stop = s.tokens.size - 1 := by omega
  have start : tree ∈ s.wholes ↔ nt = s.rules.start := by
    rw [mem_wholes formed, ← last]
    constructor
    · intro derives'
      exact (derives.unique derives').2
    · intro same
      subst same
      exact derives
  calc s.share (0, tree)
      = ∑ whole ∈ s.wholes, if whole = tree then tree.weight s.value else 0 := by
        apply Finset.sum_congr rfl
        intro whole member
        rw [if_congr (root whole member) rfl rfl]
        split
        · rename_i same
          rw [same]
        · rfl
    _ = if nt = s.rules.start then tree.weight s.value else 0 := by
        rw [Finset.sum_ite_eq' s.wholes tree, if_congr start rfl rfl]

/-- In each derivation of the whole string a tree that is not all of it has one parent. -/
theorem share_parents (derives : s.Derives tree start stop nt)
    (below : ¬ (start = 0 ∧ stop + 1 = s.tokens.size)) :
    ((s.parents tree start stop nt).map s.share).sum = s.share (start, tree) := by
  rw [← List.sum_toFinset _ (nodup_parents formed derives)]
  unfold Sentence.share
  rw [Finset.sum_comm]
  apply Finset.sum_congr rfl
  intro whole member
  have derives' := (mem_wholes formed).mp member
  have parent : (∃ parent ∈ (s.parents tree start stop nt).toFinset, parent ∈ whole.parts 0) ↔
      (start, tree) ∈ whole.parts 0 := by
    simp only [List.mem_toFinset, mem_parents formed derives]
    constructor
    · intro above
      rcases above with ⟨parent, ⟨-, relation⟩, within⟩
      exact Derivation.child_mem_parts within relation
    · intro within
      rcases Derivation.parent_exists within with root | ⟨parent, within', relation⟩
      · cases root
        have last := (derives.unique derives').1
        have inside := derives.span.2
        exact absurd ⟨rfl, by omega⟩ below
      · exact ⟨parent, ⟨derives'.of_mem_parts within', relation⟩, within'⟩
  rw [sum_unique, if_congr parent rfl rfl]
  intro parent member other member' within within'
  rw [List.mem_toFinset, mem_parents formed derives] at member member'
  exact Derivation.parent_unique within within' member.2 member'.2

theorem weight_mul_outside (derives : s.Derives tree start stop nt) :
    tree.weight s.value * s.plainOutside start stop nt = s.share (start, tree) := by
  induction room : s.tokens.size - (stop - start) using Nat.strongRecOn
    generalizing tree start stop nt with
  | _ room ih =>
    subst room
    have order := derives.order
    have span := derives.span
    have sum := plain_sum (s := s) (.outside start stop nt)
    by_cases full : start = 0 ∧ stop + 1 = s.tokens.size
    · rcases full with ⟨rfl, last⟩
      rw [share_whole formed derives last, Sentence.plainOutside, if_pos ⟨rfl, last⟩]
      split
      · exact mul_one _
      · exact mul_zero _
    · rw [Sentence.plainPlan, if_neg full] at sum
      rw [← share_parents formed derives full, Sentence.parents, List.map_append, List.sum_append,
        Sentence.leftParents, Sentence.rightParents, sum_flatMap, sum_flatMap]
      have split : s.plainOutside start stop nt =
          ((s.allRightTerms start stop nt).map (s.product s.plain (.outside start stop nt))).sum +
            ((s.allLeftTerms start stop nt).map (s.product s.plain (.outside start stop nt))).sum := by
        rw [← List.sum_append, ← List.map_append]
        exact sum.trans (zero_add _)
      rw [split, mul_add, ← List.sum_map_mul_left, ← List.sum_map_mul_left]
      congr 2
      · apply List.map_congr_left
        intro term member
        rcases mem_allRightTerms.mp member with ⟨r, present, rfl, e, low, high, rfl⟩
        apply product_share (Derivation.node r.index tree)
        · exact plainInside_eq formed low
        · intro sibling
          rfl
        · intro sibling derived
          have other := (mem_derivations formed low).mp derived
          exact ih (s.tokens.size - (e - start)) (by omega) (.node (mem_allBinary.mp present) derives other) rfl
      · apply List.map_congr_left
        intro term member
        rcases mem_allLeftTerms.mp member with ⟨r, present, rfl, b, before, rfl⟩
        have low : b ≤ start - 1 := by omega
        apply product_share (Derivation.node r.index · tree)
        · exact plainInside_eq formed low
        · intro sibling
          change s.value r.index * sibling.weight s.value * tree.weight s.value = _
          ring
        · intro sibling derived
          have other := (mem_derivations formed low).mp derived
          have next : start - 1 + 1 = start := by omega
          rw [← next] at derives
          exact ih (s.tokens.size - (stop - b)) (by omega) (.node (mem_allBinary.mp present) other derives) rfl

end

end StochasticGrammar
