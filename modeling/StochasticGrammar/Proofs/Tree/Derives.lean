import StochasticGrammar.Derivation
import StochasticGrammar.Proofs.Chart.Pruned

/-!
Which trees derive a span from a non-terminal, and the trees inside of them. A tree that derives a
span fixes it, and the pruning tables let the span pass.
-/

namespace StochasticGrammar

namespace Derivation

def rules : Derivation → List Nat
  | leaf rule => [rule]
  | node rule left right => rule :: (left.rules ++ right.rules)

theorem forall_mem_rules_node {rule : Nat} {left right : Derivation} {P : Nat → Prop} :
    (∀ other ∈ (node rule left right).rules, P other) ↔
      P rule ∧ (∀ other ∈ left.rules, P other) ∧ ∀ other ∈ right.rules, P other := by
  rw [rules, List.forall_mem_cons, List.forall_mem_append]

/-- The product of the rules, from the leaves up. -/
def weight {W : Type} [Weight W] (value : Nat → W) : Derivation → W
  | leaf rule => value rule
  | node rule left right => value rule * left.weight value * right.weight value

/-- The tree and all trees below it, each with the position where it begins. -/
def parts : Derivation → (start : Nat) → List (Nat × Derivation)
  | leaf rule, start => [(start, leaf rule)]
  | node rule left right, start =>
    (start, node rule left right) :: (left.parts start ++ right.parts (start + left.width))

/-- The root of a tree as it is placed. -/
def root : Derivation → (start : Nat) → Placed
  | leaf rule, start => ⟨start, start, rule, none⟩
  | node rule left right, start =>
    ⟨start, start + left.width + right.width - 1, rule, some (start + left.width - 1)⟩

theorem width_pos (tree : Derivation) : 0 < tree.width := by
  cases tree with
  | leaf rule => exact Nat.one_pos
  | node rule left right => exact Nat.lt_of_lt_of_le (width_pos left) (Nat.le_add_right _ _)

theorem self_mem_parts (tree : Derivation) (start : Nat) : (start, tree) ∈ tree.parts start := by
  cases tree with
  | leaf rule => exact List.mem_singleton_self _
  | node rule left right => exact List.mem_cons_self

theorem parts_span {tree part : Derivation} {start i : Nat} (member : (i, part) ∈ tree.parts start) :
    start ≤ i ∧ i + part.width ≤ start + tree.width := by
  induction tree generalizing start with
  | leaf rule =>
    cases List.mem_singleton.mp member
    exact ⟨Nat.le_refl _, Nat.le_refl _⟩
  | node rule left right leftIh rightIh =>
    rcases List.mem_cons.mp member with same | below
    · cases same
      exact ⟨Nat.le_refl _, Nat.le_refl _⟩
    · rw [width]
      rcases List.mem_append.mp below with inLeft | inRight
      · have span := leftIh inLeft
        omega
      · have span := rightIh inRight
        omega

end Derivation

/-- That a tree derives the tokens from `start` to `stop` from a non-terminal. -/
inductive Sentence.Derives {W : Type} (s : Sentence W) : Derivation → Nat → Nat → Nat → Prop where
  | leaf {rule i nt t : Nat} (found : s.rules.rules[rule]? = some ⟨nt, .terminal t⟩)
      (token : s.tokens[i]? = some t) : Derives s (.leaf rule) i i nt
  | node {rule start m stop nt a b : Nat} {left right : Derivation}
      (found : s.rules.rules[rule]? = some ⟨nt, .binary a b⟩) (first : Derives s left start m a)
      (second : Derives s right (m + 1) stop b) : Derives s (.node rule left right) start stop nt

namespace Sentence.Derives

variable {W : Type} {s : Sentence W} {tree part : Derivation} {start stop nt : Nat}

theorem span (derives : s.Derives tree start stop nt) :
    start + tree.width = stop + 1 ∧ stop < s.tokens.size := by
  induction derives with
  | leaf found token => exact ⟨rfl, (Array.getElem?_eq_some_iff.mp token).1⟩
  | node found first second firstIh secondIh =>
    rw [Derivation.width]
    omega

/-- The right child begins after the split of the root. -/
theorem node_parts {rule : Nat} {right : Derivation} (first : s.Derives tree start stop nt) :
    ((Derivation.node rule tree right).root start).split = some stop ∧
      (Derivation.node rule tree right).parts start =
        (start, .node rule tree right) :: (tree.parts start ++ right.parts (stop + 1)) := by
  have span := first.span.1
  constructor
  · change some (start + tree.width - 1) = some stop
    rw [span]
    rfl
  · rw [Derivation.parts, span]

theorem order (derives : s.Derives tree start stop nt) : start ≤ stop := by
  have span := derives.span.1
  have positive := tree.width_pos
  omega

/-- A tree fixes where it stops and which non-terminal it derives from. -/
theorem unique (derives : s.Derives tree start stop nt) {stop' nt' : Nat}
    (other : s.Derives tree start stop' nt') : stop = stop' ∧ nt = nt' := by
  have span := derives.span.1
  have span' := other.span.1
  refine ⟨by omega, ?_⟩
  cases derives with
  | leaf found token =>
    cases other with
    | leaf found' token' =>
      rw [found] at found'
      cases found'
      rfl
  | node found first second =>
    cases other with
    | node found' first' second' =>
      rw [found] at found'
      cases found'
      rfl

theorem nt_lt (formed : s.rules.WellFormed) (derives : s.Derives tree start stop nt) :
    nt < s.rules.nonTerminals := by
  cases derives with
  | leaf found token => exact (formed.terminal (Array.mem_of_getElem? found)).1
  | node found first second => exact (formed.binary (Array.mem_of_getElem? found)).1

theorem mayCover (formed : s.rules.WellFormed) (derives : s.Derives tree start stop nt) :
    s.mayCover nt start stop = true := by
  induction derives with
  | leaf found token => exact mayCover_token formed found token
  | @node rule start m stop nt a b left right found first second firstIh secondIh =>
    have member : (⟨rule, nt, a, b⟩ : BinaryRule) ∈ BinaryRule.all s.rules.rules :=
      mem_allBinary.mpr found
    exact mayCover_binary formed member firstIh secondIh

/-- Every tree within a tree derives its own span. -/
theorem of_mem_parts (derives : s.Derives tree start stop nt) {i : Nat} (member : (i, part) ∈ tree.parts start) :
    ∃ stop' nt', s.Derives part i stop' nt' := by
  induction derives with
  | leaf found token =>
    cases List.mem_singleton.mp member
    exact ⟨_, _, .leaf found token⟩
  | node found first second firstIh secondIh =>
    rw [first.node_parts.2] at member
    rcases List.mem_cons.mp member with same | below
    · cases same
      exact ⟨_, _, .node found first second⟩
    · rcases List.mem_append.mp below with inLeft | inRight
      · exact firstIh inLeft
      · exact secondIh inRight

/-- Every position of a derivation is that of a leaf. -/
theorem exists_leaf (derives : s.Derives tree start stop nt) {i : Nat} (low : start ≤ i) (high : i ≤ stop) :
    ∃ part nt', s.Derives part i i nt' ∧ (i, part) ∈ tree.parts start := by
  induction derives with
  | leaf found token =>
    cases Nat.le_antisymm low high
    exact ⟨_, _, .leaf found token, List.mem_singleton_self _⟩
  | @node rule start m stop nt a b left right found first second firstIh secondIh =>
    rw [first.node_parts.2]
    rcases Nat.lt_or_ge m i with after | before
    · obtain ⟨part, nt', derives, within⟩ := secondIh after high
      exact ⟨part, nt', derives, List.mem_cons_of_mem _ (List.mem_append_right _ within)⟩
    · obtain ⟨part, nt', derives, within⟩ := firstIh low before
      exact ⟨part, nt', derives, List.mem_cons_of_mem _ (List.mem_append_left _ within)⟩

end Sentence.Derives

end StochasticGrammar
