import StochasticGrammar.Proofs.Tree.Support

/-!
Spans with a single derivation. As long as no weight is infinite, a span whose derivations cannot be used
weighs nothing, and a span of which one derivation can be used weighs what that derivation does, to the
last bit: all that is added to it is zero.
-/

namespace StochasticGrammar

open Double

/-- All rules weigh something. -/
def Derivation.usable (value : Nat → Float) (tree : Derivation) : Bool :=
  tree.rules.all fun rule => decide (0.0 < value rule)

def usableAmong (value : Nat → Float) (trees : List Derivation) : List Derivation :=
  trees.filter (Derivation.usable value)

/-- What a weight says of the usable trees among those whose weights it adds up, when there are no two
of them. -/
structure Resolves (value : Nat → Float) (x : Float) (trees : List Derivation) : Prop where
  sign : Nonnegative x
  none : usableAmong value trees = [] → (x == 0.0) = true
  single : ∀ tree, usableAmong value trees = [tree] → x = tree.weight value

section

variable {value : Nat → Float} {x y : Float} {trees others : List Derivation} {tree : Derivation}

namespace Derivation

theorem usable_iff : tree.usable value = true ↔ ∀ rule ∈ tree.rules, 0.0 < value rule := by
  simp only [usable, List.all_eq_true, decide_eq_true_eq]

theorem usable_node (rule : Nat) (left right : Derivation) :
    (node rule left right).usable value = (decide (0.0 < value rule) && (left.usable value && right.usable value)) := by
  simp only [usable, rules, List.all_cons, List.all_append]

end Derivation

theorem usable_of_single (single : usableAmong value trees = [tree]) : tree.usable value = true := by
  have member : tree ∈ usableAmong value trees := by rw [single]; exact List.mem_singleton_self _
  exact (List.mem_filter.mp member).2

theorem usableAmong_append :
    usableAmong value (trees ++ others) = usableAmong value trees ++ usableAmong value others :=
  List.filter_append _ _

/-- Of the trees with a common root those can be used whose parts can, if the root can. -/
theorem usableAmong_nodes {rule : Nat} (positive : 0.0 < value rule) :
    usableAmong value (trees.flatMap fun left => others.map fun right => .node rule left right) =
      (usableAmong value trees).flatMap fun left =>
        (usableAmong value others).map fun right => .node rule left right := by
  have usable (left right : Derivation) : (Derivation.node rule left right).usable value =
      (left.usable value && right.usable value) := by
    rw [Derivation.usable_node, decide_eq_true positive, Bool.true_and]
  unfold usableAmong
  induction trees with
  | nil => rfl
  | cons left trees ih =>
    rw [List.flatMap_cons, List.filter_append, ih, List.filter_map]
    simp only [Function.comp_def, usable]
    cases here : left.usable value with
    | true => simp [here]
    | false => simp [here]

theorem usableAmong_nodes_of_not_pos {rule : Nat} (zero : ¬ 0.0 < value rule) :
    usableAmong value (trees.flatMap fun left => others.map fun right => .node rule left right) = [] := by
  rw [usableAmong, List.filter_eq_nil_iff]
  intro tree member
  obtain ⟨left, -, made⟩ := List.mem_flatMap.mp member
  obtain ⟨right, -, rfl⟩ := List.mem_map.mp made
  rw [Derivation.usable_node, decide_eq_false zero, Bool.false_and]
  exact Bool.false_ne_true

variable (fractions : ∀ rule, Fraction (value rule))

include fractions

theorem unmarked_weight (usable : tree.usable value = true) : Unmarked (number (tree.weight value)) := by
  rw [Derivation.usable_iff] at usable
  induction tree with
  | leaf rule => exact unmarked_of_pos (usable rule (List.mem_singleton_self _))
  | node rule left right leftIh rightIh =>
    obtain ⟨root, first, second⟩ := Derivation.forall_mem_rules_node.mp usable
    have left' := Supports.fraction_tree fractions left
    have front := unmarked_product (unmarked_of_pos root) (leftIh first) (fractions rule).isFinite left'.isFinite
    have finite := (Fraction.mul (fractions rule) left').1.isFinite
    exact unmarked_product front (rightIh second) finite (Supports.fraction_tree fractions right).isFinite

namespace Resolves

omit fractions in
theorem zero : Resolves value 0.0 [] where
  sign := nonnegative_zero
  none _ := by decide +kernel
  single tree one := by cases one

theorem leaf (rule : Nat) : Resolves value (value rule) [.leaf rule] where
  sign := (fractions rule).height_eq.1
  none empty := by
    rw [beq_zero_iff_not_pos (fractions rule).height_eq.1]
    intro positive
    rw [usableAmong, List.filter_eq_nil_iff] at empty
    refine empty _ (List.mem_singleton_self _) ?_
    rw [Derivation.usable_iff]
    intro other used
    rwa [List.mem_singleton.mp used]
  single tree one := by
    have member : tree ∈ usableAmong value [.leaf rule] := by rw [one]; exact List.mem_singleton_self _
    rw [List.mem_singleton.mp (List.mem_filter.mp member).1]
    rfl

theorem remembered (resolves : Resolves value x trees) (constant : Bool) :
    Resolves value (remembered x constant).1 trees := by
  unfold StochasticGrammar.remembered
  split
  · rename_i zero
    rw [Bool.and_eq_true] at zero
    refine ⟨nonnegative_zero, fun _ => by decide +kernel, fun tree one => ?_⟩
    have weight := resolves.single tree one
    rw [weight] at zero
    exact ((unmarked_weight fractions (usable_of_single one)).unsigned zero.2).symm
  · split
    · rename_i one
      rw [Bool.and_eq_true] at one
      rw [eq_one one.2] at resolves
      exact resolves
    · exact resolves

theorem add (unsigned : Unsigned x) (left : Resolves value x trees) (right : Resolves value y others) :
    Resolves value (x + y) (trees ++ others) := by
  refine ⟨(height_add left.sign right.sign).1, fun empty => ?_, fun tree one => ?_⟩
  · rw [usableAmong_append, List.append_eq_nil_iff] at empty
    rw [add_zero unsigned (right.none empty.2)]
    exact left.none empty.1
  · rw [usableAmong_append, List.append_eq_singleton_iff] at one
    rcases one with ⟨empty, one⟩ | ⟨one, empty⟩
    · have zero : x = 0.0 := unsigned (left.none empty)
      rw [zero, right.single tree one]
      exact zero_add (unmarked_weight fractions (usable_of_single one)).unsigned
    · rw [add_zero unsigned (right.none empty)]
      exact left.single tree one

/-- A rule above two parts whose weights are finite. -/
theorem node (rule : Nat) (left : Resolves value x trees) (right : Resolves value y others)
    (finite : x.isFinite = true) (finite' : y.isFinite = true) :
    Resolves value (value rule * x * y)
      (trees.flatMap fun first => others.map fun second => .node rule first second) := by
  have here := (fractions rule).height_eq.1
  have front := here.mul left.sign (fractions rule).isFinite finite
  have finite'' := (fractions rule).isFinite_mul left.sign finite
  have nothing := (fractions rule).product_zero left.sign finite finite'
  refine ⟨front.mul right.sign finite'' finite', fun empty => ?_, fun tree one => ?_⟩
  · by_cases positive : 0.0 < value rule
    · rw [usableAmong_nodes positive, List.flatMap_eq_nil_iff] at empty
      simp only [List.map_eq_nil_iff] at empty
      cases among : usableAmong value trees with
      | nil => exact nothing (.inr (.inl (left.none among)))
      | cons first rest =>
        have empty := empty first (among ▸ List.mem_cons_self)
        exact nothing (.inr (.inr (right.none empty)))
    · exact nothing (.inl ((beq_zero_iff_not_pos here).mpr positive))
  · by_cases positive : 0.0 < value rule
    · rw [usableAmong_nodes positive] at one
      have count : (usableAmong value trees).length * (usableAmong value others).length = 1 := by
        have length := congrArg List.length one
        simpa [List.length_flatMap] using length
      obtain ⟨first, amongLeft⟩ := List.length_eq_one_iff.mp (Nat.eq_one_of_mul_eq_one_right count)
      obtain ⟨second, amongRight⟩ := List.length_eq_one_iff.mp (Nat.eq_one_of_mul_eq_one_left count)
      rw [amongLeft, amongRight] at one
      cases one
      rw [left.single first amongLeft, right.single second amongRight]
      rfl
    · rw [usableAmong_nodes_of_not_pos positive] at one
      cases one

end Resolves

end

/-- As long as no span weighs infinitely much, the weight of a span tells its usable derivation. -/
theorem settled_resolves {s : Sentence Float} (fractions : ∀ rule, Fraction (s.value rule))
    (formed : s.rules.WellFormed)
    (bounded : ∀ {start stop nt}, s.Within (.inside start stop nt) →
      (s.settled (.inside start stop nt)).1.isInf = false)
    {start stop nt : Nat} (within : s.Within (.inside start stop nt)) :
    Resolves s.value (s.settled (.inside start stop nt)).1 (s.derivations start stop nt) := by
  apply inside_induction (P := Resolves s.value) formed .zero (Resolves.leaf fractions)
    (fun constant resolves => resolves.remembered fractions constant) _ within
  intro rule start m stop nt a b total trees first second unsigned resolves left right
  have finite := left.sign.isFinite (bounded first)
  have finite' := right.sign.isFinite (bounded second)
  have sum := resolves.add fractions unsigned (left.node fractions rule right finite finite')
  rw [Sentence.addKnown_eq]
  split
  · rename_i skip
    -- What is left out of a sum would have changed nothing.
    simp only [Sentence.constantZero, Bool.or_eq_true, Bool.and_eq_true] at skip
    have nothing := (fractions rule).product_zero left.sign finite finite'
      (.inr (skip.imp And.left And.left))
    rwa [add_zero unsigned nothing] at sum
  · exact sum

/-- The weight of a span of which no two derivations can be used. -/
theorem settled_single {s : Sentence Float} (fractions : ∀ rule, Fraction (s.value rule))
    (formed : s.rules.WellFormed)
    (bounded : ∀ {start stop nt}, s.Within (.inside start stop nt) →
      (s.settled (.inside start stop nt)).1.isInf = false)
    {start stop nt : Nat} (within : s.Within (.inside start stop nt))
    (single : ∀ tree other, s.Usable tree start stop nt → s.Usable other start stop nt → tree = other) :
    (∀ tree, s.Usable tree start stop nt → (s.settled (.inside start stop nt)).1 = tree.weight s.value) ∧
      ((∀ tree, ¬ s.Usable tree start stop nt) → ((s.settled (.inside start stop nt)).1 == 0.0) = true) := by
  have resolves := settled_resolves fractions formed bounded within
  have mem_iff {tree : Derivation} :
      tree ∈ usableAmong s.value (s.derivations start stop nt) ↔ s.Usable tree start stop nt := by
    rw [usableAmong, List.mem_filter, mem_derivations formed within.1, Derivation.usable_iff]
    rfl
  constructor
  · intro tree usable
    apply resolves.single
    have distinct : (usableAmong s.value (s.derivations start stop nt)).Nodup :=
      (nodup_derivations formed within.1).filter _
    apply List.perm_singleton.mp
    rw [List.perm_ext_iff_of_nodup distinct (List.nodup_singleton tree)]
    intro other
    rw [mem_iff, List.mem_singleton]
    constructor
    · exact fun usable' => single other tree usable' usable
    · rintro rfl
      exact usable
  · intro none
    apply resolves.none
    exact List.eq_nil_iff_forall_not_mem.mpr fun tree member => none tree (mem_iff.mp member)

end StochasticGrammar
