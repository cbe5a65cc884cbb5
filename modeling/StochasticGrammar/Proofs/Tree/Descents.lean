import Mathlib.Algebra.Group.Nat.Even
import StochasticGrammar.Expansion

/-!
Expansions from the left, symbol by symbol. Where the tree of a derivation goes no deeper than a limit
it has fewer nodes than two to the limit, so that no more symbols are expanded; an expansion fails at the
limit when it comes to a node of the tree that lies deeper.
-/

namespace StochasticGrammar

namespace WeightedRules

/-- A symbol in the tree of a derivation, with the sides to be taken from the root to it: the right one
for `true`. -/
structure Node where
  nt : Nat
  path : List Bool
  deriving DecidableEq, Repr

def Node.depth (node : Node) : Nat := node.path.length + 1

def Node.pending (node : Node) : Pending := ⟨node.nt, node.depth⟩

variable {W σ : Type} [Weight W] (g : WeightedRules W)

def Node.children (node : Node) (rule : Nat) : List Node :=
  match g.rules.production? rule with
  | some (.binary left right) => [⟨left, node.path ++ [false]⟩, ⟨right, node.path ++ [true]⟩]
  | _ => []

/-- The symbol that is expanded after `n` others, if none of those is without a rule to choose. -/
def popped (draw : σ → W × σ) : (n : Nat) → (waiting : List Node) → σ → Option Node
  | _, [], _ => none
  | 0, node :: _, _ => some node
  | n + 1, node :: rest, source =>
    match g.choose draw node.nt source with
    | (none, _) => none
    | (some rule, source) => popped draw n (node.children g rule ++ rest) source

/-- An expansion that is given up when more than `most` rules have to be chosen. -/
def expandWithin (draw : σ → W × σ) (limit : Nat) :
    (most : Nat) → Array Nat → List Pending → σ → Option (Except Error (Array Nat) × σ)
  | _, yield, [], source => some (.ok yield, source)
  | 0, _, p :: _, source => if limit < p.depth then some (.error (.tooDeep limit), source) else none
  | most + 1, yield, p :: rest, source =>
    if limit < p.depth then some (.error (.tooDeep limit), source)
    else match g.choose draw p.nt source with
      | (none, source) => some (.error (.probability (.nonTerminal p.nt) .noPositiveRule), source)
      | (some rule, source) =>
        match g.rules.production? rule with
        | some (.binary left right) =>
          expandWithin draw limit most yield (⟨left, p.depth + 1⟩ :: ⟨right, p.depth + 1⟩ :: rest) source
        | some (.terminal terminal) => expandWithin draw limit most (yield.push terminal) rest source
        | none => expandWithin draw limit most yield rest source

def spawnWithin (draw : σ → W × σ) (most : Nat) (root : Option Nat) (limit : Nat) (source : σ) :
    Option (Except Error (Array Nat) × σ) :=
  let root := root.getD g.rules.start
  if root < g.rules.nonTerminals then g.expandWithin draw limit most #[] [⟨root, 1⟩] source
  else some (.error (.unknownNonTerminal root g.rules.nonTerminals), source)

/-- The symbols of a rule, one level below the one that it is for. -/
def Pending.children (p : Pending) (rule : Nat) : List Pending :=
  match g.rules.production? rule with
  | some (.binary left right) => [⟨left, p.depth + 1⟩, ⟨right, p.depth + 1⟩]
  | _ => []

/-- What a rule adds to the yield. -/
def shown (rule : Nat) : Array Nat :=
  match g.rules.production? rule with
  | some (.terminal terminal) => #[terminal]
  | _ => #[]

/-- The number of nodes in a tree that is full down to the given level. -/
def fullTree : (levels : Nat) → Nat
  | 0 => 0
  | levels + 1 => 2 * fullTree levels + 1

/-- How many more rules the symbols in waiting can have chosen for them within the limit. -/
def bound (limit : Nat) (waiting : List Pending) : Nat :=
  waiting.foldr (fun p rest => fullTree (limit + 1 - p.depth) + rest) 0

theorem fullTree_eq (levels : Nat) : fullTree levels = 2 ^ levels - 1 := by
  have next : fullTree levels + 1 = 2 ^ levels := by
    induction levels with
    | zero => rfl
    | succ levels ih =>
      calc fullTree (levels + 1) + 1
          = 2 * (fullTree levels + 1) := by rw [fullTree]; omega
        _ = 2 ^ (levels + 1) := by rw [ih, Nat.pow_succ']
  omega

theorem bound_root (limit root : Nat) : bound limit [⟨root, 1⟩] = 2 ^ limit - 1 := by
  rw [← fullTree_eq]
  rfl

variable {g} {draw : σ → W × σ} {limit most rule : Nat} {p : Pending} {rest : List Pending} {yield : Array Nat}
  {source last : σ}

omit [Weight W] in
/-- A node counts for more than the two below it. -/
theorem bound_children (shallow : ¬ limit < p.depth) (rule : Nat) (rest : List Pending) :
    bound limit (p.children g rule ++ rest) < bound limit (p :: rest) := by
  have step : limit + 1 - p.depth = (limit + 1 - (p.depth + 1)) + 1 := by omega
  have here : bound limit (p :: rest) = 2 * fullTree (limit + 1 - (p.depth + 1)) + 1 + bound limit rest := by
    rw [bound, List.foldr_cons, step]
    rfl
  rw [here]
  unfold Pending.children
  split
  · simp only [bound, List.cons_append, List.nil_append, List.foldr_cons]
    omega
  · rw [List.nil_append]
    omega

theorem exceeded_some_eq (limit depth : Nat) :
    exceeded? (some limit) depth = if limit < depth then some limit else none := by
  simp [exceeded?, Option.filter]

theorem expand_deep (deep : limit < p.depth) :
    g.expand draw (some limit) yield (p :: rest) source = some (.error (.tooDeep limit), source) := by
  rw [expand, exceeded_some_eq, if_pos deep]

theorem expand_none (shallow : ¬ limit < p.depth) (chosen : g.choose draw p.nt source = (none, last)) :
    g.expand draw (some limit) yield (p :: rest) source =
      some (.error (.probability (.nonTerminal p.nt) .noPositiveRule), last) := by
  rw [expand, exceeded_some_eq, if_neg shallow, chosen]

/-- One turn of an expansion, whatever the rule that is chosen. -/
theorem expand_turn (shallow : ¬ limit < p.depth) (chosen : g.choose draw p.nt source = (some rule, last)) :
    g.expand draw (some limit) yield (p :: rest) source =
      g.expand draw (some limit) (yield ++ g.shown rule) (p.children g rule ++ rest) last := by
  rw [expand, exceeded_some_eq, if_neg shallow, chosen]
  unfold shown Pending.children
  rcases made : g.rules.production? rule with _ | terminal | ⟨left, right⟩
  · simp [made]
  · simp [made]
  · simp [made]

theorem expandWithin_turn (shallow : ¬ limit < p.depth) (chosen : g.choose draw p.nt source = (some rule, last)) :
    g.expandWithin draw limit (most + 1) yield (p :: rest) source =
      g.expandWithin draw limit most (yield ++ g.shown rule) (p.children g rule ++ rest) last := by
  rw [expandWithin, if_neg shallow, chosen]
  unfold shown Pending.children
  rcases made : g.rules.production? rule with _ | terminal | ⟨left, right⟩
  · simp [made]
  · simp [made]
  · simp [made]

/-- What the symbols in waiting can give rise to is all that is ever expanded. -/
theorem expandWithin_eq {waiting : List Pending} (room : bound limit waiting ≤ most) (yield : Array Nat)
    (source : σ) :
    ∃ result, g.expandWithin draw limit most yield waiting source = some result ∧
      g.expand draw (some limit) yield waiting source = some result := by
  induction most generalizing waiting yield source with
  | zero =>
    cases waiting with
    | nil => exact ⟨_, by rw [expandWithin], by rw [expand]⟩
    | cons p rest =>
      by_cases deep : limit < p.depth
      · exact ⟨_, by rw [expandWithin, if_pos deep], expand_deep deep⟩
      · have less := bound_children (g := g) deep 0 rest
        omega
  | succ most ih =>
    cases waiting with
    | nil => exact ⟨_, by rw [expandWithin], by rw [expand]⟩
    | cons p rest =>
      by_cases deep : limit < p.depth
      · exact ⟨_, by rw [expandWithin, if_pos deep], expand_deep deep⟩
      · rcases chosen : g.choose draw p.nt source with ⟨_ | rule, last⟩
        · exact ⟨_, by rw [expandWithin, if_neg deep, chosen], expand_none deep chosen⟩
        · have less := bound_children (g := g) deep rule rest
          rw [expandWithin_turn deep chosen, expand_turn deep chosen]
          exact ih (by omega) _ last

theorem spawnWithin_eq (root : Option Nat) (source : σ) :
    ∃ result, g.spawnWithin draw (2 ^ limit - 1) root limit source = some result ∧
      g.spawn draw root (some limit) source = some result := by
  unfold spawnWithin spawn
  simp only
  split
  · exact expandWithin_eq (Nat.le_of_eq (bound_root limit _)) #[] source
  · exact ⟨_, rfl, rfl⟩

omit [Weight W] in
/-- The children of a node are put in waiting one level below it. -/
theorem pending_children (node : Node) (rule : Nat) :
    (node.children g rule).map Node.pending = node.pending.children g rule := by
  unfold Node.children Pending.children
  rcases g.rules.production? rule with _ | terminal | ⟨left, right⟩
  · rfl
  · rfl
  · simp [Node.pending, Node.depth]

/-- When a node above the limit is expanded, the others come one turn later than without it. -/
theorem popped_later {node : Node} {rest next : List Node} (shallow : ¬ limit < node.depth)
    (step : ∀ n, g.popped draw (n + 1) (node :: rest) source = g.popped draw n next last) :
    (∃ n other, g.popped draw n (node :: rest) source = some other ∧ limit < other.depth) ↔
      ∃ n other, g.popped draw n next last = some other ∧ limit < other.depth := by
  constructor
  · intro found
    obtain ⟨n, other, here, deep⟩ := found
    cases n with
    | zero =>
      rw [popped, Option.some.injEq] at here
      rw [here] at shallow
      exact absurd deep shallow
    | succ n => exact ⟨n, other, (step n).symm.trans here, deep⟩
  · intro found
    obtain ⟨n, other, here, deep⟩ := found
    exact ⟨n + 1, other, (step n).trans here, deep⟩

/-- An expansion fails at the limit when it comes to a node below it. -/
theorem expand_tooDeep_iff (yield : Array Nat) (nodes : List Node) (source : σ) :
    (∃ last, g.expand draw (some limit) yield (nodes.map Node.pending) source =
        some (.error (.tooDeep limit), last)) ↔
      ∃ n node, g.popped draw n nodes source = some node ∧ limit < node.depth := by
  -- What is left to be expanded gets less in each turn.
  induction count : bound limit (nodes.map Node.pending) using Nat.strong_induction_on
    generalizing yield nodes source with
  | h size ih =>
    cases nodes with
    | nil =>
      rw [List.map_nil, expand]
      simp [popped]
    | cons node others =>
      rw [List.map_cons]
      by_cases deep : limit < node.depth
      · exact iff_of_true ⟨source, expand_deep (p := node.pending) deep⟩ ⟨0, node, rfl, deep⟩
      · rcases chosen : g.choose draw node.nt source with ⟨_ | rule, last⟩
        · have nothing (n : Nat) : g.popped draw (n + 1) (node :: others) source = g.popped draw n [] last := by
            simp only [popped, chosen]
          have none : ¬ ∃ n other, g.popped draw n [] last = some other ∧ limit < other.depth := by simp [popped]
          rw [expand_none (p := node.pending) deep chosen]
          exact iff_of_false (by simp) (mt (popped_later deep nothing).mp none)
        · have step (n : Nat) : g.popped draw (n + 1) (node :: others) source =
              g.popped draw n (node.children g rule ++ others) last := by rw [popped, chosen]
          have waiting : (node.children g rule ++ others).map Node.pending =
              node.pending.children g rule ++ others.map Node.pending := by
            rw [List.map_append, pending_children]
          have less : bound limit ((node.children g rule ++ others).map Node.pending) < size := by
            rw [waiting, ← count]
            exact bound_children (p := node.pending) deep rule (others.map Node.pending)
          have next := ih _ less (yield ++ g.shown rule) (node.children g rule ++ others) last rfl
          rw [expand_turn (p := node.pending) deep chosen, ← waiting]
          exact next.trans (popped_later deep step).symm

/-- Whatever is popped before another symbol has had a rule to choose. -/
theorem exists_choose_of_popped {n m : Nat} {waiting : List Node} {source : σ} {node other : Node} (before : m < n)
    (here : g.popped draw n waiting source = some node) (earlier : g.popped draw m waiting source = some other) :
    ∃ from', (g.choose draw other.nt from').1 ≠ none := by
  induction n generalizing m waiting source with
  | zero => omega
  | succ n ih =>
    cases waiting with
    | nil => cases here
    | cons first rest =>
      rcases chosen : g.choose draw first.nt source with ⟨_ | rule, last⟩
      · rw [popped, chosen] at here
        cases here
      · cases m with
        | zero =>
          cases earlier
          exact ⟨source, by simp [chosen]⟩
        | succ m =>
          rw [popped, chosen] at here earlier
          exact ih (by omega) here earlier

end WeightedRules

end StochasticGrammar
