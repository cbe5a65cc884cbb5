import StochasticGrammar.Expansion
import StochasticGrammar.Proofs.Tree.Derives

/-!
Random derivations as trees. What is expanded from a non-terminal is the yield of one tree, grown from
the root down and from the left to the right, and the symbols in waiting behind it are expanded after
it. So a list of terminals is drawn by growing one tree from the root. Both may go on for ever, and then
both do: each of the two follows the equations of the other, and comes to a result only where they say so.
-/

namespace StochasticGrammar

namespace Derivation

/-- The number of nodes on the longest way from the root to a leaf. -/
def depth : Derivation → Nat
  | leaf _ => 1
  | node _ left right => max left.depth right.depth + 1

/-- The terminals at the leaves, from the left to the right. -/
def yield (g : RuleSet) : Derivation → List Nat
  | leaf rule =>
    match g.production? rule with
    | some (.terminal terminal) => [terminal]
    | _ => []
  | node _ left right => left.yield g ++ right.yield g

end Derivation

namespace RuleSet

/-- That each node of a tree is a rule for its non-terminal, with the symbols of the trees below it. -/
inductive Rooted (g : RuleSet) : Derivation → Nat → Prop where
  | leaf {rule nt terminal : Nat} (found : g.rules[rule]? = some ⟨nt, .terminal terminal⟩) :
      Rooted g (.leaf rule) nt
  | node {rule nt a b : Nat} {left right : Derivation} (found : g.rules[rule]? = some ⟨nt, .binary a b⟩)
      (first : Rooted g left a) (second : Rooted g right b) : Rooted g (.node rule left right) nt

variable {g : RuleSet}

theorem production_eq_some_iff {rule : Nat} {production : Production} :
    g.production? rule = some production ↔ ∃ nt, g.rules[rule]? = some ⟨nt, production⟩ := by
  rw [production?, rule?, Option.map_eq_some_iff]
  constructor
  · rintro ⟨⟨nt, _⟩, found, rfl⟩
    exact ⟨nt, found⟩
  · rintro ⟨nt, found⟩
    exact ⟨_, found, rfl⟩

theorem mem_rulesOf (formed : g.WellFormed) {nt rule : Nat} :
    rule ∈ g.rulesOf nt ↔ ∃ production, g.rules[rule]? = some ⟨nt, production⟩ := by
  rw [rulesOf, List.mem_append, terminalsOf_eq formed, binariesOf_eq formed]
  simp only [List.mem_map, List.mem_filter, mem_allTerminal, mem_allBinary, beq_iff_eq]
  constructor
  · rintro (⟨r, ⟨found, rfl⟩, rfl⟩ | ⟨r, ⟨found, rfl⟩, rfl⟩)
    · exact ⟨_, found⟩
    · exact ⟨_, found⟩
  · rintro ⟨production, found⟩
    cases production with
    | terminal terminal => exact .inl ⟨⟨rule, nt, terminal⟩, ⟨found, rfl⟩, rfl⟩
    | binary left right => exact .inr ⟨⟨rule, nt, left, right⟩, ⟨found, rfl⟩, rfl⟩

theorem Rooted.nt_lt (formed : g.WellFormed) {tree : Derivation} {nt : Nat} (rooted : g.Rooted tree nt) :
    nt < g.nonTerminals := by
  cases rooted with
  | leaf found => exact (formed.terminal (Array.mem_of_getElem? found)).1
  | node found first second => exact (formed.binary (Array.mem_of_getElem? found)).1

/-- Every rule of a tree is one of the rules of a non-terminal. -/
theorem Rooted.mem_rules (formed : g.WellFormed) {tree : Derivation} {nt : Nat} (rooted : g.Rooted tree nt) :
    ∀ rule ∈ tree.rules, ∃ nt < g.nonTerminals, rule ∈ g.rulesOf nt := by
  induction rooted with
  | @leaf rule nt terminal found =>
    intro other member
    rw [List.mem_singleton.mp member]
    exact ⟨nt, (RuleSet.Rooted.leaf found).nt_lt formed, (mem_rulesOf formed).mpr ⟨_, found⟩⟩
  | @node rule nt a b left right found first second firstIh secondIh =>
    refine Derivation.forall_mem_rules_node.mpr ⟨?_, firstIh, secondIh⟩
    exact ⟨nt, (RuleSet.Rooted.node found first second).nt_lt formed, (mem_rulesOf formed).mpr ⟨_, found⟩⟩

theorem Rooted.terminal_lt (formed : g.WellFormed) {tree : Derivation} {nt : Nat}
    (rooted : g.Rooted tree nt) : ∀ terminal ∈ tree.yield g, terminal < g.terminals := by
  induction rooted with
  | leaf found =>
    rw [Derivation.yield, production_eq_some_iff.mpr ⟨_, found⟩]
    intro terminal member
    rw [List.mem_singleton.mp member]
    exact (formed.terminal (Array.mem_of_getElem? found)).2
  | node found first second firstIh secondIh =>
    rw [Derivation.yield, List.forall_mem_append]
    exact ⟨firstIh, secondIh⟩

end RuleSet

namespace WeightedRules

variable {W σ : Type} [Weight W] (g : WeightedRules W)

/-- The tree that is drawn from a non-terminal at the given depth. -/
def grow (g : WeightedRules W) (draw : σ → W × σ) (limit : Option Nat) (depth nt : Nat) (source : σ) :
    Option (Except Error Derivation × σ) :=
  match exceeded? limit depth with
  | some limit => some (.error (.tooDeep limit), source)
  | none =>
    match g.choose draw nt source with
    | (none, source) => some (.error (.probability (.nonTerminal nt) .noPositiveRule), source)
    | (some rule, source) =>
      match g.rules.production? rule with
      | some (.binary left right) => do
        match ← g |>.grow draw limit (depth + 1) left source with
        | (.error fault, source) => some (.error fault, source)
        | (.ok first, source) =>
          match ← g |>.grow draw limit (depth + 1) right source with
          | (.error fault, source) => some (.error fault, source)
          | (.ok second, source) => some (.ok (.node rule first second), source)
      | _ => some (.ok (.leaf rule), source)
partial_fixpoint

/-- The tree behind a list of terminals that is drawn. -/
def derive (draw : σ → W × σ) (root limit : Option Nat) (source : σ) :
    Option (Except Error Derivation × σ) :=
  let root := root.getD g.rules.start
  if root < g.rules.nonTerminals then g.grow draw limit 1 root source
  else some (.error (.unknownNonTerminal root g.rules.nonTerminals), source)

/-- What is made of a result, unless it is a fault. -/
def follow {α β : Type} (next : α → σ → Option (Except Error β × σ)) :
    Except Error α × σ → Option (Except Error β × σ)
  | (.error fault, source) => some (.error fault, source)
  | (.ok a, source) => next a source

/-- The symbols in waiting as trees, one after the other. -/
def growAll (draw : σ → W × σ) (limit : Option Nat) (yield : Array Nat) :
    List Pending → σ → Option (Except Error (Array Nat) × σ)
  | [], source => some (.ok yield, source)
  | p :: rest, source =>
    g.grow draw limit p.depth p.nt source >>= follow fun tree source =>
      growAll draw limit (yield ++ (tree.yield g.rules).toArray) rest source

variable {g} {draw : σ → W × σ} {limit : Option Nat} {depth nt rule : Nat} {source last : σ}
  {tree : Derivation}

theorem exceeded_eq_none_iff : exceeded? limit depth = none ↔ ∀ most ∈ limit, depth ≤ most := by
  cases limit <;> simp [exceeded?, Option.filter]

theorem grow_binary {left right : Nat} (shallow : exceeded? limit depth = none)
    (chosen : g.choose draw nt source = (some rule, last))
    (made : g.rules.production? rule = some (.binary left right)) :
    g.grow draw limit depth nt source =
      g.grow draw limit (depth + 1) left last >>= follow fun first middle =>
        g.grow draw limit (depth + 1) right middle >>= follow fun second last =>
          some (.ok (.node rule first second), last) := by
  rw [grow, shallow, chosen]
  simp only [made]
  congr 1
  funext ⟨result, middle⟩
  cases result with
  | error fault => rfl
  | ok first =>
    simp only [follow]
    congr 1
    funext ⟨result, last⟩
    cases result <;> rfl

theorem grow_leaf (shallow : exceeded? limit depth = none) (chosen : g.choose draw nt source = (some rule, last))
    (made : ∀ left right, g.rules.production? rule = some (.binary left right) → False) :
    g.grow draw limit depth nt source = some (.ok (.leaf rule), last) := by
  rw [grow, shallow, chosen]
  simp only

/-- The children of a node wait for their turn in the place of the node. -/
theorem growAll_binary {yield : Array Nat} {p : Pending} {rest : List Pending} {left right : Nat}
    (shallow : exceeded? limit p.depth = none) (chosen : g.choose draw p.nt source = (some rule, last))
    (made : g.rules.production? rule = some (.binary left right)) :
    g.growAll draw limit yield (p :: rest) source =
      g.growAll draw limit yield (⟨left, p.depth + 1⟩ :: ⟨right, p.depth + 1⟩ :: rest) last := by
  rw [growAll, growAll, grow_binary shallow chosen made]
  rcases g.grow draw limit (p.depth + 1) left last with _ | ⟨fault | first, middle⟩
  · rfl
  · rfl
  · simp only [Option.bind_eq_bind, Option.bind_some, follow, growAll]
    rcases g.grow draw limit (p.depth + 1) right middle with _ | ⟨fault | second, last⟩
    · rfl
    · rfl
    · simp [follow, Derivation.yield, ← List.append_toArray]

/-- An expansion ends with what the trees of all that waits end with. -/
theorem growAll_of_expand {yield : Array Nat} {waiting : List Pending} {result : Except Error (Array Nat) × σ}
    (expanded : g.expand draw limit yield waiting source = some result) :
    g.growAll draw limit yield waiting source = some result := by
  refine expand.partial_correctness g draw limit
    (fun yield waiting source result => g.growAll draw limit yield waiting source = some result)
    (fun expand ih yield waiting source result step => ?_) yield waiting source result expanded
  cases waiting with
  | nil => exact step
  | cons p rest =>
    cases deep : exceeded? limit p.depth with
    | some most =>
      simp only [deep] at step
      rw [growAll, grow, deep, ← step]
      rfl
    | none =>
      simp only [deep] at step
      rcases chosen : g.choose draw p.nt source with ⟨_ | rule, last⟩
      · simp only [chosen] at step
        rw [growAll, grow, deep, chosen, ← step]
        rfl
      · simp only [chosen] at step
        split at step
        · rename_i left right made
          rw [growAll_binary deep chosen made]
          exact ih _ _ _ _ step
        · rename_i terminal made
          rw [growAll, grow_leaf deep chosen (by simp [made])]
          simpa [follow, Derivation.yield, made] using ih _ _ _ _ step
        · rename_i made
          rw [growAll, grow_leaf deep chosen (by simp [made])]
          simpa [follow, Derivation.yield, made] using ih _ _ _ _ step

/-- When a tree is grown, what waits behind it is expanded after its yield. -/
theorem expand_of_grow {result : Except Error Derivation × σ}
    (grown : g.grow draw limit depth nt source = some result) (yield : Array Nat) (rest : List Pending) :
    g.expand draw limit yield (⟨nt, depth⟩ :: rest) source =
      follow (fun tree source => g.expand draw limit (yield ++ (tree.yield g.rules).toArray) rest source) result := by
  refine grow.partial_correctness g draw limit
    (fun depth nt source result => ∀ yield rest, g.expand draw limit yield (⟨nt, depth⟩ :: rest) source =
      follow (fun tree source => g.expand draw limit (yield ++ (tree.yield g.rules).toArray) rest source) result)
    (fun grow ih depth nt source result step yield rest => ?_) depth nt source result grown yield rest
  rw [expand]
  cases deep : exceeded? limit depth with
  | some most =>
    simp only [deep, Option.some.injEq] at step
    rw [← step]
    rfl
  | none =>
    simp only [deep] at step ⊢
    rcases chosen : g.choose draw nt source with ⟨_ | rule, middle⟩
    · simp only [chosen, Option.some.injEq] at step
      rw [← step]
      rfl
    · simp only [chosen] at step ⊢
      cases made : g.rules.production? rule with
      | none =>
        simp only [made, Option.some.injEq] at step
        rw [← step]
        simp [follow, Derivation.yield, made]
      | some production =>
        cases production with
        | terminal terminal =>
          simp only [made, Option.some.injEq] at step
          rw [← step]
          simp [follow, Derivation.yield, made]
        | binary left right =>
          simp only [made] at step ⊢
          obtain ⟨⟨fault | first, between⟩, grown, step⟩ := Option.bind_eq_some_iff.mp step
          · cases step
            exact ih _ _ _ _ grown yield _
          · rw [ih _ _ _ _ grown, follow]
            obtain ⟨⟨fault | second, last⟩, grown', step⟩ := Option.bind_eq_some_iff.mp step
            · cases step
              exact ih _ _ _ _ grown' _ rest
            · cases step
              rw [ih _ _ _ _ grown', follow, follow, Derivation.yield, ← List.append_toArray, Array.append_assoc]

theorem expand_of_growAll {yield : Array Nat} {waiting : List Pending} {result : Except Error (Array Nat) × σ}
    (grown : g.growAll draw limit yield waiting source = some result) :
    g.expand draw limit yield waiting source = some result := by
  induction waiting generalizing yield source with
  | nil => rw [expand, ← grown, growAll]
  | cons p rest ih =>
    obtain ⟨⟨fault | tree, middle⟩, first, later⟩ := Option.bind_eq_some_iff.mp grown
    · rw [expand_of_grow first, ← later]
      rfl
    · rw [expand_of_grow first]
      exact ih later

theorem expand_eq_growAll (yield : Array Nat) (waiting : List Pending) (source : σ) :
    g.expand draw limit yield waiting source = g.growAll draw limit yield waiting source :=
  Option.ext fun _ => ⟨growAll_of_expand, expand_of_growAll⟩

theorem spawn_eq (root limit : Option Nat) (source : σ) :
    g.spawn draw root limit source = (g.derive draw root limit source).map fun (derived, source) =>
      (derived.map fun tree => (tree.yield g.rules).toArray, source) := by
  rw [spawn, derive]
  split
  · rw [expand_eq_growAll, growAll]
    rcases g.grow draw limit 1 _ source with _ | ⟨fault | tree, source⟩
    · rfl
    · rfl
    · simp [follow, growAll, Except.map]
  · rfl

theorem grow_eq_ok_iff :
    g.grow draw limit depth nt source = some (.ok tree, last) ↔
      exceeded? limit depth = none ∧ ∃ rule middle, g.choose draw nt source = (some rule, middle) ∧
        match g.rules.production? rule with
        | some (.binary left right) => ∃ first between second,
            g.grow draw limit (depth + 1) left middle = some (.ok first, between) ∧
              g.grow draw limit (depth + 1) right between = some (.ok second, last) ∧
              tree = .node rule first second
        | _ => tree = .leaf rule ∧ last = middle := by
  cases shallow : exceeded? limit depth with
  | some most =>
    rw [grow, shallow]
    simp
  | none =>
    rcases chosen : g.choose draw nt source with ⟨_ | rule, middle⟩
    · rw [grow, shallow, chosen]
      simp
    · simp only [Prod.mk.injEq, Option.some.injEq, ↓existsAndEq, true_and]
      split
      · rename_i left right made
        rw [grow_binary shallow chosen made]
        rcases g.grow draw limit (depth + 1) left middle with _ | ⟨fault | first, between⟩
        · simp
        · simp [follow]
        · rcases grown : g.grow draw limit (depth + 1) right between with _ | ⟨fault | second, after⟩
          · simp [follow, grown]
          · simp [follow, grown]
          · simp [follow, grown, eq_comm, and_comm]
      · rename_i made
        rw [grow_leaf shallow chosen made]
        simp [eq_comm]

theorem grow_leaf_iff {terminal : Nat} (shallow : exceeded? limit depth = none)
    (made : g.rules.production? rule = some (.terminal terminal)) :
    g.grow draw limit depth nt source = some (.ok (.leaf rule), last) ↔
      g.choose draw nt source = (some rule, last) := by
  rw [grow_eq_ok_iff, and_iff_right shallow]
  constructor
  · rintro ⟨other, middle, chosen, below⟩
    split at below
    · rcases below with ⟨_, _, _, -, -, ⟨⟩⟩
    · rcases below with ⟨⟨⟩, rfl⟩
      exact chosen
  · intro chosen
    refine ⟨rule, last, chosen, ?_⟩
    simp only [made, and_self]

theorem grow_node_iff {a b : Nat} {left right : Derivation} (shallow : exceeded? limit depth = none)
    (made : g.rules.production? rule = some (.binary a b)) :
    g.grow draw limit depth nt source = some (.ok (.node rule left right), last) ↔
      ∃ middle between, g.choose draw nt source = (some rule, middle) ∧
        g.grow draw limit (depth + 1) a middle = some (.ok left, between) ∧
        g.grow draw limit (depth + 1) b between = some (.ok right, last) := by
  rw [grow_eq_ok_iff, and_iff_right shallow]
  constructor
  · rintro ⟨other, middle, chosen, below⟩
    split at below
    · rename_i made'
      rcases below with ⟨_, between, _, grown, grown', ⟨⟩⟩
      rw [made] at made'
      cases made'
      exact ⟨middle, between, chosen, grown, grown'⟩
    · rcases below with ⟨⟨⟩, -⟩
  · rintro ⟨middle, between, chosen, grown, grown'⟩
    refine ⟨rule, middle, chosen, ?_⟩
    simp only [made]
    exact ⟨left, between, right, grown, grown', rfl⟩

theorem pick_mem {target sum : W} {rules : List Nat} (picked : g.pick? target sum rules = some rule) :
    rule ∈ rules := by
  induction rules generalizing sum with
  | nil => cases picked
  | cons other rest ih =>
    rw [pick?] at picked
    split at picked
    · cases picked
      exact List.mem_cons_self
    · exact List.mem_cons_of_mem _ (ih picked)

/-- How a rule comes to be chosen: as the only one, as the one that is picked, or as the last that can be. -/
theorem choose_cases (chosen : g.choose draw nt source = (some rule, last)) :
    0 < g.mass (g.rules.rulesOf nt) ∧
      (g.rules.rulesOf nt = [rule] ∨
        g.pick? ((draw source).1 * g.mass (g.rules.rulesOf nt)) 0 (g.rules.rulesOf nt) = some rule ∨
        (g.rules.rulesOf nt).reverse.find? (fun rule => decide (0 < g.value rule)) = some rule) := by
  unfold choose at chosen
  simp only at chosen
  split at chosen
  · rename_i some
    refine ⟨some, ?_⟩
    split at chosen
    · rename_i only
      cases chosen
      exact .inl only
    · split at chosen
      · rename_i picked
        cases chosen
        exact .inr (.inl picked)
      · rw [Prod.mk.injEq] at chosen
        exact .inr (.inr chosen.1)
  · cases chosen

theorem choose_mem (chosen : g.choose draw nt source = (some rule, last)) : rule ∈ g.rules.rulesOf nt := by
  rcases choose_cases chosen with ⟨-, only | picked | found⟩
  · rw [only]
    exact List.mem_singleton_self rule
  · exact pick_mem picked
  · exact List.mem_reverse.mp (List.mem_of_find?_eq_some found)

/-- A tree that grows is one of its non-terminal, within the limit, and has what all chosen rules have. -/
theorem rooted_of_grow (formed : g.rules.WellFormed) {P : Nat → Prop}
    (each : ∀ {nt rule : Nat} {source last : σ}, g.choose draw nt source = (some rule, last) → P rule)
    (grown : g.grow draw limit depth nt source = some (.ok tree, last)) :
    g.rules.Rooted tree nt ∧ (∀ most ∈ limit, depth + tree.depth ≤ most + 1) ∧ ∀ rule ∈ tree.rules, P rule := by
  induction tree generalizing depth nt source last with
  | leaf rule =>
    obtain ⟨shallow, other, middle, chosen, below⟩ := grow_eq_ok_iff.mp grown
    obtain ⟨production, found⟩ := (RuleSet.mem_rulesOf formed).mp (choose_mem chosen)
    rw [RuleSet.production_eq_some_iff.mpr ⟨nt, found⟩] at below
    cases production with
    | terminal terminal =>
      obtain ⟨⟨⟩, rfl⟩ := below
      refine ⟨.leaf found, fun most within => Nat.succ_le_succ (exceeded_eq_none_iff.mp shallow most within), ?_⟩
      intro other member
      rw [List.mem_singleton.mp member]
      exact each chosen
    | binary left right =>
      obtain ⟨_, _, _, -, -, ⟨⟩⟩ := below
  | node rule left right leftIh rightIh =>
    obtain ⟨-, other, middle, chosen, below⟩ := grow_eq_ok_iff.mp grown
    obtain ⟨production, found⟩ := (RuleSet.mem_rulesOf formed).mp (choose_mem chosen)
    rw [RuleSet.production_eq_some_iff.mpr ⟨nt, found⟩] at below
    cases production with
    | terminal terminal =>
      obtain ⟨⟨⟩, -⟩ := below
    | binary a b =>
      obtain ⟨_, between, _, first, second, ⟨⟩⟩ := below
      obtain ⟨rooted, low, all⟩ := leftIh first
      obtain ⟨rooted', low', all'⟩ := rightIh second
      refine ⟨.node found rooted rooted', fun most within => ?_,
        Derivation.forall_mem_rules_node.mpr ⟨each chosen, all, all'⟩⟩
      have lower := low most within
      have lower' := low' most within
      rw [Derivation.depth]
      omega

end WeightedRules

end StochasticGrammar
