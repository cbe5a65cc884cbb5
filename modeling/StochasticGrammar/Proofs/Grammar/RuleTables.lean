import StochasticGrammar.RuleSet

/-!
The tables that charts look rules up in, in terms of the rules. A row that rules are put at the end of,
one after the other, has the rules of its symbol in their order. In a well-formed set all symbols are in
range and no rule is there twice, so that each table has all rules of its kind.
-/

namespace StochasticGrammar

theorem mem_allTerminal {rules : Array Rule} {r : TerminalRule} :
    r ∈ TerminalRule.all rules ↔ rules[r.index]? = some ⟨r.lhs, .terminal r.terminal⟩ := by
  simp only [TerminalRule.all, List.mem_filterMap, List.mem_zipIdx_iff_getElem?, Array.getElem?_toList]
  constructor
  · intro listed
    rcases listed with ⟨⟨⟨lhs, production⟩, index⟩, found, made⟩
    cases production with
    | terminal terminal =>
      cases made
      exact found
    | binary left right => cases made
  · intro found
    exact ⟨(⟨r.lhs, .terminal r.terminal⟩, r.index), found, rfl⟩

theorem mem_allBinary {rules : Array Rule} {r : BinaryRule} :
    r ∈ BinaryRule.all rules ↔ rules[r.index]? = some ⟨r.lhs, .binary r.left r.right⟩ := by
  simp only [BinaryRule.all, List.mem_filterMap, List.mem_zipIdx_iff_getElem?, Array.getElem?_toList]
  constructor
  · intro listed
    rcases listed with ⟨⟨⟨lhs, production⟩, index⟩, found, made⟩
    cases production with
    | terminal terminal => cases made
    | binary left right =>
      cases made
      exact found
  · intro found
    exact ⟨(⟨r.lhs, .binary r.left r.right⟩, r.index), found, rfl⟩

/-- What is made of numbered rules is in the order of their numbers. -/
theorem pairwise_zipIdx {α : Type} {rules : List Rule} {make : Rule × Nat → Option α} {key : α → Nat}
    (keyed : ∀ {numbered a}, make numbered = some a → key a = numbered.2) :
    (rules.zipIdx.filterMap make).Pairwise fun a b => key a < key b := by
  have numbers : rules.zipIdx.Pairwise fun a b => a.2 < b.2 := by
    have ascending : (rules.zipIdx.map Prod.snd).Pairwise (· < ·) := by
      rw [List.zipIdx_map_snd]
      exact List.pairwise_lt_range'
    exact List.pairwise_map.mp ascending
  apply List.pairwise_filterMap.mpr
  apply numbers.imp
  intro first second less a made b made'
  rw [keyed made, keyed made']
  exact less

theorem pairwise_index (rules : Array Rule) :
    (BinaryRule.all rules).Pairwise fun r r' => r.index < r'.index := by
  apply pairwise_zipIdx
  intro numbered r made
  rcases numbered with ⟨⟨lhs, production⟩, index⟩
  cases production with
  | terminal terminal => cases made
  | binary left right =>
    cases made
    rfl

theorem pairwise_index_terminal (rules : Array Rule) :
    (TerminalRule.all rules).Pairwise fun r r' => r.index < r'.index := by
  apply pairwise_zipIdx
  intro numbered r made
  rcases numbered with ⟨⟨lhs, production⟩, index⟩
  cases production with
  | binary left right => cases made
  | terminal terminal =>
    cases made
    rfl

/-- The items of each key below `count`, in their given order. -/
def tabulate {α : Type} (count : Nat) (key : α → Nat) (items : List α) : Array (List α) :=
  Array.ofFn fun (n : Fin count) => items.filter fun item => key item == n.val

theorem getElem?_tabulate {α : Type} (count : Nat) (key : α → Nat) (items : List α) (n : Nat) :
    (tabulate count key items)[n]? =
      if n < count then some (items.filter fun item => key item == n) else none := by
  unfold tabulate
  rw [Array.getElem?_ofFn]
  split <;> rfl

/-- The items of a key, as long as all keys are in range. -/
theorem tabulate_eq {α : Type} {count : Nat} {key : α → Nat} {items : List α}
    (range : ∀ item ∈ items, key item < count) (n : Nat) :
    (tabulate count key items)[n]?.getD [] = items.filter fun item => key item == n := by
  rw [getElem?_tabulate]
  by_cases inside : n < count
  · rw [if_pos inside, Option.getD_some]
  · rw [if_neg inside, Option.getD_none, eq_comm, List.filter_eq_nil_iff]
    intro item member same
    have below := range item member
    have equal : key item = n := by simpa using same
    omega

theorem pushAt_tabulate {α : Type} (count : Nat) (key : α → Nat) (items : List α) (item : α) :
    pushAt (tabulate count key items) (key item) item = tabulate count key (items ++ [item]) := by
  apply Array.ext_getElem?
  intro n
  rw [pushAt, Array.getElem?_modify, getElem?_tabulate, getElem?_tabulate, List.filter_append]
  by_cases inside : n < count
  · by_cases here : key item = n
    · simp [inside, here]
    · simp [inside, here]
  · simp [inside]

namespace RuleIndex

/-- The tables of the terminal rules and of the binary rules. -/
def ofLists (nonTerminals : Nat) (terminals : List TerminalRule) (binaries : List BinaryRule) : RuleIndex where
  terminal := tabulate nonTerminals (·.lhs) terminals
  binary := tabulate nonTerminals (·.lhs) binaries
  asLeft := tabulate nonTerminals (·.left) binaries
  asRight := tabulate nonTerminals (·.right) binaries

theorem empty_eq (nonTerminals : Nat) : empty nonTerminals = ofLists nonTerminals [] [] := by
  have none {α : Type} (key : α → Nat) : Array.replicate nonTerminals [] = tabulate nonTerminals key [] := by
    apply Array.ext_getElem?
    intro n
    rw [Array.getElem?_replicate, getElem?_tabulate, List.filter_nil]
  rw [empty, ofLists, ← none, ← none, ← none, ← none]

/-- The rules as they are put into the tables, after those of the two lists. -/
theorem foldl_add (nonTerminals : Nat) (rules : List (Rule × Nat)) (terminals : List TerminalRule)
    (binaries : List BinaryRule) :
    rules.foldl (fun index rule => index.add rule.1 rule.2) (ofLists nonTerminals terminals binaries) =
      ofLists nonTerminals
        (terminals ++ rules.filterMap fun (rule, index) =>
          match rule.production with
          | .terminal terminal => some ⟨index, rule.lhs, terminal⟩
          | .binary .. => none)
        (binaries ++ rules.filterMap fun (rule, index) =>
          match rule.production with
          | .terminal _ => none
          | .binary left right => some ⟨index, rule.lhs, left, right⟩) := by
  induction rules generalizing terminals binaries with
  | nil => simp
  | cons first rest ih =>
    rcases first with ⟨⟨lhs, terminal | ⟨left, right⟩⟩, number⟩
    · let r : TerminalRule := ⟨number, lhs, terminal⟩
      have added : (ofLists nonTerminals terminals binaries).add ⟨lhs, .terminal terminal⟩ number =
          ofLists nonTerminals (terminals ++ [r]) binaries := by
        simp only [add, ofLists, ← pushAt_tabulate, r]
      rw [List.foldl_cons, added, ih]
      simp [r]
    · let r : BinaryRule := ⟨number, lhs, left, right⟩
      have added : (ofLists nonTerminals terminals binaries).add ⟨lhs, .binary left right⟩ number =
          ofLists nonTerminals terminals (binaries ++ [r]) := by
        simp only [add, ofLists, ← pushAt_tabulate, r]
      rw [List.foldl_cons, added, ih]
      simp [r]

theorem ofRules_eq (nonTerminals : Nat) (rules : Array Rule) :
    ofRules nonTerminals rules = ofLists nonTerminals (TerminalRule.all rules) (BinaryRule.all rules) := by
  rw [ofRules, empty_eq, foldl_add]
  rfl

theorem binariesOf_ofRules {nonTerminals nt : Nat} {rules : Array Rule} (inside : nt < nonTerminals) :
    (ofRules nonTerminals rules).binariesOf nt = (BinaryRule.all rules).filter fun r => r.lhs == nt := by
  rw [ofRules_eq, binariesOf, ofLists, getElem?_tabulate, if_pos inside, Option.getD_some]

theorem terminalsOf_ofRules {nonTerminals nt : Nat} {rules : Array Rule} (inside : nt < nonTerminals) :
    (ofRules nonTerminals rules).terminalsOf nt = (TerminalRule.all rules).filter fun r => r.lhs == nt := by
  rw [ofRules_eq, terminalsOf, ofLists, getElem?_tabulate, if_pos inside, Option.getD_some]

end RuleIndex

namespace RuleSet

structure WellFormed (g : RuleSet) : Prop where
  distinct : g.rules.toList.Nodup
  start : g.start < g.nonTerminals
  terminal : ∀ {lhs terminal : Nat}, ⟨lhs, .terminal terminal⟩ ∈ g.rules →
    lhs < g.nonTerminals ∧ terminal < g.terminals
  binary : ∀ {lhs left right : Nat}, ⟨lhs, .binary left right⟩ ∈ g.rules →
    lhs < g.nonTerminals ∧ left < g.nonTerminals ∧ right < g.nonTerminals

variable {g : RuleSet}

theorem WellFormed.terminal_of_mem (formed : g.WellFormed) {r : TerminalRule}
    (member : r ∈ TerminalRule.all g.rules) : r.lhs < g.nonTerminals ∧ r.terminal < g.terminals :=
  formed.terminal (Array.mem_of_getElem? (mem_allTerminal.mp member))

theorem WellFormed.binary_of_mem (formed : g.WellFormed) {r : BinaryRule}
    (member : r ∈ BinaryRule.all g.rules) :
    r.lhs < g.nonTerminals ∧ r.left < g.nonTerminals ∧ r.right < g.nonTerminals :=
  formed.binary (Array.mem_of_getElem? (mem_allBinary.mp member))

theorem WellFormed.index_unique (formed : g.WellFormed) {rule : Rule} {i j : Nat}
    (first : g.rules[i]? = some rule) (second : g.rules[j]? = some rule) : i = j := by
  rw [← Array.getElem?_toList] at first second
  have inside : i < g.rules.toList.length := (List.getElem?_eq_some_iff.mp first).1
  exact (List.getElem?_inj inside formed.distinct).mp (first.trans second.symm)

theorem terminalsOf_eq (formed : g.WellFormed) (nt : Nat) :
    g.terminalsOf nt = (TerminalRule.all g.rules).filter fun r => r.lhs == nt := by
  rw [terminalsOf, g.index_eq, RuleIndex.ofRules_eq]
  exact tabulate_eq (fun r member => (formed.terminal_of_mem member).1) nt

theorem binariesOf_eq (formed : g.WellFormed) (nt : Nat) :
    g.binariesOf nt = (BinaryRule.all g.rules).filter fun r => r.lhs == nt := by
  rw [binariesOf, g.index_eq, RuleIndex.ofRules_eq]
  exact tabulate_eq (fun r member => (formed.binary_of_mem member).1) nt

theorem withLeft_eq (formed : g.WellFormed) (nt : Nat) :
    g.withLeft nt = (BinaryRule.all g.rules).filter fun r => r.left == nt := by
  rw [withLeft, g.index_eq, RuleIndex.ofRules_eq]
  exact tabulate_eq (fun r member => (formed.binary_of_mem member).2.1) nt

theorem withRight_eq (formed : g.WellFormed) (nt : Nat) :
    g.withRight nt = (BinaryRule.all g.rules).filter fun r => r.right == nt := by
  rw [withRight, g.index_eq, RuleIndex.ofRules_eq]
  exact tabulate_eq (fun r member => (formed.binary_of_mem member).2.2) nt

theorem mem_binariesOf (formed : g.WellFormed) {nt : Nat} {r : BinaryRule} :
    r ∈ g.binariesOf nt ↔ g.rules[r.index]? = some ⟨nt, .binary r.left r.right⟩ ∧ r.lhs = nt := by
  rw [binariesOf_eq formed, List.mem_filter, mem_allBinary, beq_iff_eq]
  constructor
  · intro listed
    rcases listed with ⟨found, rfl⟩
    exact ⟨found, rfl⟩
  · intro stands
    rcases stands with ⟨found, rfl⟩
    exact ⟨found, rfl⟩

theorem terminalRule_eq_some_iff (formed : g.WellFormed) {nt terminal rule : Nat} :
    g.terminalRule? nt terminal = some rule ↔ g.rules[rule]? = some ⟨nt, .terminal terminal⟩ := by
  rw [terminalRule?, terminalsOf_eq formed, Option.map_eq_some_iff]
  constructor
  · intro listed
    rcases listed with ⟨r, found, rfl⟩
    have member := List.mem_of_find?_eq_some found
    have same := List.find?_some found
    rw [List.mem_filter, mem_allTerminal, beq_iff_eq] at member
    rw [member.1, member.2, beq_iff_eq.mp same]
  · intro found
    have member : (⟨rule, nt, terminal⟩ : TerminalRule) ∈
        (TerminalRule.all g.rules).filter fun r => r.lhs == nt := by
      rw [List.mem_filter, mem_allTerminal]
      exact ⟨found, by simp⟩
    cases first : ((TerminalRule.all g.rules).filter fun r => r.lhs == nt).find?
        (·.terminal == terminal) with
    | none =>
      have other := List.find?_eq_none.mp first _ member
      simp at other
    | some r =>
      have member' := List.mem_of_find?_eq_some first
      have same := List.find?_some first
      rw [List.mem_filter, mem_allTerminal, beq_iff_eq] at member'
      have equal : g.rules[r.index]? = some ⟨nt, .terminal terminal⟩ := by
        rw [member'.1, member'.2, beq_iff_eq.mp same]
      exact ⟨r, rfl, formed.index_unique equal found⟩

theorem isSingle_iff (formed : g.WellFormed) {nt : Nat} :
    g.isSingle nt = true ↔ ∀ r ∈ BinaryRule.all g.rules, r.lhs ≠ nt := by
  rw [isSingle, binariesOf_eq formed, List.isEmpty_iff, List.filter_eq_nil_iff]
  simp

end RuleSet

end StochasticGrammar
