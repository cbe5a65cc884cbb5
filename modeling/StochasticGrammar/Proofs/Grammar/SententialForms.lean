import Mathlib
import StochasticGrammar.Proofs.Grammar.Passes
import StochasticGrammar.Proofs.Grammar.Reaching

/-!
The pruning tables in terms of sentential forms. A table holds a terminal for a non-terminal only
where some form has the two at their places, as each bit that a pass adds comes with such a form. It
holds every such terminal, as the closed tables bound what each rewriting can put beside a symbol. One
side is proved; the other is the same of the rules with their two right symbols exchanged.
-/

namespace StochasticGrammar

abbrev Form := List (Symbol Nat Nat)

namespace Rule

def output (rule : Rule) : Form :=
  match rule.production with
  | .terminal terminal => [.terminal terminal]
  | .binary left right => [.nonterminal left, .nonterminal right]

def rewriting (rule : Rule) : ContextFreeRule Nat Nat := ⟨rule.lhs, rule.output⟩

/-- The rule with its right symbols exchanged. -/
def mirror (rule : Rule) : Rule :=
  match rule.production with
  | .terminal _ => rule
  | .binary left right => ⟨rule.lhs, .binary right left⟩

theorem mirror_rewriting (rule : Rule) : rule.mirror.rewriting = rule.rewriting.reverse := by
  obtain ⟨lhs, production⟩ := rule
  cases production <;> rfl

end Rule

namespace BitTable

variable {table : BitTable} {R : Nat → Nat → Prop}

/-- The table holds no bit outside a relation. -/
def Within (table : BitTable) (R : Nat → Nat → Prop) : Prop :=
  ∀ n i : Nat, (table.row n).testBit i = true → R n i

theorem within_clear (rows columns : Nat) : (clear rows columns).Within R := by
  intro n i bit
  have none : (clear rows columns).row n = 0 := by
    simp only [clear, row, Array.getElem?_replicate]
    split <;> rfl
  rw [none, Nat.zero_testBit] at bit
  cases bit

theorem Within.absorb (within : table.Within R) {n bits : Nat}
    (more : ∀ i : Nat, bits.testBit i = true → R n i) : (table.absorb n bits).Within R := by
  intro m i bit
  rw [row_absorb] at bit
  split at bit
  · rename_i here
    rcases here with ⟨rfl, -⟩
    rw [Nat.testBit_or, Bool.or_eq_true] at bit
    rcases bit with old | new
    · exact within n i old
    · exact more i new
  · exact within m i bit

theorem within_foldl {α : Type} {items : List α} {step : BitTable → α → BitTable}
    (start : table.Within R)
    (kept : ∀ table : BitTable, ∀ item ∈ items, table.Within R → (step table item).Within R) :
    (items.foldl step table).Within R :=
  List.foldlRecOn items step start fun table within item member => kept table item member within

end BitTable

namespace RuleSet

open BitTable

abbrev contextFree (g : RuleSet) : ContextFreeGrammar Nat where
  NT := Nat
  initial := g.start
  rules := (g.rules.toList.map Rule.rewriting).toFinset

abbrev Derives (g : RuleSet) (u v : Form) : Prop := g.contextFree.Derives u v

variable {g : RuleSet} {u v : Form} {nt terminal : Nat}

theorem produces_iff : g.contextFree.Produces u v ↔ ∃ rule ∈ g.rules, ∃ before after : Form,
    u = before ++ .nonterminal rule.lhs :: after ∧ v = before ++ rule.output ++ after := by
  simp [ContextFreeGrammar.Produces, ContextFreeRule.rewrites_iff, Rule.rewriting]

theorem derives_output {rule : Rule} (member : rule ∈ g.rules) :
    g.Derives [.nonterminal rule.lhs] rule.output :=
  Relation.ReflTransGen.single (produces_iff.mpr ⟨rule, member, [], [], rfl, by simp⟩)

theorem Derives.inside (derives : g.Derives u v) (before after : Form) :
    g.Derives (before ++ u ++ after) (before ++ v ++ after) :=
  (derives.append_left before).append_right after

theorem derives_terminal {r : TerminalRule} (member : r ∈ TerminalRule.all g.rules) :
    g.Derives [.nonterminal r.lhs] [.terminal r.terminal] :=
  derives_output (Array.mem_of_getElem? (mem_allTerminal.mp member))

theorem derives_binary {r : BinaryRule} (member : r ∈ BinaryRule.all g.rules) :
    g.Derives [.nonterminal r.lhs] [.nonterminal r.left, .nonterminal r.right] :=
  derives_output (Array.mem_of_getElem? (mem_allBinary.mp member))

/-- What a table of first terminals has to say of forms. -/
def CanBegin (g : RuleSet) (nt terminal : Nat) : Prop :=
  ∃ rest : Form, g.Derives [.nonterminal nt] (.terminal terminal :: rest)

def CanFollow (g : RuleSet) (nt terminal : Nat) : Prop :=
  ∃ before after : Form,
    g.Derives [.nonterminal g.start] (before ++ .nonterminal nt :: .terminal terminal :: after)

/-- The non-terminal stands in a form that derives from the start symbol. -/
def Occurs (g : RuleSet) (nt : Nat) : Prop :=
  ∃ before after : Form, g.Derives [.nonterminal g.start] (before ++ .nonterminal nt :: after)

theorem within_single : (Pruning.singleTerminals g.nonTerminals g.terminals
    (TerminalRule.all g.rules)).Within g.CanBegin := by
  apply within_foldl
  · exact within_clear _ _
  · intro table r member within
    apply within.absorb
    intro i bit
    rw [Nat.one_shiftLeft, Nat.testBit_two_pow, decide_eq_true_iff] at bit
    subst bit
    exact ⟨[], derives_terminal member⟩

theorem within_first : g.pruning.first.Within g.CanBegin := by
  rw [g.pruning_eq]
  apply saturate_invariant (P := fun table : BitTable => table.Within g.CanBegin)
  · intro table within
    apply within_foldl
    · exact within
    · intro table r member within
      apply within.absorb
      intro i bit
      rcases within r.left i bit with ⟨rest, begins⟩
      have longer := begins.append_right [.nonterminal r.right]
      exact ⟨_, (derives_binary member).trans longer⟩
  · exact within_single

theorem within_after (occurs : ∀ r ∈ BinaryRule.all g.rules, g.Occurs r.lhs) :
    g.pruning.after.Within g.CanFollow := by
  have begins := within_first (g := g)
  rw [g.pruning_eq] at begins ⊢
  apply saturate_invariant (P := fun table : BitTable => table.Within g.CanFollow)
  · intro table within
    apply within_foldl
    · exact within
    · intro table r member within
      have siblings : (table.absorb r.left
          ((Pruning.ofRules g.nonTerminals g.terminals g.rules).first.row r.right)).Within g.CanFollow := by
        apply within.absorb
        intro i bit
        rcases begins r.right i bit with ⟨rest, begins⟩
        rcases occurs r member with ⟨before, after, form⟩
        refine ⟨before, rest ++ after, ?_⟩
        have parent := Derives.inside (derives_binary member) before after
        have sibling := Derives.inside begins (before ++ [.nonterminal r.left]) after
        simp only [List.append_assoc, List.cons_append, List.nil_append] at parent sibling
        exact (form.trans parent).trans sibling
      apply siblings.absorb
      intro i bit
      rcases siblings r.lhs i bit with ⟨before, after, form⟩
      refine ⟨before ++ [.nonterminal r.left], after, ?_⟩
      have parent := Derives.inside (derives_binary member) before (.terminal i :: after)
      simp only [List.append_assoc, List.cons_append, List.nil_append] at parent ⊢
      exact form.trans parent
  · exact within_clear _ _

/-- The terminal can come first in what derives from the symbol, by the tables. -/
def Opens (g : RuleSet) (terminal : Nat) : Symbol Nat Nat → Prop
  | .terminal other => other = terminal
  | .nonterminal nt => g.pruning.first.get nt terminal = true

/-- Symbols beside each other that the tables allow for. -/
def Allows (g : RuleSet) : Symbol Nat Nat → Symbol Nat Nat → Prop
  | .terminal _, _ => True
  | .nonterminal nt, next => ∀ terminal, g.Opens terminal next → g.pruning.after.get nt terminal = true

section Complete

variable (formed : g.WellFormed)

include formed

/-- One rewriting puts nothing in front that the tables do not have in front. -/
theorem opens_of_produces (step : g.contextFree.Produces u v)
    (opens : ∃ x ∈ v.head?, g.Opens terminal x) : ∃ x ∈ u.head?, g.Opens terminal x := by
  rcases produces_iff.mp step with ⟨⟨lhs, production⟩, member, before, after, rfl, rfl⟩
  rcases Array.mem_iff_getElem?.mp member with ⟨index, found⟩
  cases before with
  | cons x before => simpa using opens
  | nil =>
    refine ⟨.nonterminal lhs, rfl, ?_⟩
    cases production with
    | terminal other =>
      have same : other = terminal := by simpa [Rule.output, Opens] using opens
      subst same
      exact first_terminal formed (r := ⟨index, lhs, other⟩) (mem_allTerminal.mpr found)
    | binary left right =>
      have starts : g.pruning.first.get left terminal = true := by
        simpa [Rule.output, Opens] using opens
      exact first_binary formed (r := ⟨index, lhs, left, right⟩) (mem_allBinary.mpr found) starts

theorem first_of_canBegin (begins : g.CanBegin nt terminal) :
    g.pruning.first.get nt terminal = true := by
  rcases begins with ⟨rest, derives⟩
  have opens {u : Form} (derives : g.Derives u (.terminal terminal :: rest)) :
      ∃ x ∈ u.head?, g.Opens terminal x := by
    induction derives using Relation.ReflTransGen.head_induction_on with
    | refl => exact ⟨.terminal terminal, rfl, rfl⟩
    | head step _ ih => exact opens_of_produces formed step ih
  simpa [Opens] using opens derives

/-- One rewriting keeps every two symbols beside each other among those that the tables allow. -/
theorem allows_of_produces (step : g.contextFree.Produces u v) (allowed : u.IsChain g.Allows) :
    v.IsChain g.Allows := by
  rcases produces_iff.mp step with ⟨⟨lhs, production⟩, member, before, after, rfl, rfl⟩
  rcases Array.mem_iff_getElem?.mp member with ⟨index, found⟩
  rcases List.isChain_append.mp allowed with ⟨front, back, between⟩
  -- Before the rewritten symbol stands what is allowed before the first of its output.
  have replaced {y : Symbol Nat Nat} {rest : Form} (chain : (y :: rest).IsChain g.Allows)
      (less : ∀ t, g.Opens t y → g.Opens t (.nonterminal lhs)) :
      (before ++ y :: rest).IsChain g.Allows := by
    refine List.isChain_append.mpr ⟨front, chain, ?_⟩
    intro x last y' head
    cases head
    have neighbour := between x last (.nonterminal lhs) rfl
    cases x with
    | terminal other => trivial
    | nonterminal other => exact fun t opens => neighbour t (less t opens)
  rw [List.append_assoc]
  cases production with
  | terminal other =>
    apply replaced
    · exact List.isChain_cons.mpr ⟨fun _ _ => trivial, (List.isChain_cons.mp back).2⟩
    · intro t opens
      subst opens
      exact first_terminal formed (r := ⟨index, lhs, other⟩) (mem_allTerminal.mpr found)
  | binary left right =>
    have rule : (⟨index, lhs, left, right⟩ : BinaryRule) ∈ BinaryRule.all g.rules :=
      mem_allBinary.mpr found
    have later : (.nonterminal right :: after : Form).IsChain g.Allows := by
      refine List.isChain_cons.mpr ⟨?_, (List.isChain_cons.mp back).2⟩
      intro y head t opens
      exact (after_closed formed rule).2 ((List.isChain_cons.mp back).1 y head t opens)
    apply replaced
    · refine List.isChain_cons.mpr ⟨?_, later⟩
      intro y head t opens
      cases head
      exact (after_closed formed rule).1 opens
    · intro t opens
      exact first_binary formed rule opens

theorem after_of_canFollow (follows : g.CanFollow nt terminal) :
    g.pruning.after.get nt terminal = true := by
  rcases follows with ⟨before, after, derives⟩
  have allowed {v : Form} (derives : g.Derives [.nonterminal g.start] v) : v.IsChain g.Allows := by
    induction derives with
    | refl => exact List.isChain_singleton _
    | tail _ step ih => exact allows_of_produces formed step ih
  have pair := (List.isChain_append_cons_cons.mp (allowed derives)).2.1
  exact pair terminal rfl

theorem first_iff : g.pruning.first.get nt terminal = true ↔ g.CanBegin nt terminal := by
  constructor
  · intro bit
    exact within_first nt terminal ((get_iff (fits_first formed)).mp bit)
  · exact first_of_canBegin formed

theorem after_iff (occurs : ∀ nt < g.nonTerminals, g.Occurs nt) :
    g.pruning.after.get nt terminal = true ↔ g.CanFollow nt terminal := by
  constructor
  · intro bit
    exact within_after (fun r member => occurs _ (formed.binary_of_mem member).1) nt terminal
      ((get_iff (fits_after formed)).mp bit)
  · exact after_of_canFollow formed

end Complete

/-- The rules read from right to left. -/
def mirror (g : RuleSet) : RuleSet where
  rules := g.rules.map Rule.mirror
  start := g.start
  nonTerminals := g.nonTerminals
  terminals := g.terminals

@[simp] theorem mirror_start : g.mirror.start = g.start := rfl

theorem mirror_rewritings : (g.mirror.rules.toList.map Rule.rewriting).toFinset =
    (g.rules.toList.map Rule.rewriting).toFinset.map
      ⟨ContextFreeRule.reverse, ContextFreeRule.reverse_injective⟩ := by
  ext rule
  simp [mirror, Rule.mirror_rewriting]

theorem mirror_derives : g.mirror.Derives u v ↔ g.Derives u.reverse v.reverse := by
  unfold Derives contextFree
  rw [mirror_rewritings]
  exact ContextFreeGrammar.derives_reverse_comm (g := g.contextFree)

theorem mirror_terminals (rules : Array Rule) :
    TerminalRule.all (rules.map Rule.mirror) = TerminalRule.all rules := by
  rw [TerminalRule.all, Array.toList_map, List.zipIdx_map, List.filterMap_map]
  apply List.filterMap_congr
  rintro ⟨⟨lhs, production⟩, index⟩ _
  cases production <;> rfl

theorem mirror_binaries (rules : Array Rule) : BinaryRule.all (rules.map Rule.mirror) =
    (BinaryRule.all rules).map fun r => ⟨r.index, r.lhs, r.right, r.left⟩ := by
  rw [BinaryRule.all, Array.toList_map, List.zipIdx_map, List.filterMap_map, BinaryRule.all,
    List.map_filterMap]
  apply List.filterMap_congr
  rintro ⟨⟨lhs, production⟩, index⟩ _
  cases production <;> rfl

theorem mirror_first : g.mirror.pruning.first = g.pruning.last := by
  rw [g.pruning_eq]
  simp only [mirror, Pruning.ofRules, mirror_terminals, mirror_binaries]
  congr 1
  funext table
  exact List.foldl_map

theorem mirror_after : g.mirror.pruning.after = g.pruning.before := by
  have first := mirror_first (g := g)
  rw [g.pruning_eq] at first ⊢
  simp only [mirror, Pruning.ofRules, mirror_terminals, mirror_binaries] at first ⊢
  congr 1
  funext table
  rw [first]
  exact List.foldl_map

theorem mirror_occurs (occurs : g.Occurs nt) : g.mirror.Occurs nt := by
  rcases occurs with ⟨before, after, form⟩
  refine ⟨after.reverse, before.reverse, mirror_derives.mpr ?_⟩
  simpa using form

theorem mirror_wellFormed (formed : g.WellFormed) : g.mirror.WellFormed where
  distinct := by
    have swapped : Function.Injective Rule.mirror := Function.LeftInverse.injective (g := Rule.mirror) (by
      rintro ⟨lhs, production⟩
      cases production <;> rfl)
    rw [mirror, Array.toList_map]
    exact formed.distinct.map swapped
  start := formed.start
  terminal := by
    intro lhs terminal member
    rcases Array.mem_map.mp member with ⟨⟨_, production⟩, member, made⟩
    cases production with
    | terminal _ =>
      cases made
      exact formed.terminal member
    | binary _ _ => cases made
  binary := by
    intro lhs left right member
    rcases Array.mem_map.mp member with ⟨⟨_, production⟩, member, made⟩
    cases production with
    | terminal _ => cases made
    | binary right left =>
      have declared := formed.binary member
      cases made
      exact ⟨declared.1, declared.2.symm⟩

theorem last_iff (formed : g.WellFormed) : g.pruning.last.get nt terminal = true ↔
    ∃ rest : Form, g.Derives [.nonterminal nt] (rest ++ [.terminal terminal]) := by
  rw [← mirror_first, first_iff (mirror_wellFormed formed)]
  constructor
  · rintro ⟨rest, begins⟩
    exact ⟨rest.reverse, by simpa using mirror_derives.mp begins⟩
  · rintro ⟨rest, ends⟩
    exact ⟨rest.reverse, mirror_derives.mpr (by simpa using ends)⟩

theorem before_iff (formed : g.WellFormed) (occurs : ∀ nt < g.nonTerminals, g.Occurs nt) :
    g.pruning.before.get nt terminal = true ↔ ∃ before after : Form, g.Derives [.nonterminal g.start]
      (before ++ .terminal terminal :: .nonterminal nt :: after) := by
  rw [← mirror_after, after_iff (mirror_wellFormed formed)
    fun nt inside => mirror_occurs (occurs nt inside)]
  constructor
  · rintro ⟨before, after, form⟩
    exact ⟨after.reverse, before.reverse, by simpa using mirror_derives.mp form⟩
  · rintro ⟨before, after, form⟩
    exact ⟨after.reverse, before.reverse, mirror_derives.mpr (by simpa using form)⟩

theorem occurs_of_reaches {nt : Nat} (reaches : Declarations.Reaches (BinaryRule.all g.rules) g.start nt) :
    g.Occurs nt := by
  have children {r : BinaryRule} (member : r ∈ BinaryRule.all g.rules) (parent : g.Occurs r.lhs) :
      g.Occurs r.left ∧ g.Occurs r.right := by
    rcases parent with ⟨before, after, form⟩
    have step := Derives.inside (derives_binary member) before after
    simp only [List.append_assoc, List.cons_append, List.nil_append] at step
    have both := form.trans step
    exact ⟨⟨before, .nonterminal r.right :: after, both⟩,
      ⟨before ++ [.nonterminal r.left], after, by simpa using both⟩⟩
  induction reaches with
  | start => exact ⟨[], [], Relation.ReflTransGen.refl⟩
  | left member parent ih => exact (children member ih).1
  | right member parent ih => exact (children member ih).2

end RuleSet

namespace Grammar

variable {d : Declarations} {g : Grammar}

theorem occurs (built : d.grammar = .ok g) {nt : Nat} (inside : nt < g.rules.nonTerminals) :
    g.rules.Occurs nt := by
  have formed := rules_wellFormed built
  rcases Declarations.grammar_eq_ok_iff.mp built with ⟨b, passes, rfl⟩
  have all := (Declarations.unreachable_eq_none (fun r member => (formed.binary_of_mem member).2)
    formed.start).mp passes.reached
  exact RuleSet.occurs_of_reaches (all nt inside)

/-- The tables are filled after at most one pass for each bit of a table and one that changes nothing, each
by itself or two by one loop. What they hold are the terminals at the ends of all that derives from a
non-terminal, and beside it in all that derives from the start symbol. -/
theorem pruning_exact (built : d.grammar = .ok g) :
    let rules := BinaryRule.all g.rules.rules
    let single := Pruning.singleTerminals g.rules.nonTerminals g.rules.terminals
      (TerminalRule.all g.rules.rules)
    let clear := BitTable.clear g.rules.nonTerminals g.rules.terminals
    let most := g.rules.nonTerminals * g.rules.terminals + 1
    let pruning := g.rules.pruning
    (∃ passes ≤ most, Settles (Pruning.firstStep rules) passes single pruning.first) ∧
      (∃ passes ≤ most, Settles (Pruning.lastStep rules) passes single pruning.last) ∧
      (∃ passes ≤ most, Settles (Pruning.beforeStep pruning.last rules) passes clear pruning.before) ∧
      (∃ passes ≤ most, Settles (Pruning.afterStep pruning.first rules) passes clear pruning.after) ∧
      (TablePass.ends rules).loop (single, single) = some (pruning.first, pruning.last) ∧
      (TablePass.sides pruning.first pruning.last rules).loop (clear, clear) = some (pruning.before, pruning.after) ∧
      ∀ nt terminal : Nat,
        (pruning.first.get nt terminal = true ↔
          ∃ rest : Form, g.rules.Derives [.nonterminal nt] (.terminal terminal :: rest)) ∧
        (pruning.last.get nt terminal = true ↔
          ∃ rest : Form, g.rules.Derives [.nonterminal nt] (rest ++ [.terminal terminal])) ∧
        (pruning.before.get nt terminal = true ↔
          ∃ before after : Form, g.rules.Derives [.nonterminal g.rules.start]
            (before ++ .terminal terminal :: .nonterminal nt :: after)) ∧
        (pruning.after.get nt terminal = true ↔
          ∃ before after : Form, g.rules.Derives [.nonterminal g.rules.start]
            (before ++ .nonterminal nt :: .terminal terminal :: after)) := by
  have formed := rules_wellFormed built
  have occurs : ∀ nt < g.rules.nonTerminals, g.rules.Occurs nt := fun nt inside => occurs built inside
  refine ⟨RuleSet.first_settles formed, RuleSet.last_settles formed, RuleSet.before_settles formed,
    RuleSet.after_settles formed, RuleSet.ends_loop formed, RuleSet.sides_loop formed, ?_⟩
  intro nt terminal
  exact ⟨RuleSet.first_iff formed, RuleSet.last_iff formed, RuleSet.before_iff formed occurs,
    RuleSet.after_iff formed occurs⟩

/-- In the sample a word can end with the second letter, but no word begins with it. -/
theorem sample_pruning_exact :
    let g := Declarations.sampleGrammar 0.25
    (Declarations.sample 0.25).grammar = .ok g ∧
      (∃ rest : Form, g.rules.Derives [.nonterminal 0] (rest ++ [.terminal 1])) ∧
      ¬∃ rest : Form, g.rules.Derives [.nonterminal 0] (.terminal 1 :: rest) := by
  intro g
  have exact := (pruning_exact (Declarations.sample_grammar 0.25)).2.2.2.2.2.2 0 1
  have pruning : g.rules.pruning = Pruning.ofRules 2 2 Declarations.sampleRules := by
    rw [g.rules.pruning_eq, ← Declarations.sample_nonTerminals 0.25]
    rfl
  refine ⟨Declarations.sample_grammar 0.25, exact.2.1.mp ?_, mt exact.1.mpr ?_⟩
  · rw [pruning]
    cbv
  · rw [pruning]
    decide +kernel

end Grammar

end StochasticGrammar
