import StochasticGrammar.Proofs.Grammar.Conditions
import StochasticGrammar.Proofs.Grammar.Updates

/-!
When declarations are a grammar, and which one. They have to be defined, every non-terminal has to
have a rule and to be reached from the start symbol; which of these fails is told by the error, unless
there are so many non-terminals that no tables can be set up for them. The grammar has the rules in the
order of their declaration, and its tables have all rules once.
-/

namespace StochasticGrammar

/-- Every table has all rules of its kind, in ascending order. -/
structure RuleSet.Tabulated (g : RuleSet) : Prop where
  terminals : ∀ nt, (g.terminalsOf nt).Pairwise (·.index < ·.index) ∧
    ∀ r, r ∈ g.terminalsOf nt ↔ r.lhs = nt ∧ g.rule? r.index = some ⟨nt, .terminal r.terminal⟩
  binaries : ∀ nt, (g.binariesOf nt).Pairwise (·.index < ·.index) ∧
    ∀ r, r ∈ g.binariesOf nt ↔ r.lhs = nt ∧ g.rule? r.index = some ⟨nt, .binary r.left r.right⟩
  withLeft : ∀ nt, (g.withLeft nt).Pairwise (·.index < ·.index) ∧
    ∀ r, r ∈ g.withLeft nt ↔ r.left = nt ∧ g.rule? r.index = some ⟨r.lhs, .binary nt r.right⟩
  withRight : ∀ nt, (g.withRight nt).Pairwise (·.index < ·.index) ∧
    ∀ r, r ∈ g.withRight nt ↔ r.right = nt ∧ g.rule? r.index = some ⟨r.lhs, .binary r.left nt⟩
  terminalRule : ∀ nt terminal rule,
    g.terminalRule? nt terminal = some rule ↔ g.rule? rule = some ⟨nt, .terminal terminal⟩

theorem RuleSet.WellFormed.tabulated {g : RuleSet} (formed : g.WellFormed) : g.Tabulated := by
  have binary {nt : Nat} {key : BinaryRule → Nat} {r : BinaryRule} :
      r ∈ (BinaryRule.all g.rules).filter (fun r => key r == nt) ↔
        key r = nt ∧ g.rules[r.index]? = some ⟨r.lhs, .binary r.left r.right⟩ := by
    rw [List.mem_filter, mem_allBinary, beq_iff_eq, and_comm]
  have ascending := pairwise_index g.rules
  constructor
  · intro nt
    rw [terminalsOf_eq formed]
    refine ⟨(pairwise_index_terminal g.rules).filter _, fun r => ?_⟩
    rw [List.mem_filter, mem_allTerminal, beq_iff_eq, and_comm]
    exact and_congr_right fun same => by rw [← same]; rfl
  · intro nt
    rw [binariesOf_eq formed]
    exact ⟨ascending.filter _, fun r => binary.trans (and_congr_right fun same => by rw [← same]; rfl)⟩
  · intro nt
    rw [withLeft_eq formed]
    exact ⟨ascending.filter _, fun r => binary.trans (and_congr_right fun same => by rw [← same]; rfl)⟩
  · intro nt
    rw [withRight_eq formed]
    exact ⟨ascending.filter _, fun r => binary.trans (and_congr_right fun same => by rw [← same]; rfl)⟩
  · exact fun nt terminal rule => terminalRule_eq_some_iff formed

namespace Formula

theorem evaluate_registered {ps : Parameters} {f : Formula}
    (registered : ∀ name, f.Mentions name → ps.Registered name) : ∃ value, f.evaluate ps = .ok value := by
  induction f with
  | constant value => exact ⟨value, rfl⟩
  | parameter name =>
    rcases registered name .parameter with ⟨p, member, same⟩
    have found : (ps.value? name).isSome = true := by
      rw [Parameters.value_isSome, Array.any_map, Array.any_eq_true]
      rcases Array.mem_iff_getElem.mp member with ⟨i, inside, rfl⟩
      exact ⟨i, inside, by simp [same]⟩
    rcases Option.isSome_iff_exists.mp found with ⟨value, here⟩
    exact ⟨value, by simp only [evaluate, here]⟩
  | negate inner ih =>
    rcases ih fun name inside => registered name (.negate inside) with ⟨value, evaluated⟩
    exact ⟨-value, by simp only [evaluate, evaluated]; rfl⟩
  | binary op left right ihLeft ihRight =>
    rcases ihLeft fun name inside => registered name (.left inside) with ⟨a, evaluated⟩
    rcases ihRight fun name inside => registered name (.right inside) with ⟨b, evaluated'⟩
    exact ⟨op.apply a b, by simp only [evaluate, evaluated, evaluated']; rfl⟩

end Formula

theorem evaluateFrom_isOk {ps : Parameters} {rule : Nat} {sources : List RuleSource}
    (each : ∀ source ∈ sources, ∃ value, source.evaluate ps = .ok value) :
    ∃ values, evaluateFrom ps rule sources = .ok values := by
  induction sources generalizing rule with
  | nil => exact ⟨[], rfl⟩
  | cons source rest ih =>
    rcases each source List.mem_cons_self with ⟨value, here⟩
    have others : ∃ values, evaluateFrom ps (rule + 1) rest = .ok values :=
      ih fun other inside => each other (List.mem_cons_of_mem _ inside)
    rcases others with ⟨values, later⟩
    exact ⟨value :: values, by simp only [evaluateFrom, here, later]; rfl⟩

namespace Declarations

section

variable {d : Declarations} {b : Draft} {nt : Nat}

theorem Mirrored.stands (mirrored : d.Mirrored b) {source : RuleSource} (member : source ∈ b.sources) :
    ∃ formula, Stands d.parameters formula source := by
  rcases mirrored.checked with ⟨terminal, binary, shape, kept, kept'⟩
  rcases List.mem_map.mp member with ⟨checked, inside, rfl⟩
  rw [shape, List.mem_append] at inside
  rcases inside with inside | inside
  · rcases forall₂_mem_right kept inside with ⟨rule, -, -, stands⟩
    exact ⟨_, stands⟩
  · rcases forall₂_mem_right kept' inside with ⟨rule, -, -, stands⟩
    exact ⟨_, stands⟩

/-- Nothing is missing when the rules are evaluated. -/
theorem Mirrored.evaluated (mirrored : d.Mirrored b) :
    ∃ values, RuleValues.ofSources d.parameters b.sources.toArray = .ok values := by
  have each : ∀ source ∈ b.sources, ∃ value, source.evaluate d.parameters = .ok value := by
    intro source member
    rcases mirrored.stands member with ⟨formula, stands⟩
    cases stands with
    | absent | blank => exact ⟨1.0, rfl⟩
    | formula inked read registered => exact Formula.evaluate_registered registered
  have every : ∃ values, evaluateFrom d.parameters 0 b.sources = .ok values := evaluateFrom_isOk each
  rcases every with ⟨values, evaluated⟩
  refine ⟨⟨d.parameters, b.sources.toArray, values.toArray⟩, ?_⟩
  simp only [RuleValues.ofSources, evaluateAll, evaluated]
  rfl

theorem Draft.start_lt (b : Draft) : b.start < b.nonTerminals :=
  Nat.lt_succ_of_le (le_foldl_max _ b.start).1

theorem Mirrored.symbols_lt (mirrored : d.Mirrored b) {r : BinaryRule}
    (member : r ∈ BinaryRule.all b.numbered.rules) : r.left < b.nonTerminals ∧ r.right < b.nonTerminals := by
  rcases mirrored.mem_all.mp ⟨r, member, rfl, rfl, rfl⟩ with ⟨rule, inside, -, left, right⟩
  have small {m : Nat} (mentioned : m ∈ b.checked.flatMap (·.mentioned)) : m < b.nonTerminals :=
    Nat.lt_succ_of_le ((le_foldl_max _ b.start).2 m mentioned)
  constructor
  · exact small (mirrored.mem_mentioned.mpr (.inr ⟨rule, inside, .inr (.inl left)⟩))
  · exact small (mirrored.mem_mentioned.mpr (.inr ⟨rule, inside, .inr (.inr right)⟩))

/-- What a grammar has of its declarations. -/
structure Recorded (d : Declarations) (g : Grammar) : Prop where
  start : (g.rules.start : Int) = d.start
  nonTerminals : ∀ nt, nt < g.rules.nonTerminals ↔ d.Counted nt
  parameters : g.parameters = d.parameters
  size : g.rules.size = d.terminalRules.size + d.binaryRules.size
  terminal : ∀ (i : Nat) rule, d.terminalRules[i]? = some rule →
    (∃ terminal, g.rules.rule? i = some ⟨rule.lhs.toNat, .terminal terminal⟩ ∧
      g.literal? terminal = some rule.literal) ∧
    ∃ source, g.source? i = some source ∧ Stands d.parameters rule.formula source
  binary : ∀ (i : Nat) rule, d.binaryRules[i]? = some rule →
    g.rules.rule? (d.terminalRules.size + i) =
      some ⟨rule.lhs.toNat, .binary rule.left.toNat rule.right.toNat⟩ ∧
    ∃ source, g.source? (d.terminalRules.size + i) = some source ∧ Stands d.parameters rule.formula source
  literals : ∀ (i j : Nat) literal, g.literal? i = some literal → g.literal? j = some literal → i = j
  used : g.used.Pairwise (· < ·)
  mem_used : ∀ id, id ∈ g.used ↔ ∃ p rule f, d.parameters.get? id = some p ∧
    g.source? rule = some (.formula f) ∧ f.Mentions p.name

theorem mem_usedBy {ps : Parameters} {sources : List RuleSource} {id : Nat} :
    id ∈ usedBy ps sources ↔ ∃ p f, ps.get? id = some p ∧ .formula f ∈ sources ∧ f.Mentions p.name := by
  simp only [usedBy, List.mem_filter, List.mem_range, Option.any_eq_true, List.contains_iff_mem,
    List.mem_flatMap]
  constructor
  · rintro ⟨inside, p, found, source, member, named⟩
    cases source with
    | certain => cases named
    | formula f => exact ⟨p, f, found, member, Formula.mem_names.mp named⟩
  · rintro ⟨p, f, found, member, mentions⟩
    exact ⟨(Array.getElem?_eq_some_iff.mp found).1, p, found, _, member, Formula.mem_names.mpr mentions⟩

theorem forall₂_getElem? {α β : Type} {R : α → β → Prop} {l : List α} {l' : List β}
    (all : List.Forall₂ R l l') {i : Nat} {a : α} (found : l[i]? = some a) :
    ∃ b, l'[i]? = some b ∧ R a b := by
  induction all generalizing i with
  | nil => cases found
  | cons here rest ih =>
    cases i with
    | zero =>
      cases found
      exact ⟨_, rfl, here⟩
    | succ i => exact ih found

theorem Mirrored.terminal_at (mirrored : d.Mirrored b) {i : Nat} {rule : TerminalDeclaration}
    (found : d.terminalRules[i]? = some rule) :
    (∃ terminal, b.numbered.rules[i]? = some ⟨rule.lhs.toNat, .terminal terminal⟩ ∧
      b.numbered.alphabet.literals[terminal]? = some rule.literal) ∧
    ∃ source, b.sources[i]? = some source ∧ Stands d.parameters rule.formula source := by
  rcases mirrored.checked with ⟨terminal, binary, shape, kept, -⟩
  rcases mirrored.numbered with ⟨terminals, entered, followed⟩
  rw [← Array.getElem?_toList] at found
  rcases forall₂_getElem? entered.rules found with ⟨added, here, number, rfl, literal⟩
  rcases forall₂_getElem? kept found with ⟨checked, there, -, stands⟩
  have inside := (List.getElem?_eq_some_iff.mp here).1
  have inside' := (List.getElem?_eq_some_iff.mp there).1
  refine ⟨⟨number, ?_, followed.alphabet ▸ literal⟩, checked.source, ?_, stands⟩
  · rw [← Array.getElem?_toList, followed.rules, List.getElem?_append_left inside, here]
  · rw [Draft.sources, shape, List.getElem?_map, List.getElem?_append_left inside', there]
    rfl

/-- The binary rules are numbered on from the others. -/
theorem Mirrored.binary_at (mirrored : d.Mirrored b) {i : Nat} {rule : BinaryDeclaration}
    (found : d.binaryRules[i]? = some rule) :
    b.numbered.rules[d.terminalRules.size + i]? =
      some ⟨rule.lhs.toNat, .binary rule.left.toNat rule.right.toNat⟩ ∧
    ∃ source, b.sources[d.terminalRules.size + i]? = some source ∧ Stands d.parameters rule.formula source := by
  rcases mirrored.checked with ⟨terminal, binary, shape, kept, kept'⟩
  rcases mirrored.numbered with ⟨terminals, entered, followed⟩
  have length : terminals.rules.toList.length = d.terminalRules.size := by
    rw [← entered.rules.length_eq, Array.length_toList]
  have length' : terminal.length = d.terminalRules.size := by
    rw [← kept.length_eq, Array.length_toList]
  rw [← Array.getElem?_toList] at found
  rcases forall₂_getElem? kept' found with ⟨checked, there, -, stands⟩
  refine ⟨?_, checked.source, ?_, stands⟩
  · rw [← Array.getElem?_toList, followed.rules, ← length, List.getElem?_append_right (Nat.le_add_right _ _),
      Nat.add_sub_cancel_left, List.getElem?_map, found]
    rfl
  · rw [Draft.sources, shape, List.getElem?_map, ← length', List.getElem?_append_right (Nat.le_add_right _ _),
      Nat.add_sub_cancel_left, there]
    rfl

theorem Mirrored.size (mirrored : d.Mirrored b) :
    b.numbered.rules.size = d.terminalRules.size + d.binaryRules.size := by
  rcases mirrored.numbered with ⟨terminals, entered, followed⟩
  have length : terminals.rules.toList.length = d.terminalRules.size := by
    rw [← entered.rules.length_eq, Array.length_toList]
  rw [← Array.length_toList, followed.rules, List.length_append, length, List.length_map, Array.length_toList]

theorem Mirrored.recorded (defined : d.Defined) (mirrored : d.Mirrored b) {values : RuleValues}
    (evaluated : RuleValues.ofSources d.parameters b.sources.toArray = .ok values) :
    d.Recorded (({ b with values } : Stages).grammar d.parameters) := by
  rcases RuleValues.ofSources_eq_ok.mp evaluated with ⟨parameters, sources, -⟩
  rcases mirrored.numbered with ⟨terminals, entered, followed⟩
  have source (i : Nat) : values.sources[i]? = b.sources[i]? := by
    rw [sources, List.getElem?_toArray]
  constructor
  · exact mirrored.start
  · exact fun nt => (mirrored.counted_iff defined : nt < b.nonTerminals ↔ _)
  · exact parameters
  · exact mirrored.size
  · intro i declaration found
    rcases mirrored.terminal_at found with ⟨rule, checked, here, stands⟩
    exact ⟨rule, checked, (source i).trans here, stands⟩
  · intro i declaration found
    rcases mirrored.binary_at found with ⟨rule, checked, here, stands⟩
    exact ⟨rule, checked, (source _).trans here, stands⟩
  · intro i j literal first second
    change b.numbered.alphabet.literals[i]? = _ at first
    change b.numbered.alphabet.literals[j]? = _ at second
    rw [followed.alphabet] at first second
    exact entered.exact.number_unique first second
  · exact (List.pairwise_lt_range).filter _
  · intro id
    refine mem_usedBy.trans (exists_congr fun p => ?_)
    change (∃ f, _ ∧ .formula f ∈ b.sources ∧ _) ↔ ∃ rule f, _ ∧ values.sources[rule]? = _ ∧ _
    simp only [List.mem_iff_getElem?, source]
    constructor
    · rintro ⟨f, found, ⟨i, here⟩, mentions⟩
      exact ⟨i, f, found, here, mentions⟩
    · rintro ⟨i, f, found, here, mentions⟩
      exact ⟨f, found, ⟨i, here⟩, mentions⟩

/-- A table has a row for every non-terminal, and one of them a place for every literal in each row. -/
def Fitting (d : Declarations) : Prop :=
  ∀ nt, d.Counted nt → TablesFit (nt + 1) (d.terminalRules.toList.map (·.literal)).dedup.length

theorem Mirrored.terminals (mirrored : d.Mirrored b) :
    b.terminals = (d.terminalRules.toList.map (·.literal)).dedup.length := by
  rcases mirrored.numbered with ⟨terminals, entered, followed⟩
  rw [Draft.terminals, followed.alphabet, ← Array.length_toList]
  refine List.Perm.length_eq ?_
  have distinct : terminals.alphabet.literals.toList.Nodup := by
    refine List.nodup_iff_getElem?_ne_getElem?.mpr fun i j less inside same => ?_
    rw [Array.getElem?_toList, Array.getElem?_toList] at same
    obtain ⟨literal, there⟩ : ∃ literal, terminals.alphabet.literals[j]? = some literal :=
      ⟨_, Array.getElem?_eq_getElem inside⟩
    exact Nat.ne_of_lt less (entered.exact.number_unique (same.trans there) there)
  rw [List.perm_ext_iff_of_nodup distinct (List.nodup_dedup _)]
  intro literal
  rw [Array.mem_toList_iff, entered.literals, List.mem_dedup, List.mem_map]

theorem Mirrored.fitting_iff (defined : d.Defined) (mirrored : d.Mirrored b) :
    TablesFit b.nonTerminals b.terminals ↔ d.Fitting := by
  rw [Fitting, ← mirrored.terminals]
  simp only [← mirrored.counted_iff defined]
  constructor
  · rintro ⟨rows, places⟩ nt inside
    exact ⟨(Nat.mul_le_mul_right _ inside).trans rows,
      (Nat.mul_le_mul_right _ (Nat.mul_le_mul_right _ inside)).trans places⟩
  · intro each
    have last : b.nonTerminals - 1 + 1 = b.nonTerminals := Nat.sub_add_cancel b.start_lt.pos
    exact last ▸ each (b.nonTerminals - 1) (by omega)

/-- The checks of the grammar as a whole, the first that fails before the others. -/
theorem complete_cases (defined : d.Defined) (mirrored : d.Mirrored b) :
    ¬ d.Fitting ∧ complete d.parameters b = .error .overflow ∨
      d.Fitting ∧
        ((∃ nt, IsLeast {nt | d.Counted nt ∧ ¬ d.Ruled nt} nt ∧
            complete d.parameters b = .error (.fault (.consistency nt .noRules))) ∨
          (∀ nt, d.Counted nt → d.Ruled nt) ∧
            ((∃ nt, IsLeast {nt : Nat | d.Counted nt ∧ ¬ d.Reached nt} nt ∧
                complete d.parameters b = .error (.fault (.consistency nt (.unreachable b.start)))) ∨
              (∀ nt : Nat, d.Counted nt → d.Reached nt) ∧
                ∃ values, RuleValues.ofSources d.parameters b.sources.toArray = .ok values ∧
                  complete d.parameters b = .ok (({ b with values } : Stages).grammar d.parameters))) := by
  have fits_iff := mirrored.fitting_iff defined
  simp only [← mirrored.counted_iff defined, ← mirrored.ruled_iff defined, ← mirrored.reached_iff defined]
  have symbols : ∀ r ∈ BinaryRule.all b.numbered.rules,
      r.left < b.nonTerminals ∧ r.right < b.nonTerminals := fun _ => mirrored.symbols_lt
  by_cases fits : TablesFit b.nonTerminals b.terminals
  · refine .inr ⟨fits_iff.mp fits, ?_⟩
    cases ruled : ruleless? b.index b.nonTerminals with
    | some nt => exact .inl ⟨nt, ruleless_eq_some ruled, by simp only [complete, fits, ruled, if_true]⟩
    | none =>
      refine .inr ⟨ruleless_eq_none.mp ruled, ?_⟩
      cases reached : unreachable? b.index b.nonTerminals b.start with
      | some nt =>
        exact .inl ⟨nt, unreachable_eq_some symbols b.start_lt reached,
          by simp only [complete, fits, ruled, reached, if_true]⟩
      | none =>
        rcases mirrored.evaluated with ⟨values, evaluated⟩
        exact .inr ⟨(unreachable_eq_none symbols b.start_lt).mp reached, values, evaluated,
          complete_eq_ok_iff.mpr ⟨fits, ruled, reached, values, evaluated, rfl⟩⟩
  · exact .inl ⟨mt fits_iff.mpr fits, if_neg fits⟩

/-- All ways in which the construction can end. -/
theorem grammar_cases (d : Declarations) :
    (¬ d.Defined ∧ ∃ label fault, d.grammar = .error (.fault (.definition label fault))) ∨
      d.Defined ∧ (¬ d.Fitting ∧ d.grammar = .error .overflow ∨
        d.Fitting ∧
          ((∃ nt, IsLeast {nt | d.Counted nt ∧ ¬ d.Ruled nt} nt ∧
              d.grammar = .error (.fault (.consistency nt .noRules))) ∨
            (∀ nt, d.Counted nt → d.Ruled nt) ∧
              ((∃ nt, IsLeast {nt : Nat | d.Counted nt ∧ ¬ d.Reached nt} nt ∧
                  d.grammar = .error (.fault (.consistency nt (.unreachable d.start.toNat)))) ∨
                (∀ nt : Nat, d.Counted nt → d.Reached nt) ∧
                  ∃ g, d.grammar = .ok g ∧ d.Recorded g ∧ g.rules.Tabulated))) := by
  have answers := d.draft_answers
  have stages : d.grammar = d.draft.mapError .fault >>= complete d.parameters := rfl
  cases drafted : d.draft with
  | error fault =>
    rw [drafted] at answers stages
    rcases answers with ⟨undefined, label, cause, rfl⟩
    exact .inl ⟨undefined, label, cause, stages⟩
  | ok b =>
    rw [drafted] at answers stages
    rcases answers with ⟨defined, mirrored⟩
    have start : b.start = d.start.toNat := by
      have same := mirrored.start
      omega
    change d.grammar = complete d.parameters b at stages
    have cases := complete_cases defined mirrored
    rw [← stages, start] at cases
    refine .inr ⟨defined, cases.imp_right (And.imp_right (Or.imp_right (And.imp_right (Or.imp_right ?_))))⟩
    rintro ⟨reached, values, evaluated, built⟩
    exact ⟨reached, _, built, mirrored.recorded defined evaluated, (Grammar.rules_wellFormed built).tabulated⟩

/-- Every list of declarations is a grammar or has a fault that the error tells, as long as there can
be tables for its non-terminals. -/
theorem grammar_iff (d : Declarations) :
    ((∃ g, d.grammar = .ok g) ↔
      d.Defined ∧ d.Fitting ∧ (∀ nt, d.Counted nt → d.Ruled nt) ∧ ∀ nt : Nat, d.Counted nt → d.Reached nt) ∧
    (∀ g, d.grammar = .ok g → d.Recorded g ∧ g.rules.Tabulated) ∧
    (¬ d.Defined → ∃ label fault, d.grammar = .error (.fault (.definition label fault))) ∧
    (d.Defined → ¬ d.Fitting → d.grammar = .error .overflow) ∧
    (d.Defined → d.Fitting → ∀ nt, IsLeast {nt | d.Counted nt ∧ ¬ d.Ruled nt} nt →
      d.grammar = .error (.fault (.consistency nt .noRules))) ∧
    (d.Defined → d.Fitting → (∀ nt, d.Counted nt → d.Ruled nt) →
      ∀ nt, IsLeast {nt : Nat | d.Counted nt ∧ ¬ d.Reached nt} nt →
        d.grammar = .error (.fault (.consistency nt (.unreachable d.start.toNat)))) := by
  rcases d.grammar_cases with ⟨undefined, label, fault, failed⟩ | ⟨defined, ⟨large, failed⟩ |
    ⟨fits, ⟨nt, least, failed⟩ | ⟨ruled, ⟨nt, least, failed⟩ | ⟨reached, g, built, recorded⟩⟩⟩⟩
  · simp [failed, undefined]
  · simp [failed, defined, large]
  · have lacks : ¬ ∀ nt, d.Counted nt → d.Ruled nt := fun all => least.1.2 (all nt least.1.1)
    simp only [failed, defined, fits, lacks]
    simpa using fun other least' => least.unique least'
  · have lacks : ¬ ∀ nt : Nat, d.Counted nt → d.Reached nt := fun all => least.1.2 (all nt least.1.1)
    have none (other : Nat) : ¬ IsLeast {nt | d.Counted nt ∧ ¬ d.Ruled nt} other :=
      fun least' => least'.1.2 (ruled other least'.1.1)
    simp only [failed, defined, fits, lacks, none]
    simpa using fun _ other least' => least.unique least'
  · have none (other : Nat) : ¬ IsLeast {nt | d.Counted nt ∧ ¬ d.Ruled nt} other :=
      fun least' => least'.1.2 (ruled other least'.1.1)
    have none' (other : Nat) : ¬ IsLeast {nt : Nat | d.Counted nt ∧ ¬ d.Reached nt} other :=
      fun least' => least'.1.2 (reached other least'.1.1)
    simp only [built, defined, fits, none, none']
    simpa using ⟨⟨ruled, reached⟩, recorded⟩

/-- One rule, and a start symbol that would need more rows than a table can have. -/
def tall : Declarations where
  terminalRules := #[⟨0, "a", none⟩]
  start := 9223372036854775807

theorem tall_defined : tall.Defined where
  nonempty := by simp [tall]
  start := by simp [tall]
  terminal := by simp [tall, Formulated]
  binary := by simp [tall]
  prefixFree := by simp [tall]
  terminalOnce := by simp [tall]
  binaryOnce := by simp [tall]

/-- The least non-terminal without rules is not told. -/
theorem tall_overflows : tall.Defined ∧ IsLeast {nt | tall.Counted nt ∧ ¬ tall.Ruled nt} 1 ∧
    tall.grammar = .error .overflow ∧ tall.grammar ≠ .error (.fault (.consistency 1 .noRules)) := by
  have counted {nt : Nat} (below : nt ≤ 9223372036854775807) : tall.Counted nt :=
    ⟨tall.start, .inl rfl, Int.ofNat_le.mpr below⟩
  have ruled (nt : Nat) : tall.Ruled nt ↔ nt = 0 := by
    simp [Ruled, tall, eq_comm]
  have large : ¬ tall.Fitting := fun fits => absurd (fits _ (counted le_rfl)).1 (by decide)
  have failed : tall.grammar = .error .overflow := by
    rcases tall.grammar_cases with ⟨undefined, -⟩ | ⟨-, ⟨-, failed⟩ | ⟨fits, -⟩⟩
    · exact absurd tall_defined undefined
    · exact failed
    · exact absurd fits large
  refine ⟨tall_defined, ⟨⟨counted (by decide), by simp [ruled]⟩, ?_⟩, failed, by simp [failed]⟩
  rintro nt ⟨-, without⟩
  rw [ruled] at without
  omega

end

end Declarations

end StochasticGrammar
