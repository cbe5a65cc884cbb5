import StochasticGrammar.Proofs.GrammarText.Printing

/-!
The text of a grammar makes the grammar again. Updates of the parameters keep what can be read of them,
so that after any number of updates the text of a grammar that was read is read, and the grammar that
it declares has the same rules, formulas, parameters and values.
-/

namespace StochasticGrammar

namespace Parameters

theorem Sound.setValues {ps other : Parameters} (sound : ps.Sound) {updates : List (Nat × Float)}
    (updated : ps.setValues updates = .ok other) : other.Sound := by
  apply (sound.coherent.setValues updated).sound
  intro q member
  obtain ⟨id, p, present, -, rfl⟩ := mem_setValues updated member
  exact sound.named p present

end Parameters

namespace GrammarText

theorem write_congr {g other : Grammar} (rules : g.rules = other.rules) (alphabet : g.alphabet = other.alphabet)
    (sources : g.values.sources = other.values.sources)
    (entries : g.parameters.entries = other.parameters.entries) : write g = write other := by
  have text : g.ruleText = other.ruleText := by
    funext index
    simp only [Grammar.ruleText, Grammar.productionText, Grammar.literal?, Grammar.source?, rules, alphabet,
      sources]
  rw [write, write, lines, lines, rules, entries, text]

/-- What updates of a grammar keep, for as many as there are. -/
theorem updated_keeps {base g updated : Grammar} {updates : List (List (Nat × Float))}
    (update : base.UpdateOf g) (sound : g.parameters.Sound)
    (ran : updates.foldlM Grammar.setValues g = .ok updated) :
    base.UpdateOf updated ∧ updated.parameters.Sound := by
  induction updates generalizing g with
  | nil =>
    cases ran
    exact ⟨update, sound⟩
  | cons first updates ih =>
    rw [List.foldlM_cons] at ran
    obtain ⟨middle, set, later⟩ := bind_eq_ok.mp ran
    apply ih (update.setValues set).1 _ later
    unfold Grammar.setValues at set
    split at set
    · rename_i values changed
      cases set
      unfold RuleValues.setValues at changed
      split at changed
      · cases changed
      · rename_i ps moved
        split at changed
        · cases changed
        · cases changed
          exact sound.setValues moved
    · cases set

theorem parameters_of_grammar {d : Declarations} {g : Grammar} (built : d.grammar = .ok g) :
    g.parameters = d.parameters := by
  obtain ⟨b, passes, rfl⟩ := Declarations.grammar_eq_ok_iff.mp built
  exact (RuleValues.ofSources_eq_ok.mp passes.evaluated).1

theorem checkAll_result {α β : Type} {check : Nat → α → Except Error β} {number : Nat} {items : List α}
    {results : List β} (checked : Declarations.checkAll check number items = .ok results) :
    ∀ result ∈ results, ∃ n item, check n item = .ok result := by
  induction items generalizing number results with
  | nil =>
    cases checked
    simp
  | cons item items ih =>
    obtain ⟨first, here, later⟩ := bind_eq_ok.mp checked
    obtain ⟨others, there, made⟩ := bind_eq_ok.mp later
    cases made
    intro result member
    rcases List.mem_cons.mp member with rfl | other
    · exact ⟨number, item, here⟩
    · exact ih there result other

theorem sources_readable {d : Declarations} {g : Grammar} (built : d.grammar = .ok g)
    (bounded : ∀ source ∈ g.values.sources, ∀ value ∈ source.constants, value.isInf = false) :
    ∀ source ∈ g.values.sources, source.Readable := by
  obtain ⟨b, passes, rfl⟩ := Declarations.grammar_eq_ok_iff.mp built
  obtain ⟨terminal, binary, leaves, nodes, -, sources⟩ := passes.sources
  intro source member
  have small := bounded source member
  have listed : source ∈ b.values.sources.toList := Array.mem_toList_iff.mpr member
  rw [sources, List.mem_append, List.mem_map, List.mem_map] at listed
  rcases listed with ⟨result, inside, rfl⟩ | ⟨result, inside, rfl⟩
  · obtain ⟨n, rule, checked⟩ := checkAll_result leaves result inside
    simp only [Declarations.checkTerminal, bind_eq_ok] at checked
    obtain ⟨lhs, -, checked⟩ := checked
    split at checked
    · cases checked
    · obtain ⟨source, known, made⟩ := bind_eq_ok.mp checked
      cases made
      exact Declarations.source_readable known small
  · obtain ⟨n, rule, checked⟩ := checkAll_result nodes result inside
    simp only [Declarations.checkBinary, bind_eq_ok] at checked
    obtain ⟨lhs, -, left, -, right, -, source, known, made⟩ := checked
    cases made
    exact Declarations.source_readable known small

theorem mem_zipWith {α β γ : Type} {f : α → β → γ} {items : List α} {others : List β} {made : γ}
    (member : made ∈ List.zipWith f items others) : ∃ a ∈ items, ∃ b ∈ others, made = f a b := by
  rw [← List.map_uncurry_zip_eq_zipWith, List.mem_map] at member
  obtain ⟨⟨a, b⟩, pair, rfl⟩ := member
  exact ⟨a, (List.of_mem_zip pair).1, b, (List.of_mem_zip pair).2, rfl⟩

/-- Declarations that can be read can be printed with the formulas of their grammar. -/
theorem rewritten_printable {d : Declarations} (sound : Sound d) {ps : Parameters} (valid : ps.Sound)
    {sources : List RuleSource} (readable : ∀ source ∈ sources, source.Readable) :
    (({ d with parameters := ps } : Declarations).rewritten sources).Printable where
  start := sound.start
  parameters := valid
  terminal := by
    intro rule member
    obtain ⟨old, inside, source, used, rfl⟩ := mem_zipWith (List.mem_toArray.mp member)
    obtain ⟨fits, single⟩ := sound.terminal old (Array.mem_toList_iff.mp inside)
    exact ⟨fits, single, (readable source used).trimmed⟩
  binary := by
    intro rule member
    obtain ⟨old, inside, source, used, rfl⟩ := mem_zipWith (List.mem_toArray.mp member)
    obtain ⟨fits, left, right⟩ := sound.binary old (Array.mem_toList_iff.mp inside)
    exact ⟨fits, left, right, (readable source (List.mem_of_mem_drop used)).trimmed⟩

/-- The text of a grammar that was read, after any updates of its parameters, is read again and makes
the same grammar: the same rules and terminals at the same numbers, the same formulas, the same
parameters with the same values and bounds, and so the same value of every rule and the same text. -/
theorem read_write {text : String} {d : Declarations} {g updated : Grammar}
    {updates : List (List (Nat × Float))} (read : GrammarText.read text = .ok d) (built : d.grammar = .ok g)
    (bounded : ∀ source ∈ g.values.sources, ∀ value ∈ source.constants, value.isInf = false)
    (ran : updates.foldlM Grammar.setValues g = .ok updated) :
    ∃ d' g', GrammarText.read (write updated) = .ok d' ∧ d'.grammar = .ok g' ∧
      g'.rules = updated.rules ∧ g'.alphabet = updated.alphabet ∧
      g'.values.sources = updated.values.sources ∧
      g'.parameters.entries = updated.parameters.entries ∧
      g'.values.values = updated.values.values ∧ write g' = write updated := by
  have sound := read_sound read
  have first : g.parameters.Sound := by
    rw [parameters_of_grammar built]
    exact sound.parameters
  obtain ⟨update, valid⟩ := updated_keeps (Grammar.updateOf_self built) first ran
  -- the declarations with the present values, as they are counted when they are read
  let ps : Parameters := ⟨updated.parameters.entries, updated.parameters.entries.size⟩
  have valid : ps.Sound := ⟨valid.named, valid.distinct, valid.bounds, valid.inside⟩
  have same : ps.entries = updated.parameters.entries := rfl
  obtain ⟨g', made, -, alphabet, rules, sources, values⟩ := Grammar.redeclared built update same
  have entries : g'.parameters.entries = updated.parameters.entries := by
    rw [parameters_of_grammar made]
  have readable : ∀ source ∈ g'.values.sources, source.Readable := by
    rw [sources, update.sources]
    exact sources_readable built bounded
  have written := write_congr rules alphabet sources entries
  have printable := rewritten_printable sound valid fun source member =>
    readable source (Array.mem_toList_iff.mp member)
  refine ⟨_, g', ?_, Declarations.rewritten_grammar made readable, rules, alphabet, sources, entries, values,
    written⟩
  rw [← written, write_eq made]
  exact read_text printable

/-- Whether a text declares what is expected. -/
def declares (expected : Declarations) : Except Error Declarations → Bool
  | .ok d =>
    decide (d.terminalRules = expected.terminalRules) && decide (d.binaryRules = expected.binaryRules) &&
      decide (d.start = expected.start) && decide (d.parameters.entries = expected.parameters.entries) &&
      decide (d.parameters.epoch = expected.parameters.epoch)
  | .error _ => false

theorem eq_ok_of_declares {expected : Declarations} {result : Except Error Declarations}
    (same : declares expected result = true) : result = .ok expected := by
  cases result with
  | error fault => cases same
  | ok d =>
    simp only [declares, Bool.and_eq_true, decide_eq_true_eq] at same
    obtain ⟨terminal, binary, start, ⟨entries, epoch⟩⟩ := expected
    obtain ⟨terminal', binary', start', ⟨entries', epoch'⟩⟩ := d
    obtain ⟨⟨⟨⟨rfl, rfl⟩, rfl⟩, rfl⟩, rfl⟩ := same
    rfl

/-- The sample with its parameter at a quarter, after one update. -/
def sampleUpdated : Grammar :=
  let g := Declarations.sampleGrammar 0.5
  { g with values := ⟨⟨#[⟨"p", 0.25, 0, 1⟩], 2⟩, g.values.sources, #[0.25, 1.0, 0.25, 1.0]⟩ }

theorem sample_updated : [[(0, (0.25 : Float))]].foldlM Grammar.setValues (Declarations.sampleGrammar 0.5) =
    .ok sampleUpdated := by
  have inside : Parameters.inBounds 0.25 0 1 = true := by decide +kernel
  simp [Grammar.setValues, RuleValues.setValues, Parameters.setValues, Parameters.fault?,
    Parameters.get?, Parameters.assign, Declarations.sampleGrammar, Declarations.Stages.grammar,
    Declarations.sampleStages, Declarations.sample, inside, evaluateAll, evaluateFrom,
    RuleSource.evaluate, Formula.evaluate, Parameters.value?, sampleUpdated, bind, Except.bind, pure,
    Except.pure]

theorem sample_read_write : ∃ d' g', GrammarText.read (write sampleUpdated) = .ok d' ∧ d'.grammar = .ok g' ∧
    g'.rules = sampleUpdated.rules ∧ g'.alphabet = sampleUpdated.alphabet ∧
    g'.values.sources = sampleUpdated.values.sources ∧
    g'.parameters.entries = sampleUpdated.parameters.entries ∧
    g'.values.values = sampleUpdated.values.values ∧ write g' = write sampleUpdated := by
  have read : GrammarText.read
      "param p = 0.5 in [0, 1]\n0 -> \"a\" : p\n1 -> \"b\"\n0 -> 0 0 : p\n0 -> 0 1\n" =
        .ok (Declarations.sample 0.5) := eq_ok_of_declares (by decide +kernel)
  apply read_write read (Declarations.sample_grammar 0.5) _ sample_updated
  intro source member value inside
  simp only [Declarations.sampleGrammar, Declarations.Stages.grammar, Declarations.sampleStages,
    List.mem_toArray, List.mem_cons, List.not_mem_nil, or_false] at member
  rcases member with rfl | rfl | rfl | rfl <;> cases inside

end GrammarText

end StochasticGrammar
