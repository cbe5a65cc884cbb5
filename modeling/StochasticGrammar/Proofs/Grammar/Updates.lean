import StochasticGrammar.Proofs.Grammar.Acceptance

/-!
What updates of the parameters leave alone. The names of the parameters and with them all that is
checked of a rule stay; the values of the rules are always those of their sources at the present
values of the parameters, and a certain rule has the same value at all of them.
-/

namespace StochasticGrammar

def SameNames (ps other : Parameters) : Prop :=
  ps.entries.map (·.name) = other.entries.map (·.name)

namespace Parameters

variable {ps other : Parameters}

theorem id_eq_names (ps : Parameters) (name : String) :
    ps.id? name = (ps.entries.map (·.name)).findIdx? (· == name) := by
  simp [id?, Array.findIdx?_map, Function.comp_def]

theorem id_congr (same : SameNames ps other) (name : String) : ps.id? name = other.id? name := by
  rw [id_eq_names, id_eq_names, same]

theorem value_isSome (ps : Parameters) (name : String) :
    (ps.value? name).isSome = (ps.entries.map (·.name)).any (· == name) := by
  rw [value?, Option.isSome_map, Array.any_map]
  simp [Array.isSome_find?]

theorem names_assign (entries : Array Parameter) (updates : List (Nat × Float)) :
    (assign entries updates).map (·.name) = entries.map (·.name) := by
  unfold assign
  induction updates generalizing entries with
  | nil => rfl
  | cons update updates ih =>
    rw [List.foldl_cons, ih]
    apply Array.ext
    · simp
    · intro i left right
      simp [Array.getElem_modify]
      split <;> rfl

theorem setValues_eq_ok {updates : List (Nat × Float)} (updated : ps.setValues updates = .ok other) :
    SameNames other ps ∧ other.epoch = ps.epoch + 1 := by
  unfold setValues at updated
  split at updated
  · cases updated
  · cases updated
    exact ⟨names_assign ps.entries updates, rfl⟩

end Parameters

theorem evaluate_congr {ps other : Parameters} (same : ps.entries = other.entries) (f : Formula) :
    f.evaluate ps = f.evaluate other := by
  induction f with
  | constant value => rfl
  | parameter name => simp only [Formula.evaluate, Parameters.value?, same]
  | negate inner ih => simp only [Formula.evaluate, ih]
  | binary op left right ihLeft ihRight => simp only [Formula.evaluate, ihLeft, ihRight]

theorem evaluateFrom_congr {ps other : Parameters} {sources : List RuleSource}
    (same : ∀ source ∈ sources, source.evaluate ps = source.evaluate other) (rule : Nat) :
    evaluateFrom ps rule sources = evaluateFrom other rule sources := by
  induction sources generalizing rule with
  | nil => rfl
  | cons source rest ih =>
    rw [List.forall_mem_cons] at same
    simp only [evaluateFrom, same.1, ih same.2]

theorem evaluateAll_of_each {ps other : Parameters} {sources : Array RuleSource}
    (same : ∀ source ∈ sources, source.evaluate ps = source.evaluate other) :
    evaluateAll sources ps = evaluateAll sources other := by
  have each : ∀ source ∈ sources.toList, source.evaluate ps = source.evaluate other :=
    fun source member => same source (Array.mem_toList_iff.mp member)
  simp only [evaluateAll, evaluateFrom_congr each]

theorem evaluateAll_congr {ps other : Parameters} (same : ps.entries = other.entries)
    (sources : Array RuleSource) : evaluateAll sources ps = evaluateAll sources other := by
  apply evaluateAll_of_each
  intro source _
  cases source with
  | certain => rfl
  | formula f => exact evaluate_congr same f

theorem evaluateFrom_eq_ok {ps : Parameters} {rule : Nat} {sources : List RuleSource}
    {values : List Float} (evaluated : evaluateFrom ps rule sources = .ok values) :
    List.Forall₂ (fun source value => source.evaluate ps = .ok value) sources values := by
  induction sources generalizing rule values with
  | nil =>
    cases evaluated
    exact .nil
  | cons source rest ih =>
    unfold evaluateFrom at evaluated
    split at evaluated
    · cases evaluated
    · rename_i value here
      rcases bind_eq_ok.mp evaluated with ⟨others, later, made⟩
      cases made
      exact .cons here (ih later)

namespace RuleValues

/-- The values are those of the sources at the present values of the parameters. -/
def Evaluated (store : RuleValues) : Prop :=
  evaluateAll store.sources store.parameters = .ok store.values

theorem ofSources_eq_ok {ps : Parameters} {sources : Array RuleSource} {store : RuleValues} :
    ofSources ps sources = .ok store ↔
      store.parameters = ps ∧ store.sources = sources ∧ store.Evaluated := by
  unfold ofSources
  rw [bind_eq_ok]
  constructor
  · intro built
    rcases built with ⟨values, evaluated, made⟩
    cases made
    exact ⟨rfl, rfl, evaluated⟩
  · intro parts
    rcases parts with ⟨rfl, rfl, evaluated⟩
    exact ⟨store.values, evaluated, rfl⟩

theorem setValues_eq_ok {store other : RuleValues} {updates : List (Nat × Float)}
    (updated : store.setValues updates = .ok other) :
    other.sources = store.sources ∧ other.Evaluated ∧ SameNames other.parameters store.parameters ∧
      other.epoch = store.epoch + 1 := by
  unfold setValues at updated
  split at updated
  · cases updated
  · rename_i ps changed
    split at updated
    · cases updated
    · rename_i values evaluated
      cases updated
      have kept := Parameters.setValues_eq_ok changed
      exact ⟨rfl, evaluated, kept.1, kept.2⟩

/-- The rule values are those of the sources, one by one. -/
theorem Evaluated.values {store : RuleValues} (evaluated : store.Evaluated) :
    store.values.size = store.sources.size ∧
      ∀ (rule : Nat) source, store.sources[rule]? = some source →
        ∃ x, store.values[rule]? = some x ∧ source.evaluate store.parameters = .ok x := by
  rcases bind_eq_ok.mp evaluated with ⟨values, here, made⟩
  have same : store.values = values.toArray := (Except.ok.inj made).symm
  rcases List.forall₂_iff_get.mp (evaluateFrom_eq_ok here) with ⟨length, each⟩
  rw [Array.length_toList] at length
  rw [same]
  refine ⟨by simp [length], fun rule source found => ?_⟩
  rcases Array.getElem?_eq_some_iff.mp found with ⟨inside, rfl⟩
  have valued : rule < values.length := by omega
  exact ⟨values.get ⟨rule, valued⟩, by simp [valued], each rule (by simpa) valued⟩

/-- A rule is worth one if it is certain, and zero if there is no such rule. -/
theorem value_of_isCertain {store : RuleValues} (evaluated : store.Evaluated) {rule : Nat}
    (certain : store.isCertain rule = true) :
    store.value rule = if rule < store.sources.size then 1.0 else 0.0 := by
  rcases evaluated.values with ⟨size, each⟩
  split
  · rename_i inside
    have found := Array.getElem?_eq_getElem inside
    rcases each rule _ found with ⟨x, valued, here⟩
    simp only [isCertain, found, Option.map_some, Option.getD_some] at certain
    cases source : store.sources[rule] with
    | certain =>
      rw [source] at here
      simp only [value, valued, Option.getD_some, ← Except.ok.inj here]
    | formula f =>
      rw [source] at certain
      cases certain
  · rename_i beyond
    have none : store.values[rule]? = none := by
      rw [Array.getElem?_eq_none_iff, size]
      omega
    simp [value, none]

end RuleValues

namespace Declarations

variable {ps other : Parameters}

theorem source_congr (same : SameNames ps other) (label : DeclarationLabel) (text : Option String) :
    source ps label text = source other label text := by
  have ids : ps.id? = other.id? := funext (Parameters.id_congr same)
  cases text with
  | none => rfl
  | some text => simp only [source, ids]

theorem checkTerminal_congr (same : SameNames ps other) : checkTerminal ps = checkTerminal other := by
  funext number rule
  simp only [checkTerminal, source_congr same]

theorem checkBinary_congr (same : SameNames ps other) : checkBinary ps = checkBinary other := by
  funext number rule
  simp only [checkBinary, source_congr same]

end Declarations

namespace Grammar

/-- What a grammar shares with every grammar that comes of it by updates of the parameters. -/
structure UpdateOf (g updated : Grammar) : Prop where
  alphabet : updated.alphabet = g.alphabet
  rules : updated.rules = g.rules
  sources : updated.values.sources = g.values.sources
  names : SameNames updated.parameters g.parameters
  evaluated : updated.values.Evaluated

theorem UpdateOf.setValues {g updated other : Grammar} (update : g.UpdateOf updated)
    {updates : List (Nat × Float)} (set : updated.setValues updates = .ok other) :
    g.UpdateOf other ∧ other.epoch = updated.epoch + 1 := by
  unfold Grammar.setValues at set
  split at set
  · rename_i values changed
    cases set
    rcases RuleValues.setValues_eq_ok changed with ⟨sources, evaluated, names, epoch⟩
    exact ⟨⟨update.alphabet, update.rules, sources.trans update.sources,
      names.trans update.names, evaluated⟩, epoch⟩
  · cases set

theorem updateOf_self {d : Declarations} {g : Grammar} (built : d.grammar = .ok g) :
    g.UpdateOf g := by
  rcases Declarations.grammar_eq_ok_iff.mp built with ⟨b, passes, rfl⟩
  exact ⟨rfl, rfl, rfl, rfl, (RuleValues.ofSources_eq_ok.mp passes.evaluated).2.2⟩

/-- The declarations with the present values of the parameters make a grammar of the same rules and
the same values. -/
theorem redeclared {d : Declarations} {g updated : Grammar} (built : d.grammar = .ok g)
    (update : g.UpdateOf updated) {ps : Parameters} (same : ps.entries = updated.parameters.entries) :
    ∃ g', Declarations.grammar { d with parameters := ps } = .ok g' ∧ g'.UpdateOf g' ∧
      g'.alphabet = updated.alphabet ∧ g'.rules = updated.rules ∧
      g'.values.sources = updated.values.sources ∧ g'.values.values = updated.values.values := by
  rcases Declarations.grammar_eq_ok_iff.mp built with ⟨b, passes, rfl⟩
  rcases passes with ⟨nonempty, start, checked, numbered, fits, ruled, reached, evaluated⟩
  rcases RuleValues.ofSources_eq_ok.mp evaluated with ⟨parameters, sources, -⟩
  have names : SameNames ps d.parameters := by
    rw [SameNames, same, ← parameters]
    exact update.names
  let values : RuleValues := ⟨ps, updated.values.sources, updated.values.values⟩
  have reevaluated : values.Evaluated := by
    have now := update.evaluated
    rw [RuleValues.Evaluated, ← Grammar.parameters, evaluateAll_congr same.symm] at now
    exact now
  have built' : Declarations.grammar { d with parameters := ps } =
      .ok (({ b with values } : Declarations.Stages).grammar ps) := by
    apply Declarations.grammar_eq_ok_iff.mpr
    refine ⟨{ b with values }, ?_, rfl⟩
    refine ⟨nonempty, start, ?_, numbered, fits, ruled, reached, ?_⟩
    · rw [Declarations.checkTerminal_congr names, Declarations.checkBinary_congr names]
      exact checked
    · exact RuleValues.ofSources_eq_ok.mpr ⟨rfl, update.sources.trans sources, reevaluated⟩
  exact ⟨_, built', updateOf_self built', update.alphabet.symm, update.rules.symm, rfl, rfl⟩

end Grammar

end StochasticGrammar
