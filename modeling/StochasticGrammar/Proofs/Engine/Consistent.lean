import StochasticGrammar.Proofs.Chart.Epochs
import StochasticGrammar.Proofs.Engine.Sessions
import StochasticGrammar.Proofs.Grammar.Updates

/-!
What every session keeps. The grammar differs from the first one in the values of the parameters
alone, and the tables of every string of the corpus are in date, so that each answer is the settled
weight of a cell under the present values.
-/

namespace StochasticGrammar

/-- Tokens to be derived by the rules of a grammar at their present values. -/
def Grammar.sentence (g : Grammar) (tokens : Array Nat) : Sentence Float := { g.weighted with tokens }

structure CorpusString.Valid (g : Grammar) (s : CorpusString) : Prop where
  nonempty : s.text.isEmpty = false
  tokenized : g.tokenize s.text = .ok s.tokens
  inDate : InDate (g.sentence s.tokens) s.tables g.epoch

structure Engine.Consistent (g : Grammar) (e : Engine) : Prop where
  grammar : g.UpdateOf e.grammar
  corpus : ∀ s ∈ e.corpus, s.Valid e.grammar

variable {g : Grammar} {e : Engine}

theorem sentence_of_update {g updated : Grammar} (rules : updated.rules = g.rules)
    (sources : updated.values.sources = g.values.sources) (tokens : Array Nat) :
    updated.sentence tokens = (g.sentence tokens).revalued updated.values.value := by
  have certain : updated.values.isCertain = g.values.isCertain := by
    funext rule
    simp only [RuleValues.isCertain, sources]
  simp only [Grammar.sentence, Sentence.revalued, Grammar.weighted, rules, certain]

/-- The weights of a text are fixed by the rules, by which of them are certain and by the values. -/
theorem sentence_congr {g other : Grammar} (rules : other.rules = g.rules)
    (sources : other.values.sources = g.values.sources) (values : other.values.values = g.values.values)
    (tokens : Array Nat) : other.sentence tokens = g.sentence tokens := by
  have value : other.values.value = g.values.value := by
    funext rule
    simp only [RuleValues.value, values]
  rw [sentence_of_update rules sources, value]
  rfl

theorem value_of_update {g updated : Grammar} (sources : updated.values.sources = g.values.sources)
    (evaluated : g.values.Evaluated) (reevaluated : updated.values.Evaluated) {rule : Nat}
    (certain : g.values.isCertain rule = true) :
    updated.values.value rule = g.values.value rule := by
  have certain' : updated.values.isCertain rule = true := by
    simpa only [RuleValues.isCertain, sources] using certain
  rw [RuleValues.value_of_isCertain evaluated certain,
    RuleValues.value_of_isCertain reevaluated certain', sources]

theorem CorpusString.Valid.setValues {updated other : Grammar} {s : CorpusString}
    (valid : s.Valid updated) (update : g.UpdateOf updated) {updates : List (Nat × Float)}
    (set : updated.setValues updates = .ok other) : s.Valid other := by
  rcases update.setValues set with ⟨update', epoch⟩
  have rules : other.rules = updated.rules := update'.rules.trans update.rules.symm
  have sources : other.values.sources = updated.values.sources :=
    update'.sources.trans update.sources.symm
  have alphabet : other.alphabet = updated.alphabet := update'.alphabet.trans update.alphabet.symm
  refine ⟨valid.nonempty, ?_, ?_⟩
  · rw [← valid.tokenized]
    simp only [Grammar.tokenize, alphabet]
  · rw [sentence_of_update rules sources, epoch]
    apply valid.inDate.revalued
    intro rule certain
    exact value_of_update sources update.evaluated update'.evaluated certain

namespace Engine

theorem weigh_of_found {string : Nat} {s : CorpusString} (found : e.corpus[string]? = some s)
    (cell : Cell) :
    e.weigh string cell =
      let demanded := (e.grammar.sentence s.tokens).demand
        ⟨s.tables.sync e.grammar.epoch, e.counters⟩ cell
      (demanded.1.1, ⟨e.grammar,
        e.corpus.setIfInBounds string { s with tables := demanded.2.tables },
        demanded.2.counters⟩) := by
  rcases e with ⟨grammar, corpus, counters⟩
  rcases s with ⟨text, tokens, tables⟩
  rcases Array.getElem?_eq_some_iff.mp found with ⟨here, item⟩
  simp only at here item
  simp only [weigh, Array.modifyM, dif_pos here, item, Array.setIfInBounds]
  rfl

theorem weigh_of_missing {string : Nat} (missing : e.corpus[string]? = none) (cell : Cell) :
    e.weigh string cell = (0.0, e) := by
  rcases e with ⟨grammar, corpus, counters⟩
  have beyond : ¬ string < corpus.size := by simpa using missing
  simp only [weigh, Array.modifyM, dif_neg beyond]
  rfl

theorem readStrings_eq_ok {strings : List String} {corpus : List CorpusString}
    (read : readStrings g strings = .ok corpus) :
    ∀ s ∈ corpus, s.text.isEmpty = false ∧ g.tokenize s.text = .ok s.tokens ∧ s.tables = {} := by
  induction strings generalizing corpus with
  | nil =>
    cases read
    simp
  | cons text rest ih =>
    unfold readStrings at read
    split at read
    · cases read
    · rename_i nonempty
      simp only [bind_eq_ok] at read
      rcases read with ⟨tokens, tokenized, others, later, made⟩
      cases made
      intro s member
      rcases List.mem_cons.mp member with rfl | other
      · exact ⟨by simpa using nonempty, tokenized, rfl⟩
      · exact ih later s other

namespace Consistent

/-- One step: the answer to a demand, and what the demand keeps. -/
theorem weigh (consistent : Consistent g e) (string : Nat) (cell : Cell) :
    Consistent g (e.weigh string cell).2 ∧
      ∀ s, e.corpus[string]? = some s →
        (e.weigh string cell).1 = ((e.grammar.sentence s.tokens).settled cell).1 := by
  cases found : e.corpus[string]? with
  | none =>
    rw [weigh_of_missing found]
    exact ⟨consistent, by simp⟩
  | some s =>
    have valid := consistent.corpus s (Array.mem_of_getElem? found)
    rcases valid.inDate.demand e.counters cell with ⟨answered, inDate⟩
    rw [weigh_of_found found]
    refine ⟨⟨consistent.grammar, ?_⟩, ?_⟩
    · intro other member
      rcases Array.mem_or_eq_of_mem_setIfInBounds member with old | rfl
      · exact consistent.corpus other old
      · exact ⟨valid.nonempty, valid.tokenized, inDate⟩
    · intro _ same
      cases same
      exact congrArg Prod.fst answered

theorem setCorpus (consistent : Consistent g e) (strings : List String) :
    Consistent g (e.setCorpus strings).2 := by
  unfold Engine.setCorpus
  split
  · exact consistent
  · rename_i corpus read
    refine ⟨consistent.grammar, fun s member => ?_⟩
    rcases readStrings_eq_ok read s (by simpa using member) with ⟨nonempty, tokenized, fresh⟩
    refine ⟨nonempty, tokenized, ?_⟩
    rw [fresh]
    exact InDate.empty _ _

theorem setValues (consistent : Consistent g e) (updates : List (Nat × Float)) :
    Consistent g (e.setValues updates).2 := by
  unfold Engine.setValues
  split
  · exact consistent
  · rename_i grammar set
    refine ⟨(consistent.grammar.setValues set).1, ?_⟩
    intro s member
    exact (consistent.corpus s member).setValues consistent.grammar set

theorem resetTables (consistent : Consistent g e) : Consistent g e.resetTables where
  grammar := consistent.grammar
  corpus s member := by
    rcases Array.mem_map.mp member with ⟨before, old, rfl⟩
    have valid := consistent.corpus before old
    exact ⟨valid.nonempty, valid.tokenized, valid.inDate.invalidate⟩

theorem after (consistent : Consistent g e) (session : List Request) :
    Consistent g (e.after session) :=
  keeps_after (P := Consistent g) (fun _ string cell holds => (holds.weigh string cell).1)
    (fun _ updates holds => holds.setValues updates) (fun _ holds => holds.resetTables)
    (fun _ strings holds => holds.setCorpus strings) consistent session

theorem checkSpan_eq {string : Nat} {s : CorpusString} (found : e.corpus[string]? = some s)
    (start stop nt : Nat) :
    e.checkSpan start stop string nt =
      if (e.grammar.sentence s.tokens).grid.Holds start stop nt then .ok ()
      else .error (.spanOutOfRange start stop nt string) := by
  simp only [checkSpan, length?, found]
  rfl

/-- An inside weight is the settled one, whatever the session was. -/
theorem inside_eq (consistent : Consistent g e) {string : Nat} {s : CorpusString}
    (found : e.corpus[string]? = some s) (start stop nt : Nat) :
    (e.inside start stop string nt).1 =
      if (e.grammar.sentence s.tokens).grid.Holds start stop nt then
        .ok ((e.grammar.sentence s.tokens).settled (.inside start stop nt)).1
      else .error (.spanOutOfRange start stop nt string) := by
  have answered := (consistent.weigh string (.inside start stop nt)).2 s found
  unfold Engine.inside
  rw [checkSpan_eq found]
  by_cases holds : (e.grammar.sentence s.tokens).grid.Holds start stop nt
  · simp only [if_pos holds, answered]
  · simp only [if_neg holds]

theorem outside_eq (consistent : Consistent g e) {string : Nat} {s : CorpusString}
    (found : e.corpus[string]? = some s) (start stop nt : Nat) :
    (e.outside start stop string nt).1 =
      if (e.grammar.sentence s.tokens).grid.Holds start stop nt then
        .ok ((e.grammar.sentence s.tokens).settled (.outside start stop nt)).1
      else .error (.spanOutOfRange start stop nt string) := by
  have answered := (consistent.weigh string (.outside start stop nt)).2 s found
  unfold Engine.outside
  rw [checkSpan_eq found]
  by_cases holds : (e.grammar.sentence s.tokens).grid.Holds start stop nt
  · simp only [if_pos holds, answered]
  · simp only [if_neg holds]

end Consistent

theorem consistent_ofGrammar {d : Declarations} (built : d.grammar = .ok g) :
    Consistent g (ofGrammar g) where
  grammar := Grammar.updateOf_self built
  corpus s member := by simp [ofGrammar] at member

end Engine

end StochasticGrammar
