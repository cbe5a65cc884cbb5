import StochasticGrammar.Proofs.Engine.Support

/-!
The objective has no memory. Whatever was asked of an engine before, its objective is that of its rules,
their present values and the texts of its corpus.
-/

namespace StochasticGrammar

namespace Grammar

/-- The probability of a text as a whole. -/
def textWeight (g : Grammar) (tokens : Array Nat) : Float :=
  ((g.sentence tokens).settled (.inside 0 (tokens.size - 1) g.rules.start)).1

def addLog (g : Grammar) (total : Float) (tokens : Array Nat) : Float :=
  total + naturalLog (g.textWeight tokens)

def objective (g : Grammar) (texts : List (Array Nat)) : Except Error Float :=
  g.verify.map fun _ => texts.foldl g.addLog 0.0

section

variable {g other : Grammar} (alphabet : g.alphabet = other.alphabet) (rules : g.rules = other.rules)
  (sources : g.values.sources = other.values.sources) (values : g.values.values = other.values.values)

include alphabet rules sources values in
theorem verify_congr : g.verify = other.verify := by
  have text : g.ruleText = other.ruleText := by
    funext index
    simp only [ruleText, productionText, literal?, source?, rules, alphabet, sources]
  have inconsistency : g.inconsistency? = other.inconsistency? := by
    funext values
    simp only [inconsistency?, badRule?, badSum?, ruleSum, text, rules]
    rfl
  rw [Grammar.verify, Grammar.verify, inconsistency, values]

include rules sources values in
theorem addLog_congr : g.addLog = other.addLog := by
  funext total tokens
  simp only [addLog, textWeight, sentence_congr rules sources values tokens, rules]

include alphabet rules sources values in
/-- Of a grammar the objective reads the rules, their texts and their values. -/
theorem objective_congr : g.objective = other.objective := by
  funext texts
  simp only [objective, verify_congr alphabet rules sources values, addLog_congr rules sources values]

end

end Grammar

namespace Engine

variable {g : Grammar} {e : Engine}

def texts (e : Engine) : List (Array Nat) := e.corpus.toList.map (·.tokens)

theorem tokens_setIfInBounds {corpus : Array CorpusString} {string : Nat} {s : CorpusString}
    (found : corpus[string]? = some s) (tables : Tables Float) :
    (corpus.setIfInBounds string { s with tables }).toList.map (·.tokens) = corpus.toList.map (·.tokens) := by
  rcases Array.getElem?_eq_some_iff.mp found with ⟨inside, rfl⟩
  rw [Array.toList_setIfInBounds, List.map_set]
  have listed : string < (corpus.toList.map (·.tokens)).length := by simpa
  have here : corpus[string].tokens = (corpus.toList.map (·.tokens))[string] := by simp
  rw [here]
  exact List.set_getElem_self _

theorem texts_weigh (e : Engine) (string : Nat) (cell : Cell) :
    (e.weigh string cell).2.texts = e.texts := by
  cases found : e.corpus[string]? with
  | none => rw [weigh_of_missing found]
  | some s =>
    rw [weigh_of_found found]
    exact tokens_setIfInBounds found _

section

variable {e' : Engine} (texts : e.texts = e'.texts)

include texts

theorem size_of_texts : e.corpus.size = e'.corpus.size := by
  simpa [Engine.texts] using congrArg List.length texts

/-- A string is there on both sides, with the same tokens, or on neither. -/
theorem string_cases (string : Nat) :
    (e.corpus[string]? = none ∧ e'.corpus[string]? = none) ∨
      ∃ s s', e.corpus[string]? = some s ∧ e'.corpus[string]? = some s' ∧ s.tokens = s'.tokens := by
  have same := congrArg (·[string]?) texts
  simp only [Engine.texts, List.getElem?_map, Array.getElem?_toList] at same
  cases here : e.corpus[string]? <;> cases there : e'.corpus[string]? <;> simp_all

theorem length_congr (string : Nat) : e.length? string = e'.length? string := by
  rcases string_cases texts string with ⟨here, there⟩ | ⟨s, s', here, there, tokens⟩
  · simp only [length?, here, there, size_of_texts texts]
  · simp only [length?, here, there, tokens]

theorem checkSpan_congr (rules : e.grammar.rules = e'.grammar.rules) (start stop string nt : Nat) :
    e.checkSpan start stop string nt = e'.checkSpan start stop string nt := by
  simp only [checkSpan, length_congr texts, rules]

end

theorem texts_resetTables (e : Engine) : e.resetTables.texts = e.texts := by
  simp [texts, resetTables, Function.comp_def]

/-- What questions keep. -/
structure Stays (g : Grammar) (grammar : Grammar) (texts : List (Array Nat)) (e : Engine) : Prop where
  consistent : Consistent g e
  grammar : e.grammar = grammar
  texts : e.texts = texts

theorem Stays.weigh {grammar : Grammar} {texts : List (Array Nat)} (e : Engine) (string : Nat) (cell : Cell)
    (stays : Stays g grammar texts e) : Stays g grammar texts (e.weigh string cell).2 where
  consistent := (stays.consistent.weigh string cell).1
  grammar := stays.grammar
  texts := (texts_weigh e string cell).trans stays.texts

namespace Consistent

theorem textWeight_eq (consistent : Consistent g e) (formed : g.rules.WellFormed) {string : Nat}
    {tokens : Array Nat} (present : e.texts[string]? = some tokens) :
    (e.stringProbability string).1 = .ok (e.grammar.textWeight tokens) := by
  rw [texts, List.getElem?_map, Array.getElem?_toList] at present
  rcases Option.map_eq_some_iff.mp present with ⟨s, found, rfl⟩
  rw [← consistent.grammar.rules] at formed
  exact (consistent.stringProbability_eq found formed).2

theorem sumLogs_eq (consistent : Consistent g e) (formed : g.rules.WellFormed) {strings : List Nat}
    {texts : List (Array Nat)} (total : Float)
    (present : List.Forall₂ (fun string tokens => e.texts[string]? = some tokens) strings texts) :
    (e.sumLogs total strings).1 = .ok (texts.foldl e.grammar.addLog total) := by
  induction strings generalizing e total texts with
  | nil =>
    cases present
    rfl
  | cons string rest ih =>
    rcases present with - | ⟨here, later⟩
    rename_i tokens others
    have weighed := consistent.textWeight_eq formed here
    have stays : Stays g e.grammar e.texts (e.stringProbability string).2 :=
      keeps_stringProbability Stays.weigh ⟨consistent, rfl, rfl⟩ string
    unfold sumLogs
    split
    · rename_i fault e' failed
      rw [failed] at weighed
      cases weighed
    · rename_i p e' answered
      rw [answered] at weighed stays
      cases weighed
      rw [← stays.texts] at later
      rw [ih stays.consistent _ later, stays.grammar]
      rfl

/-- Every string of the corpus has a probability, so that their logarithms can be added up. -/
theorem logLikelihood_eq (consistent : Consistent g e) (formed : g.rules.WellFormed) :
    e.logLikelihood.1 = .ok (e.texts.foldl e.grammar.addLog 0.0) := by
  have present : List.Forall₂ (fun string tokens => e.texts[string]? = some tokens)
      (List.range e.corpus.size) e.texts := by
    have length : e.texts.length = e.corpus.size := by simp [texts]
    rw [← length, List.forall₂_iff_get]
    exact ⟨List.length_range, fun string _ inside => by simp [inside]⟩
  exact consistent.sumLogs_eq formed 0.0 present

/-- The objective after any history. -/
theorem compute_eq (consistent : Consistent g e) (formed : g.rules.WellFormed) :
    e.compute.1 = e.grammar.objective e.texts := by
  have total := consistent.logLikelihood_eq formed
  unfold compute Grammar.objective
  cases e.grammar.verify with
  | error fault => rfl
  | ok _ => exact total

end Consistent

end Engine

end StochasticGrammar
