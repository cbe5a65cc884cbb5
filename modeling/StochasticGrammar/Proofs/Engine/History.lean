import StochasticGrammar.Proofs.Engine.Consistent

/-!
Answers do not depend on how an engine came to its present values. Whatever a session asked and
changed, each weight is the one that a new engine gives, whose grammar is declared with the present
values of the parameters and whose corpus is the string in question.
-/

namespace StochasticGrammar

/-- An error about the only string of a corpus, put in terms of a string with the given number. -/
def Error.inString (string : Nat) : Error → Error
  | spanOutOfRange start stop nt _ => spanOutOfRange start stop nt string
  | fault => fault

theorem sample_tokenize (value : Float) :
    (Declarations.sampleGrammar value).tokenize "aab" = .ok #[0, 0, 1] := by
  have tokens : Lexicon.tokenize ⟨Declarations.sampleForest, 2⟩ "aab" = .ok #[0, 0, 1] := by cbv
  simp [Grammar.tokenize, Declarations.sampleGrammar, Declarations.Stages.grammar,
    Declarations.sampleStages, tokens]

theorem sample_tokenize_short (value : Float) :
    (Declarations.sampleGrammar value).tokenize "ab" = .ok #[0, 1] := by
  have tokens : Lexicon.tokenize ⟨Declarations.sampleForest, 2⟩ "ab" = .ok #[0, 1] := by cbv
  simp [Grammar.tokenize, Declarations.sampleGrammar, Declarations.Stages.grammar,
    Declarations.sampleStages, tokens]

namespace Engine

theorem size_weigh (e : Engine) (string : Nat) (cell : Cell) :
    (e.weigh string cell).2.corpus.size = e.corpus.size := by
  cases found : e.corpus[string]? with
  | none => rw [weigh_of_missing found]
  | some s =>
    rw [weigh_of_found found]
    exact Array.size_setIfInBounds

theorem size_setValues (e : Engine) (updates : List (Nat × Float)) :
    (e.setValues updates).2.corpus.size = e.corpus.size := by
  unfold setValues
  split <;> rfl

/-- The corpus has as many strings as it was set to have. -/
theorem size_answer (e : Engine) {request : Request}
    (other : ∀ strings, request ≠ .setCorpus strings) :
    (e.answer request).2.corpus.size = e.corpus.size := by
  apply keeps_answer_of_corpus (P := fun after => after.corpus.size = e.corpus.size)
  · intro before string cell same
    rw [size_weigh, same]
  · intro before updates same
    rw [size_setValues, same]
  · intro before same
    rw [resetTables, Array.size_map, same]
  · rfl
  · intro strings same
    exact absurd same (other strings)

theorem setCorpus_single {g : Grammar} {text : String} {tokens : Array Nat}
    (nonempty : text.isEmpty = false) (tokenized : g.tokenize text = .ok tokens) :
    (ofGrammar g).setCorpus [text] =
      (.ok (), { grammar := g, corpus := #[{ text, tokens }] }) := by
  simp [setCorpus, readStrings, ofGrammar, nonempty, tokenized, bind, Except.bind, pure, Except.pure]

theorem answers_forget_history {d : Declarations} {g : Grammar} (built : d.grammar = .ok g)
    (session : List Request) {string : Nat} {s : CorpusString}
    (present : ((ofGrammar g).after session).corpus[string]? = some s) {ps : Parameters}
    (same : ps.entries = ((ofGrammar g).after session).grammar.parameters.entries) :
    ∃ g' fresh, Declarations.grammar { d with parameters := ps } = .ok g' ∧
      (ofGrammar g').setCorpus [s.text] = (.ok (), fresh) ∧
      ∀ start stop nt,
        (((ofGrammar g).after session).inside start stop string nt).1 =
            (fresh.inside start stop 0 nt).1.mapError (Error.inString string) ∧
          (((ofGrammar g).after session).outside start stop string nt).1 =
            (fresh.outside start stop 0 nt).1.mapError (Error.inString string) := by
  have consistent := (consistent_ofGrammar built).after session
  have valid := consistent.corpus s (Array.mem_of_getElem? present)
  generalize (ofGrammar g).after session = e at *
  obtain ⟨g', built', update', alphabet, rules, sources, values⟩ :=
    Grammar.redeclared built consistent.grammar same
  have tokenized : g'.tokenize s.text = .ok s.tokens := by
    rw [← valid.tokenized]
    simp only [Grammar.tokenize, alphabet]
  have fresh := setCorpus_single valid.nonempty tokenized
  have consistent' := (consistent_ofGrammar built').setCorpus [s.text]
  rw [fresh] at consistent'
  refine ⟨g', _, built', fresh, fun start stop nt => ?_⟩
  have sentence : g'.sentence s.tokens = e.grammar.sentence s.tokens := by
    have certain : g'.values.isCertain = e.grammar.values.isCertain := by
      funext rule
      simp only [RuleValues.isCertain, sources]
    have value : g'.values.value = e.grammar.values.value := by
      funext rule
      simp only [RuleValues.value, values]
    simp only [Grammar.sentence, Grammar.weighted, rules, certain, value]
  have found : (#[({ text := s.text, tokens := s.tokens } : CorpusString)])[0]? =
      some { text := s.text, tokens := s.tokens } := rfl
  rw [consistent.inside_eq present, consistent.outside_eq present, consistent'.inside_eq found,
    consistent'.outside_eq found]
  simp only [sentence]
  constructor
  · split <;> rfl
  · split <;> rfl

/-- After a demand, an update and a reset, at the values of a registry without a history. -/
theorem sample_answers_forget_history :
    let g := Declarations.sampleGrammar 0.25
    let session := [Request.setCorpus ["aab"], .inside 0 2 0 0, .setValues [(0, 0.5)], .resetTables]
    let e := (ofGrammar g).after session
    ∃ s g' fresh, e.corpus[0]? = some s ∧
      Declarations.grammar { Declarations.sample 0.25 with
        parameters := ⟨e.grammar.parameters.entries, 0⟩ } = .ok g' ∧
      (ofGrammar g').setCorpus [s.text] = (.ok (), fresh) ∧
      ∀ start stop nt,
        (e.inside start stop 0 nt).1 =
            (fresh.inside start stop 0 nt).1.mapError (Error.inString 0) ∧
          (e.outside start stop 0 nt).1 =
            (fresh.outside start stop 0 nt).1.mapError (Error.inString 0) := by
  intro g session e
  have corpus : e.corpus.size = 1 := by
    simp only [e, session, Engine.after, List.foldl_cons, List.foldl_nil]
    rw [size_answer _ (by simp), size_answer _ (by simp), size_answer _ (by simp)]
    simp only [answer, reply]
    rw [setCorpus_single (by decide) (sample_tokenize 0.25)]
    rfl
  have present : e.corpus[0]? = some e.corpus[0] := by simp [corpus]
  have same : (Parameters.mk e.grammar.parameters.entries 0).entries =
      e.grammar.parameters.entries := rfl
  obtain ⟨g', fresh, declared, read, answers⟩ :=
    answers_forget_history (Declarations.sample_grammar 0.25) session present same
  exact ⟨_, g', fresh, present, declared, read, answers⟩

end Engine

end StochasticGrammar
