import StochasticGrammar.Proofs.Engine.Failures
import StochasticGrammar.Proofs.Engine.Training
import StochasticGrammar.Proofs.Grammar.Unread

/-!
No answer shows the parameters that no formula reads. Two engines of one grammar with the same texts
that agree in all other parameters answer every session in the same way, whatever went before, and
texts drawn from their grammars at random are the same.
-/

namespace StochasticGrammar

open Parameters (Twins)

theorem Grammar.spawn_congr {g other : Grammar} (alphabet : g.alphabet = other.alphabet)
    (rules : g.rules = other.rules) (sources : g.values.sources = other.values.sources)
    (values : g.values.values = other.values.values) {σ : Type} [RandomSource σ] (root limit : Option Nat)
    (source : σ) : g.spawn root limit source = other.spawn root limit source := by
  have weighted : g.weighted = other.weighted :=
    congrArg Sentence.toWeightedRules (sentence_congr rules sources values #[])
  have spell : g.spell = other.spell := by
    funext tokens
    simp only [spell, literal?, alphabet]
  simp only [spawn, weighted, spell]

theorem Grammar.setValues_cases {g : Grammar} (evaluated : g.values.Evaluated) (updates : List (Nat × Float)) :
    match g.parameters.setValues updates with
    | .ok ps => ∃ next, g.setValues updates = .ok next ∧ next.parameters = ps
    | .error fault => g.setValues updates = .error (.parameter fault) := by
  have cases := evaluated.change_cases updates
  change match g.values.parameters.setValues updates with | .ok _ => _ | .error _ => _
  cases made : g.values.parameters.setValues updates with
  | error fault =>
    simp only [made] at cases
    simp only [Grammar.setValues, cases.1]
    rfl
  | ok ps =>
    simp only [made] at cases
    rcases cases with ⟨values, set, -, parameters, -⟩
    exact ⟨{ g with values }, by simp only [Grammar.setValues, set], parameters⟩

namespace Engine

variable {g : Grammar} {e e' : Engine}

theorem readStrings_congr {g other : Grammar} (alphabet : g.alphabet = other.alphabet) (strings : List String) :
    readStrings g strings = readStrings other strings := by
  induction strings with
  | nil => rfl
  | cons text rest ih => simp only [readStrings, Grammar.tokenize, alphabet, ih]

/-- Engines of one grammar that differ in what they keep and in parameters that are not used. -/
structure Twinned (g : Grammar) (e e' : Engine) : Prop where
  left : Consistent g e
  right : Consistent g e'
  used : e.grammar.used = g.used
  used' : e'.grammar.used = g.used
  texts : e.texts = e'.texts
  parameters : Twins g.used e.grammar.parameters e'.grammar.parameters

namespace Twinned

theorem symm (twinned : Twinned g e e') : Twinned g e' e where
  left := twinned.right
  right := twinned.left
  used := twinned.used'
  used' := twinned.used
  texts := twinned.texts.symm
  parameters := twinned.parameters.symm

variable (twinned : Twinned g e e')

include twinned

theorem alphabet : e.grammar.alphabet = e'.grammar.alphabet :=
  twinned.left.grammar.alphabet.trans twinned.right.grammar.alphabet.symm

theorem rules : e.grammar.rules = e'.grammar.rules :=
  twinned.left.grammar.rules.trans twinned.right.grammar.rules.symm

theorem sources : e.grammar.values.sources = e'.grammar.values.sources :=
  twinned.left.grammar.sources.trans twinned.right.grammar.sources.symm

theorem weigh (string : Nat) (cell : Cell) : Twinned g (e.weigh string cell).2 e' where
  left := (twinned.left.weigh string cell).1
  right := twinned.right
  used := twinned.used
  used' := twinned.used'
  texts := (texts_weigh e string cell).trans twinned.texts
  parameters := twinned.parameters

/-- Questions are asked of both or of one. -/
theorem asked {request : Request} (asks : request.asks = true) :
    Twinned g (e.answer request).2 (e'.answer request).2 := by
  have first : Twinned g (e.answer request).2 e' :=
    keeps_asking (P := fun t => Twinned g t e') (fun _ string cell holds => holds.weigh string cell) asks twinned
  exact keeps_asking (P := fun t => Twinned g (e.answer request).2 t)
    (fun _ string cell holds => (holds.symm.weigh string cell).symm) asks first

theorem setCorpus (strings : List String) : (e.setCorpus strings).1 = (e'.setCorpus strings).1 ∧
    Twinned g (e.setCorpus strings).2 (e'.setCorpus strings).2 := by
  have read := readStrings_congr twinned.alphabet strings
  have left := twinned.left.setCorpus strings
  have right := twinned.right.setCorpus strings
  unfold Engine.setCorpus at left right ⊢
  rw [← read] at right ⊢
  cases result : readStrings e.grammar strings with
  | error fault => exact ⟨rfl, twinned⟩
  | ok corpus =>
    simp only [result] at left right
    exact ⟨rfl, left, right, twinned.used, twinned.used', rfl, twinned.parameters⟩

/-- One step: an update is rejected for the same reason or accepted on both sides. -/
theorem setValues (updates : List (Nat × Float)) : (e.setValues updates).1 = (e'.setValues updates).1 ∧
    Twinned g (e.setValues updates).2 (e'.setValues updates).2 := by
  have left := twinned.left.setValues updates
  have right := twinned.right.setValues updates
  have both := twinned.parameters.setValues updates
  have cases := Grammar.setValues_cases twinned.left.grammar.evaluated updates
  have cases' := Grammar.setValues_cases twinned.right.grammar.evaluated updates
  unfold Engine.setValues at left right ⊢
  cases made : e.grammar.parameters.setValues updates with
  | error fault =>
    cases made' : e'.grammar.parameters.setValues updates with
    | error fault' =>
      simp only [made, made'] at both cases cases'
      simp only [cases, cases', both]
      exact ⟨trivial, twinned⟩
    | ok ps' => simp only [made, made'] at both
  | ok ps =>
    cases made' : e'.grammar.parameters.setValues updates with
    | error fault' => simp only [made, made'] at both
    | ok ps' =>
      simp only [made, made'] at both cases cases'
      rcases cases with ⟨next, set, rfl⟩
      rcases cases' with ⟨next', set', rfl⟩
      simp only [set, set'] at left right ⊢
      exact ⟨trivial, left, right, (Grammar.setValues_keeps set).1.trans twinned.used,
        (Grammar.setValues_keeps set').1.trans twinned.used', twinned.texts, both⟩

theorem updateValues (values : List Float) : (e.updateValues values).1 = (e'.updateValues values).1 ∧
    Twinned g (e.updateValues values).2 (e'.updateValues values).2 := by
  simp only [Engine.updateValues, twinned.used, twinned.used']
  split
  · exact twinned.setValues _
  · exact ⟨rfl, twinned⟩

theorem resetTables : Twinned g e.resetTables e'.resetTables where
  left := twinned.left.resetTables
  right := twinned.right.resetTables
  used := twinned.used
  used' := twinned.used'
  texts := by rw [texts_resetTables, texts_resetTables, twinned.texts]
  parameters := twinned.parameters

section

variable {d : Declarations} (built : d.grammar = .ok g)

include built

theorem values : e.grammar.values.values = e'.grammar.values.values :=
  Grammar.values_of_used built twinned.left.grammar twinned.right.grammar twinned.parameters.values

theorem sentence (tokens : Array Nat) : e.grammar.sentence tokens = e'.grammar.sentence tokens :=
  sentence_congr twinned.rules twinned.sources (twinned.values built) tokens

theorem weighed (string : Nat) (cell : Cell) : (e.weigh string cell).1 = (e'.weigh string cell).1 := by
  rcases string_cases twinned.texts string with ⟨here, there⟩ | ⟨s, s', here, there, tokens⟩
  · rw [weigh_of_missing here, weigh_of_missing there]
  · rw [(twinned.left.weigh string cell).2 s here, (twinned.right.weigh string cell).2 s' there, tokens,
      twinned.sentence built]

theorem inside (start stop string nt : Nat) :
    (e.inside start stop string nt).1 = (e'.inside start stop string nt).1 := by
  unfold Engine.inside
  rw [checkSpan_congr twinned.texts twinned.rules]
  split
  · rfl
  · exact congrArg Except.ok (twinned.weighed built string _)

theorem outside (start stop string nt : Nat) :
    (e.outside start stop string nt).1 = (e'.outside start stop string nt).1 := by
  unfold Engine.outside
  rw [checkSpan_congr twinned.texts twinned.rules]
  split
  · rfl
  · exact congrArg Except.ok (twinned.weighed built string _)

theorem stringProbability (string : Nat) :
    (e.stringProbability string).1 = (e'.stringProbability string).1 := by
  unfold Engine.stringProbability
  rw [length_congr twinned.texts, twinned.rules]
  split
  · rfl
  · exact twinned.inside built _ _ _ _

theorem logLikelihood : e.logLikelihood.1 = e'.logLikelihood.1 := by
  have formed := Grammar.rules_wellFormed built
  rw [twinned.left.logLikelihood_eq formed, twinned.right.logLikelihood_eq formed, twinned.texts,
    Grammar.addLog_congr twinned.rules twinned.sources (twinned.values built)]

theorem verify : e.grammar.verify = e'.grammar.verify :=
  Grammar.verify_congr twinned.alphabet twinned.rules twinned.sources (twinned.values built)

theorem compute : e.compute.1 = e'.compute.1 := by
  have formed := Grammar.rules_wellFormed built
  rw [twinned.left.compute_eq formed, twinned.right.compute_eq formed, twinned.texts,
    Grammar.objective_congr twinned.alphabet twinned.rules twinned.sources (twinned.values built)]

theorem bestParse (string : Nat) : e.bestParse string = e'.bestParse string := by
  rcases string_cases twinned.texts string with ⟨here, there⟩ | ⟨s, s', here, there, tokens⟩
  · simp only [Engine.bestParse, here, there, size_of_texts twinned.texts]
  · simp only [Engine.bestParse, here, there, Grammar.bestParse_eq, tokens, twinned.sentence built]

/-- One step: the same answer, after which the engines are still alike. -/
theorem answer (request : Request) : (e.answer request).1 = (e'.answer request).1 ∧
    Twinned g (e.answer request).2 (e'.answer request).2 := by
  have same {α : Type} (f : α → Reply) {result result' : Except Error α × Engine}
      (answers : result.1 = result'.1) : (reply f result).1 = (reply f result').1 :=
    congrArg (Except.map f) answers
  cases request with
  | setCorpus strings =>
    have both := twinned.setCorpus strings
    exact ⟨same _ both.1, both.2⟩
  | setValues updates =>
    have both := twinned.setValues updates
    exact ⟨same _ both.1, both.2⟩
  | updateValues values =>
    have both := twinned.updateValues values
    exact ⟨same _ both.1, both.2⟩
  | resetTables => exact ⟨rfl, twinned.resetTables⟩
  | inside start stop string nt =>
    exact ⟨same _ (twinned.inside built start stop string nt), twinned.asked rfl⟩
  | outside start stop string nt =>
    exact ⟨same _ (twinned.outside built start stop string nt), twinned.asked rfl⟩
  | stringProbability string => exact ⟨same _ (twinned.stringProbability built string), twinned.asked rfl⟩
  | logLikelihood => exact ⟨same _ (twinned.logLikelihood built), twinned.asked rfl⟩
  | compute => exact ⟨same _ (twinned.compute built), twinned.asked rfl⟩
  | bestParse string => exact ⟨congrArg (Except.map _) (twinned.bestParse built string), twinned⟩

theorem transcript (session : List Request) : e.transcript session = e'.transcript session := by
  induction session generalizing e e' with
  | nil => rfl
  | cons request rest ih =>
    rcases twinned.answer built request with ⟨same, next⟩
    rw [Engine.transcript, Engine.transcript, same, ih next]

end

end Twinned

theorem texts_setValues (e : Engine) (updates : List (Nat × Float)) : (e.setValues updates).2.texts = e.texts := by
  unfold setValues
  split <;> rfl

theorem after_setValues (e : Engine) (session : List Request) (updates : List (Nat × Float)) :
    e.after (session ++ [.setValues updates]) = ((e.after session).setValues updates).2 := by
  rw [Engine.after, List.foldl_append]
  rfl

/-- What an update does not name stays. -/
theorem get?_setValues {updates : List (Nat × Float)} {id : Nat} (other : ∀ update ∈ updates, update.1 ≠ id) :
    (e.setValues updates).2.grammar.parameters.get? id = e.grammar.parameters.get? id := by
  unfold setValues
  split
  · rfl
  · rename_i grammar set
    have unnamed : id ∉ updates.map (·.1) := by
      intro listed
      rcases List.mem_map.mp listed with ⟨update, member, same⟩
      exact other update member same
    simp only [Parameters.get?, (Grammar.setValues_keeps set).2]
    exact Parameters.getElem?_assign_of_not_mem unnamed

theorem declared_setValues (e : Engine) (updates : List (Nat × Float)) :
    (e.setValues updates).2.grammar.parameters.declared = e.grammar.parameters.declared := by
  unfold setValues
  split
  · rfl
  · rename_i grammar set
    exact Parameters.declared_of_assign (Grammar.setValues_keeps set).2

theorem declared_after (g : Grammar) (session : List Request) :
    ((ofGrammar g).after session).grammar.parameters.declared = g.parameters.declared := by
  apply keeps_after (P := fun e => e.grammar.parameters.declared = g.parameters.declared)
    (fun _ _ _ same => same) (fun e updates same => (declared_setValues e updates).trans same) (fun _ same => same)
  · intro e strings same
    unfold setCorpus
    split
    · exact same
    · exact same
  · rfl

theorem twinned_setValues (consistent : Consistent g e) (used : e.grammar.used = g.used)
    {updates : List (Nat × Float)} (unused : ∀ update ∈ updates, update.1 ∉ g.used) :
    Twinned g (e.setValues updates).2 e where
  left := consistent.setValues updates
  right := consistent
  used := by
    unfold setValues
    split
    · exact used
    · rename_i grammar set
      exact (Grammar.setValues_keeps set).1.trans used
  used' := used
  texts := texts_setValues e updates
  parameters := by
    refine ⟨declared_setValues e updates, fun id listed => ?_⟩
    rw [get?_setValues fun update member same => unused update member (same ▸ listed)]

/-- Two histories of a grammar, such as two assignments of its parameters, after which the texts are the
same and the parameters agree as far as they are used. The last part is about an assignment of others. -/
theorem unread_parameters_stay_unseen {d : Declarations} (built : d.grammar = .ok g)
    (session session' : List Request)
    (texts : ((ofGrammar g).after session).texts = ((ofGrammar g).after session').texts)
    (agree : ∀ id ∈ g.used, (((ofGrammar g).after session).grammar.parameters.get? id).map (·.value) =
      (((ofGrammar g).after session').grammar.parameters.get? id).map (·.value)) :
    let e := (ofGrammar g).after session
    let e' := (ofGrammar g).after session'
    e.grammar.values.values = e'.grammar.values.values ∧ e.grammar.verify = e'.grammar.verify ∧
      (∀ {σ : Type} [RandomSource σ] (root limit : Option Nat) (source : σ),
        e.grammar.spawn root limit source = e'.grammar.spawn root limit source) ∧
      (∀ later, e.transcript later = e'.transcript later) ∧
      ∀ updates next, e.setValues updates = (.ok (), next) → (∀ update ∈ updates, update.1 ∉ g.used) →
        next.grammar.epoch = e.grammar.epoch + 1 ∧
          (∀ s ∈ next.corpus, ∀ cell answer, (next.grammar.sentence s.tokens).Within cell →
            (next.grammar.sentence s.tokens).known? (s.tables.sync next.grammar.epoch) cell = some answer →
              answer = (1, true)) ∧
          ∀ later, next.transcript later = e.transcript later := by
  intro e e'
  have left : Consistent g e := (consistent_ofGrammar built).after session
  have right : Consistent g e' := (consistent_ofGrammar built).after session'
  have declared : e.grammar.parameters.declared = e'.grammar.parameters.declared :=
    (declared_after g session).trans (declared_after g session').symm
  have twinned : Twinned g e e' :=
    ⟨left, right, used_after g session, used_after g session', texts, declared, agree⟩
  refine ⟨twinned.values built, twinned.verify built, fun root limit source => ?_,
    twinned.transcript built, fun updates next updated unused => ?_⟩
  · exact Grammar.spawn_congr twinned.alphabet twinned.rules twinned.sources (twinned.values built) root limit
      source
  · have twinned' : Twinned g (e.setValues updates).2 e := twinned_setValues left twinned.used unused
    rw [updated] at twinned'
    unfold setValues at updated
    split at updated
    · cases updated
    · rename_i grammar set
      have epoch := (left.grammar.setValues set).2
      cases updated
      refine ⟨epoch, fun s member cell answer within known => ?_, twinned'.transcript built⟩
      -- The tables were filled at an earlier epoch, so that they are invalidated before they are read.
      rcases (left.corpus s member).inDate.past with ⟨filled, stamped, past⟩
      have earlier : filled ≠ some grammar.epoch := by
        intro same
        have before := past grammar.epoch same
        omega
      rw [known_sync_of_ne stamped earlier] at known
      exact (known_invalidate within known).1

/-- The letter of the formula comes first, and no formula has the other one. -/
def spare : Parameters := ⟨#[⟨"p", 0.25, 0, 1⟩, ⟨"q", 0.5, 0, 1⟩], 2⟩

theorem spare_grammar : (Declarations.letter spare).grammar = .ok (Declarations.letterGrammar spare 0.25) :=
  Declarations.letter_grammar (by simp [Parameters.id?, spare, List.findIdx?_cons])
    (by simp [Parameters.value?, spare])

theorem spare_asked : ((ofGrammar (Declarations.letterGrammar spare 0.25)).after
    [.setCorpus ["a"], .inside 0 0 0 0]).grammar = Declarations.letterGrammar spare 0.25 := by
  have read : ((ofGrammar (Declarations.letterGrammar spare 0.25)).setCorpus ["a"]).2.grammar =
      Declarations.letterGrammar spare 0.25 := by
    unfold setCorpus
    split <;> rfl
  exact keeps_inside (P := fun t => t.grammar = Declarations.letterGrammar spare 0.25) (fun _ _ _ same => same)
    read 0 0 0 0

/-- After a question the second parameter moves, which no formula mentions. -/
theorem spare_parameter_stays_unseen :
    let session := [Request.setCorpus ["a"], .inside 0 0 0 0]
    let e := (ofGrammar (Declarations.letterGrammar spare 0.25)).after session
    ∃ next, e.setValues [(1, 0.75)] = (.ok (), next) ∧
      e.grammar.parameters.get? 1 = some ⟨"q", 0.5, 0, 1⟩ ∧
      next.grammar.parameters.get? 1 = some ⟨"q", 0.75, 0, 1⟩ ∧ next.grammar.epoch = e.grammar.epoch + 1 ∧
        ∀ later, next.transcript later = e.transcript later := by
  intro session e
  have consistent : Consistent _ e := (consistent_ofGrammar spare_grammar).after session
  have parameters : e.grammar.parameters = spare := congrArg Grammar.parameters spare_asked
  have accepted : spare.fault? [(1, 0.75)] = none := rfl
  have cases := Grammar.setValues_cases consistent.grammar.evaluated [(1, 0.75)]
  simp only [parameters, Parameters.setValues, accepted] at cases
  rcases cases with ⟨grammar, set, moved⟩
  have updated : e.setValues [(1, 0.75)] = (.ok (), { e with grammar }) := by simp only [setValues, set]
  have unused : ∀ update ∈ [((1 : Nat), (0.75 : Float))],
      update.1 ∉ (Declarations.letterGrammar spare 0.25).used := by decide +kernel
  have texts : ((ofGrammar (Declarations.letterGrammar spare 0.25)).after (session ++ [.setValues [(1, 0.75)]])).texts =
      e.texts := by rw [after_setValues, texts_setValues]
  have unseen := unread_parameters_stay_unseen spare_grammar (session ++ [.setValues [(1, 0.75)]]) session texts
    fun id listed => by
      rw [after_setValues, get?_setValues fun update member same => unused update member (same ▸ listed)]
  rw [after_setValues, updated] at unseen
  refine ⟨_, updated, ?_, ?_, (consistent.grammar.setValues set).2, unseen.2.2.2.1⟩
  · rw [parameters]
    rfl
  · rw [moved]
    rfl

end Engine

end StochasticGrammar
