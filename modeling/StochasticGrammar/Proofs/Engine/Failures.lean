import StochasticGrammar.Proofs.Engine.Objective

/-!
What fails leaves no trace. A request that is answered by an error leaves the engine as it was, its
tables and its counters included, so that a session can be told without the requests that failed in it.
The log-likelihood is never among them, and the objective only where the rule values are no
probabilities.
-/

namespace StochasticGrammar

theorem Grammar.verify_eq_error {g : Grammar} {fault : Error} (rejected : g.verify = .error fault) :
    ∃ subject reason, fault = .probability subject reason := by
  unfold verify at rejected
  split at rejected
  · rename_i inconsistency found
    exact ⟨_, _, (Except.error.inj rejected).symm⟩
  · cases rejected

namespace Engine

variable {g : Grammar} {e : Engine}

/-- The requests of a session with their answers. -/
def transcript (e : Engine) : List Request → List (Request × Except Error Reply)
  | [] => []
  | request :: rest => (request, (e.answer request).1) :: (e.answer request).2.transcript rest

def succeeded (entry : Request × Except Error Reply) : Bool := entry.2.isOk

@[simp]
theorem succeeded_ok (request : Request) (reply : Reply) : succeeded (request, .ok reply) = true := rfl

@[simp]
theorem succeeded_error (request : Request) (fault : Error) :
    succeeded (request, .error fault) = false := rfl

section

variable {fault : Error}

theorem error_of_reply {α : Type} {f : α → Reply} {result : Except Error α × Engine}
    (failed : (reply f result).1 = .error fault) : result.1 = .error fault := by
  rcases result with ⟨reason | x, e⟩
  · cases failed
    rfl
  · cases failed

theorem setCorpus_of_error {strings : List String} (failed : (e.setCorpus strings).1 = .error fault) :
    (e.setCorpus strings).2 = e := by
  unfold setCorpus at failed ⊢
  split
  · rfl
  · rename_i corpus read
    rw [read] at failed
    cases failed

theorem setValues_of_error {updates : List (Nat × Float)}
    (failed : (e.setValues updates).1 = .error fault) : (e.setValues updates).2 = e := by
  unfold setValues at failed ⊢
  split
  · rfl
  · rename_i grammar set
    rw [set] at failed
    cases failed

theorem updateValues_of_error {values : List Float}
    (failed : (e.updateValues values).1 = .error fault) : (e.updateValues values).2 = e := by
  simp only [updateValues] at failed ⊢
  split
  · rename_i length
    rw [if_pos length] at failed
    exact setValues_of_error failed
  · rfl

theorem inside_of_error {start stop string nt : Nat}
    (failed : (e.inside start stop string nt).1 = .error fault) :
    (e.inside start stop string nt).2 = e := by
  unfold inside at failed ⊢
  split
  · rfl
  · rename_i holds
    rw [holds] at failed
    cases failed

theorem outside_of_error {start stop string nt : Nat}
    (failed : (e.outside start stop string nt).1 = .error fault) :
    (e.outside start stop string nt).2 = e := by
  unfold outside at failed ⊢
  split
  · rfl
  · rename_i holds
    rw [holds] at failed
    cases failed

theorem stringProbability_of_error {string : Nat}
    (failed : (e.stringProbability string).1 = .error fault) : (e.stringProbability string).2 = e := by
  unfold stringProbability at failed ⊢
  split
  · rfl
  · rename_i length present
    rw [present] at failed
    exact inside_of_error failed

end

namespace Consistent

variable (consistent : Consistent g e) (formed : g.rules.WellFormed) {fault : Error}

include consistent

theorem tokens_pos {s : CorpusString} (member : s ∈ e.corpus) : 0 < s.tokens.size :=
  Grammar.tokens_pos (consistent.corpus s member).nonempty (consistent.corpus s member).tokenized

include formed

theorem compute_eq_error : e.compute.1 = .error fault ↔ e.grammar.verify = .error fault := by
  have total := consistent.logLikelihood_eq formed
  unfold compute
  cases e.grammar.verify with
  | error reason => simp only [Except.error.injEq]
  | ok _ => simp only [total, reduceCtorEq]

theorem compute_of_error (failed : e.compute.1 = .error fault) : e.compute.2 = e := by
  have rejected := (consistent.compute_eq_error formed).mp failed
  simp only [compute, rejected]

/-- One step: a failed request leaves the engine as it was. -/
theorem answer_of_error {request : Request} (failed : (e.answer request).1 = .error fault) :
    (e.answer request).2 = e := by
  cases request with
  | setCorpus strings => exact setCorpus_of_error (error_of_reply failed)
  | setValues updates => exact setValues_of_error (error_of_reply failed)
  | updateValues values => exact updateValues_of_error (error_of_reply failed)
  | resetTables => cases failed
  | inside start stop string nt => exact inside_of_error (error_of_reply failed)
  | outside start stop string nt => exact outside_of_error (error_of_reply failed)
  | stringProbability string => exact stringProbability_of_error (error_of_reply failed)
  | logLikelihood =>
    have failed := error_of_reply failed
    rw [consistent.logLikelihood_eq formed] at failed
    cases failed
  | compute => exact consistent.compute_of_error formed (error_of_reply failed)
  | bestParse string => rfl

/-- A session without some of the requests that failed in it is answered as it was with them. -/
theorem transcript_without {session : List Request} {kept : List (Request × Except Error Reply)}
    (some : kept.Sublist (e.transcript session))
    (successes : kept.filter succeeded = (e.transcript session).filter succeeded) :
    e.transcript (kept.map (·.1)) = kept ∧ e.after (kept.map (·.1)) = e.after session := by
  induction session generalizing e kept with
  | nil =>
    cases some
    exact ⟨rfl, rfl⟩
  | cons request rest ih =>
    have next : Consistent g (e.answer request).2 := consistent.after [request]
    simp only [transcript] at some successes
    cases some with
    | cons _ some =>
      cases answered : (e.answer request).1 with
      | error fault =>
        have same := consistent.answer_of_error formed answered
        rw [answered, List.filter_cons_of_neg (by simp)] at successes
        rcases ih next some successes with ⟨told, left⟩
        rw [same] at told left
        exact ⟨told, by rw [left, Engine.after, Engine.after, List.foldl_cons, same]⟩
      | ok reply =>
        -- A success cannot be among the requests left out.
        rw [answered, List.filter_cons_of_pos (by simp)] at successes
        have fewer := (some.filter succeeded).length_le
        rw [successes, List.length_cons] at fewer
        exact absurd fewer (by omega)
    | cons_cons _ some =>
      rename_i kept
      have successes : kept.filter succeeded =
          ((e.answer request).2.transcript rest).filter succeeded := by
        simp only [List.filter_cons] at successes
        split at successes
        · exact (List.cons.inj successes).2
        · exact successes
      rcases ih next some successes with ⟨told, left⟩
      exact ⟨by rw [List.map_cons, transcript, told], left⟩

end Consistent

/-- Whatever fails, at whatever point of a session, can be left out of it. -/
theorem failures_leave_no_trace {d : Declarations} (built : d.grammar = .ok g) (session : List Request) :
    let e := (ofGrammar g).after session
    (∀ request fault, (e.answer request).1 = .error fault → (e.answer request).2 = e) ∧
      (∀ kept, kept.Sublist ((ofGrammar g).transcript session) →
        kept.filter succeeded = ((ofGrammar g).transcript session).filter succeeded →
          (ofGrammar g).transcript (kept.map (·.1)) = kept ∧ (ofGrammar g).after (kept.map (·.1)) = e) ∧
      (∃ total, e.logLikelihood.1 = .ok total) ∧ (∀ s ∈ e.corpus, 0 < s.tokens.size) ∧
      ∀ fault, (e.compute.1 = .error fault ↔ e.grammar.verify = .error fault) ∧
        (e.compute.1 = .error fault → ∃ subject reason, fault = .probability subject reason) := by
  intro e
  have fresh : Consistent g (ofGrammar g) := consistent_ofGrammar built
  have consistent : Consistent g e := fresh.after session
  have formed := Grammar.rules_wellFormed built
  refine ⟨fun _ _ => consistent.answer_of_error formed, fun _ => fresh.transcript_without formed,
    ⟨_, consistent.logLikelihood_eq formed⟩, fun _ => consistent.tokens_pos, fun fault => ?_⟩
  refine ⟨consistent.compute_eq_error formed, fun failed => ?_⟩
  exact Grammar.verify_eq_error ((consistent.compute_eq_error formed).mp failed)

/-- A corpus with an empty string at its end, a span beyond the string and an update that ends with an
unknown parameter. -/
theorem sample_failures_leave_no_trace :
    let e := ofGrammar (Declarations.sampleGrammar 0.25)
    let failing := [.setCorpus ["aab", ""], .outside 0 3 0 0, .setValues [(0, 0.5), (7, 0.5)]]
    let session := .setCorpus ["aab"] :: failing ++ [.inside 0 2 0 0]
    ∃ x, (e.transcript session).map (·.2) = [.ok .done, .error (.tokenization "" 0),
        .error (.spanOutOfRange 0 3 0 0), .error (.parameter (.unknownIndex 7)), .ok (.weight x)] ∧
      (e.transcript [.setCorpus ["aab"], .inside 0 2 0 0]).map (·.2) = [.ok .done, .ok (.weight x)] ∧
      e.after [.setCorpus ["aab"], .inside 0 2 0 0] = e.after session := by
  intro e failing session
  let loaded : Engine := ⟨Declarations.sampleGrammar 0.25, #[{ text := "aab", tokens := #[0, 0, 1] }], {}⟩
  have load : e.answer (.setCorpus ["aab"]) = (.ok .done, loaded) := by
    simp only [answer, reply, e, setCorpus_single (by decide) (sample_tokenize 0.25)]
    rfl
  have empty : loaded.answer (.setCorpus ["aab", ""]) = (.error (.tokenization "" 0), loaded) := by
    simp [answer, reply, setCorpus, readStrings, loaded, sample_tokenize, bind, Except.bind, Except.map]
  have beyond : loaded.answer (.outside 0 3 0 0) = (.error (.spanOutOfRange 0 3 0 0), loaded) := rfl
  have unknown : loaded.answer (.setValues [(0, 0.5), (7, 0.5)]) =
      (.error (.parameter (.unknownIndex 7)), loaded) := by
    have fault : (Declarations.sample 0.25).parameters.fault? [(0, 0.5), (7, 0.5)] =
        some (.unknownIndex 7) := by decide +kernel
    have set : (Declarations.sample 0.25).parameters.setValues [(0, 0.5), (7, 0.5)] =
        .error (.unknownIndex 7) := by rw [Parameters.setValues, fault]
    have rejected : (Declarations.sampleStages 0.25).values.setValues [(0, 0.5), (7, 0.5)] =
        .error (.parameter (.unknownIndex 7)) := by
      rw [RuleValues.setValues]
      simp only [Declarations.sampleStages, set]
    have refused : loaded.grammar.setValues [(0, 0.5), (7, 0.5)] =
        .error (.parameter (.unknownIndex 7)) := by
      rw [Grammar.setValues]
      simp only [loaded, Declarations.sampleGrammar, Declarations.Stages.grammar, rejected]
      rfl
    simp only [answer, reply, Engine.setValues, refused]
    rfl
  have asked : (loaded.answer (.inside 0 2 0 0)).1 =
    .ok (.weight (loaded.weigh 0 (.inside 0 2 0)).1) := rfl
  have told : e.transcript session = [(.setCorpus ["aab"], .ok .done),
      (.setCorpus ["aab", ""], .error (.tokenization "" 0)),
      (.outside 0 3 0 0, .error (.spanOutOfRange 0 3 0 0)),
      (.setValues [(0, 0.5), (7, 0.5)], .error (.parameter (.unknownIndex 7))),
      (.inside 0 2 0 0, .ok (.weight (loaded.weigh 0 (.inside 0 2 0)).1))] := by
    simp only [session, failing, List.cons_append, List.nil_append, transcript, load, empty, beyond, unknown,
      asked]
  obtain ⟨-, without, -⟩ := failures_leave_no_trace (Declarations.sample_grammar 0.25) session
  rw [told] at without
  obtain ⟨shorter, left⟩ := without [(.setCorpus ["aab"], .ok .done),
    (.inside 0 2 0 0, .ok (.weight (loaded.weigh 0 (.inside 0 2 0)).1))] (by simp) rfl
  exact ⟨_, by rw [told]; rfl, congrArg (List.map (·.2)) shorter, left⟩

end Engine

end StochasticGrammar
