import StochasticGrammar.Session

/-!
What sessions keep. A question changes an engine by nothing but weighing cells, so that what the
weighing of a cell keeps is kept by every question; what updates, resets and new corpora keep as well
is kept by every session.
-/

namespace StochasticGrammar

/-- Requests that leave the grammar, the corpus and the epoch alone. -/
def Request.asks : Request → Bool
  | .setCorpus _ | .setValues _ | .updateValues _ | .resetTables => false
  | _ => true

namespace Engine

variable {P : Engine → Prop} {e : Engine}

section

variable (weigh : ∀ e string cell, P e → P (weigh string cell e).2)

include weigh

theorem keeps_inside (holds : P e) (start stop string nt : Nat) :
    P (e.inside start stop string nt).2 := by
  unfold Engine.inside
  split
  · exact holds
  · exact weigh e string _ holds

theorem keeps_outside (holds : P e) (start stop string nt : Nat) :
    P (e.outside start stop string nt).2 := by
  unfold Engine.outside
  split
  · exact holds
  · exact weigh e string _ holds

theorem keeps_stringProbability (holds : P e) (string : Nat) : P (e.stringProbability string).2 := by
  unfold stringProbability
  split
  · exact holds
  · exact keeps_inside weigh holds _ _ _ _

theorem keeps_sumLogs (holds : P e) (total : Float) (strings : List Nat) :
    P (e.sumLogs total strings).2 := by
  induction strings generalizing e total with
  | nil => exact holds
  | cons string rest ih =>
    have after := keeps_stringProbability weigh holds string
    unfold sumLogs
    split
    · rename_i fault e' weighed
      rwa [weighed] at after
    · rename_i p e' weighed
      rw [weighed] at after
      exact ih after _

theorem keeps_compute (holds : P e) : P e.compute.2 := by
  unfold compute
  split
  · exact holds
  · exact keeps_sumLogs weigh holds _ _

theorem keeps_asking {request : Request} (asks : request.asks = true) (holds : P e) :
    P (e.answer request).2 := by
  cases request with
  | setCorpus _ => cases asks
  | setValues _ => cases asks
  | updateValues _ => cases asks
  | resetTables => cases asks
  | inside start stop string nt => exact keeps_inside weigh holds start stop string nt
  | outside start stop string nt => exact keeps_outside weigh holds start stop string nt
  | stringProbability string => exact keeps_stringProbability weigh holds string
  | logLikelihood => exact keeps_sumLogs weigh holds _ _
  | compute => exact keeps_compute weigh holds
  | bestParse string => exact holds

/-- What weighing keeps is kept by every run of questions. -/
theorem keeps_asked {session : List Request} (asks : ∀ request ∈ session, request.asks = true)
    (holds : P e) : P (e.after session) := by
  unfold after
  induction session generalizing e with
  | nil => exact holds
  | cons request rest ih =>
    have first := keeps_asking weigh (asks request List.mem_cons_self) holds
    exact ih (fun other member => asks other (List.mem_cons_of_mem _ member)) first

variable (setValues : ∀ e updates, P e → P (setValues updates e).2) (resetTables : ∀ e, P e → P e.resetTables)

include setValues resetTables

theorem keeps_answer_of_corpus {request : Request} (holds : P e)
    (setCorpus : ∀ strings, request = .setCorpus strings → P (e.setCorpus strings).2) :
    P (e.answer request).2 := by
  cases request with
  | setCorpus strings => exact setCorpus strings rfl
  | setValues updates => exact setValues e updates holds
  | updateValues values =>
    simp only [answer, reply, updateValues]
    split
    · exact setValues e _ holds
    · exact holds
  | resetTables => exact resetTables e holds
  | inside _ _ _ _ => exact keeps_asking weigh rfl holds
  | outside _ _ _ _ => exact keeps_asking weigh rfl holds
  | stringProbability _ => exact keeps_asking weigh rfl holds
  | logLikelihood => exact keeps_asking weigh rfl holds
  | compute => exact keeps_asking weigh rfl holds
  | bestParse _ => exact keeps_asking weigh rfl holds

theorem keeps_after (setCorpus : ∀ e strings, P e → P (setCorpus strings e).2) (holds : P e)
    (session : List Request) : P (e.after session) := by
  unfold after
  induction session generalizing e with
  | nil => exact holds
  | cons request rest ih =>
    exact ih (keeps_answer_of_corpus weigh setValues resetTables holds
      fun strings _ => setCorpus e strings holds)

end

end Engine

end StochasticGrammar
