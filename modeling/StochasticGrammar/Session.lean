import StochasticGrammar.Engine

/-!
What can be asked of an engine, as data, so that a session is a list of requests.
-/

namespace StochasticGrammar

inductive Request where
  | setCorpus (strings : List String)
  | setValues (updates : List (Nat × Float))
  | updateValues (values : List Float)
  | resetTables
  | inside (start stop string nt : Nat)
  | outside (start stop string nt : Nat)
  | stringProbability (string : Nat)
  | logLikelihood
  | compute
  | bestParse (string : Nat)
  deriving Repr

inductive Reply where
  | done
  | weight (value : Float)
  | parse (best : Best Float)

namespace Engine

def reply {α : Type} (f : α → Reply) (result : Except Error α × Engine) :
    Except Error Reply × Engine :=
  (result.1.map f, result.2)

def answer (request : Request) (e : Engine) : Except Error Reply × Engine :=
  match request with
  | .setCorpus strings => reply (fun _ => .done) (e.setCorpus strings)
  | .setValues updates => reply (fun _ => .done) (e.setValues updates)
  | .updateValues values => reply (fun _ => .done) (e.updateValues values)
  | .resetTables => (.ok .done, e.resetTables)
  | .inside start stop string nt => reply .weight (e.inside start stop string nt)
  | .outside start stop string nt => reply .weight (e.outside start stop string nt)
  | .stringProbability string => reply .weight (e.stringProbability string)
  | .logLikelihood => reply .weight e.logLikelihood
  | .compute => reply .weight e.compute
  | .bestParse string => reply .parse (e.bestParse string, e)

/-- The engine after a session, whatever its answers were. -/
def after (e : Engine) (session : List Request) : Engine :=
  session.foldl (fun (e : Engine) (request : Request) => (e.answer request).2) e

end Engine

end StochasticGrammar
