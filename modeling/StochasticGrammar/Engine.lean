import StochasticGrammar.Ascent
import StochasticGrammar.BestParse
import StochasticGrammar.Chart.Resolve
import StochasticGrammar.Expansion
import StochasticGrammar.Hypercube
import StochasticGrammar.Report.Diagnostics

/-!
A grammar together with a corpus. Every corpus string keeps the tables of its chart; they are brought
up to date with the parameters when the string is asked about. An operation that fails leaves the
engine as it was.
-/

namespace StochasticGrammar

structure CorpusString where
  text : String
  tokens : Array Nat
  tables : Tables Float := {}
  deriving Inhabited

structure Engine where
  grammar : Grammar
  corpus : Array CorpusString := #[]
  counters : Counters := {}

/-- The logarithm, with its values at the ends of its domain and outside of it. -/
def naturalLog (x : Float) : Float :=
  if x < 0.0 then 0.0 / 0.0
  else if x == 0.0 then -1.0 / 0.0
  else if x.isFinite then Float.log x
  else x

namespace Grammar

def weighted (g : Grammar) : WeightedRules Float := ⟨g.rules, g.values.value, g.values.isCertain⟩

def spell (g : Grammar) (tokens : Array Nat) : String :=
  String.join (tokens.toList.map fun t => (g.literal? t).getD "")

def bestParse (g : Grammar) (tokens : Array Nat) (string : Nat) : Except Error (Best Float) :=
  let sentence : Sentence Float := { g.weighted with tokens }
  match sentence.bestParse? with
  | some best => .ok best
  | none => .error (.noParse string)

def spawn {σ : Type} [RandomSource σ] (g : Grammar) (root limit : Option Nat) (source : σ) :
    Option (Except Error String × σ) := do
  let (tokens, source) ← g.weighted.spawn RandomSource.nextUnit root limit source
  return (tokens.map g.spell, source)

end Grammar

def Tables.sync (tables : Tables Float) (epoch : Nat) : Tables Float :=
  ⟨tables.inside.sync epoch, tables.outside.sync epoch⟩

def Tables.invalidate (tables : Tables Float) : Tables Float :=
  ⟨tables.inside.invalidate, tables.outside.invalidate⟩

/-- The weight of a cell of one string, beside the counters of all strings. -/
def CorpusString.weigh (g : WeightedRules Float) (epoch : Nat) (cell : Cell) :
    CorpusString → StateM (Float × Counters) CorpusString
  | ⟨text, tokens, tables⟩, (_, counters) =>
    let sentence : Sentence Float := { g with tokens }
    let ((value, _), work) := sentence.demand ⟨tables.sync epoch, counters⟩ cell
    (⟨text, tokens, work.tables⟩, (value, work.counters))

namespace Engine

def ofGrammar (grammar : Grammar) : Engine := { grammar }

def readStrings (g : Grammar) : List String → Except Error (List CorpusString)
  | [] => .ok []
  | text :: rest =>
    if text.isEmpty then .error (.tokenization "" 0)
    else do
      let tokens ← g.tokenize text
      let strings ← readStrings g rest
      return { text, tokens } :: strings

def setCorpus (strings : List String) (e : Engine) : Except Error Unit × Engine :=
  match readStrings e.grammar strings with
  | .error fault => (.error fault, e)
  | .ok corpus => (.ok (), { grammar := e.grammar, corpus := corpus.toArray })

def setValues (updates : List (Nat × Float)) (e : Engine) : Except Error Unit × Engine :=
  match e.grammar.setValues updates with
  | .error fault => (.error fault, e)
  | .ok grammar => (.ok (), { e with grammar })

def resetTables (e : Engine) : Engine :=
  { e with corpus := e.corpus.map fun s => { s with tables := s.tables.invalidate } }

def length? (e : Engine) (string : Nat) : Except Error Nat :=
  match e.corpus[string]? with
  | some s => .ok s.tokens.size
  | none => .error (.noSuchString string e.corpus.size)

def checkSpan (e : Engine) (start stop string nt : Nat) : Except Error Unit := do
  let length ← e.length? string
  if (SpanGrid.mk length e.grammar.rules.nonTerminals).Holds start stop nt then return
  else throw (.spanOutOfRange start stop nt string)

def weigh (string : Nat) (cell : Cell) : Engine → Float × Engine
  | ⟨grammar, corpus, counters⟩ =>
    let weigh := CorpusString.weigh grammar.weighted grammar.epoch cell
    let (corpus, value, counters) := (corpus.modifyM string weigh).run (0.0, counters)
    (value, ⟨grammar, corpus, counters⟩)

/-- The probability that `nt` derives the tokens from `start` to `stop`. -/
def inside (start stop string nt : Nat) (e : Engine) : Except Error Float × Engine :=
  match e.checkSpan start stop string nt with
  | .error fault => (.error fault, e)
  | .ok () =>
    let (value, e) := e.weigh string (.inside start stop nt)
    (.ok value, e)

/-- The probability of the derivations of the whole string in which `nt` stands for the tokens from
`start` to `stop`, without that of the part under `nt`. -/
def outside (start stop string nt : Nat) (e : Engine) : Except Error Float × Engine :=
  match e.checkSpan start stop string nt with
  | .error fault => (.error fault, e)
  | .ok () =>
    let (value, e) := e.weigh string (.outside start stop nt)
    (.ok value, e)

def stringProbability (string : Nat) (e : Engine) : Except Error Float × Engine :=
  match e.length? string with
  | .error fault => (.error fault, e)
  | .ok length => e.inside 0 (length - 1) string e.grammar.rules.start

def sumLogs (total : Float) : List Nat → Engine → Except Error Float × Engine
  | [], e => (.ok total, e)
  | string :: rest, e =>
    match e.stringProbability string with
    | (.error fault, e) => (.error fault, e)
    | (.ok p, e) => sumLogs (total + naturalLog p) rest e

def logLikelihood (e : Engine) : Except Error Float × Engine :=
  e.sumLogs 0.0 (List.range e.corpus.size)

/-- The log-likelihood of the corpus, provided that the rule values are probabilities. -/
def compute (e : Engine) : Except Error Float × Engine :=
  match e.grammar.verify with
  | .error fault => (.error fault, e)
  | .ok () => e.logLikelihood

def bestParse (e : Engine) (string : Nat) : Except Error (Best Float) :=
  match e.corpus[string]? with
  | none => .error (.noSuchString string e.corpus.size)
  | some s => e.grammar.bestParse s.tokens string

def bestParses (e : Engine) : List (Except Error (Best Float)) :=
  (List.range e.corpus.size).map e.bestParse

def usedParameters (e : Engine) : List (Nat × Parameter) :=
  e.grammar.used.filterMap fun id => (e.grammar.parameters.get? id).map fun p => (id, p)

def updateValues (values : List Float) (e : Engine) : Except Error Unit × Engine :=
  let used := e.grammar.used
  if used.length = values.length then e.setValues (used.zip values)
  else (.error (.parameter (.wrongCount used.length values.length)), e)

instance : Optimizable Engine where
  bounds e := e.usedParameters.map fun (_, p) => (p.lower, p.upper)
  values e := e.usedParameters.map fun (_, p) => p.value
  update := updateValues
  objective := compute

def diagnostics (e : Engine) : Diagnostics :=
  e.grammar.diagnostics e.corpus.size e.counters.inside e.counters.outside

end Engine

end StochasticGrammar
