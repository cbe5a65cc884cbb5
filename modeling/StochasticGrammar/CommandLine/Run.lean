import StochasticGrammar.CommandLine.Arguments
import StochasticGrammar.CommandLine.Host
import StochasticGrammar.Corpus
import StochasticGrammar.Engine
import StochasticGrammar.Random.Generator

/-!
Carrying out the commands. A command prints as it goes, and its first failure ends it with exit
status one; words that are no command give two, and a table that cannot be had gives 101.
-/

namespace StochasticGrammar.CommandLine

variable {m : Type → Type} [Monad m] [Host m]

abbrev Task (m : Type → Type) := ExceptT Failure m

def told {α : Type} (result : Except Error α) : Task m α := ofExcept (result.mapError .fault)

/-- What comes of a run that may not end. -/
def ended {α : Type} : Option α → Task m α
  | some result => return result
  | none => throw .endless

def readFile (path : String) : Task m ByteArray := do
  match ← Host.readFile path with
  | .ok bytes => return bytes
  | .error fault => throw (.fault (.file fault))

def printLine (line : String) : Task m Unit := Host.print (line ++ "\n")

def loadGrammar (path : String) : Task m Grammar := do
  match String.fromUTF8? (← readFile path) with
  | some text =>
    let d ← told (GrammarText.read text)
    ofExcept d.grammar
  | none => throw (.fault (.file .notUtf8))

def loadCorpus (path : String) : Task m (List String) := do
  told (Corpus.read (← readFile path))

def loadCorpusOrInput : Option String → Task m (List String)
  | some path => loadCorpus path
  | none => do told (Corpus.read (← Host.readInput))

def withCorpus (g : Grammar) (strings : List String) : Task m Engine := do
  let (result, engine) := (Engine.ofGrammar g).setCorpus strings
  told result
  return engine

def generator (seed : Option UInt64) : Task m Generator := do
  match seed with
  | some seed => return .ofSeed seed
  | none => return .ofSeed (← Host.entropy)

def info (grammar : String) (corpus : Option String) : Task m Unit := do
  let g ← loadGrammar grammar
  let strings ← match corpus with
    | some path => loadCorpus path
    | none => pure []
  let engine ← withCorpus g strings
  printLine engine.diagnostics.json

def parse (grammar : String) (corpus : Option String) : Task m Unit := do
  let g ← loadGrammar grammar
  let engine ← withCorpus g (← loadCorpusOrInput corpus)
  for (best, string) in engine.bestParses.zip engine.corpus.toList do
    match best with
    | .ok best => printLine (g.bracketed best.tree)
    | .error (.noParse _) => printLine s!"(NOPARSE {string.text})"
    | .error fault => throw (.fault fault)

def printProbabilities (e : Engine) : List (CorpusString × Nat) → Task m Engine
  | [] => return e
  | (string, index) :: rest => do
    let (p, e) := e.stringProbability index
    printLine s!"{string.text}\t{Decimal.text (← told p)}"
    printProbabilities e rest

def printLogLikelihood (value : Float) : Task m Unit :=
  printLine s!"log-likelihood\t{Decimal.text value}"

def inside (grammar : String) (corpus : Option String) : Task m Unit := do
  let g ← loadGrammar grammar
  let engine ← withCorpus g (← loadCorpusOrInput corpus)
  let engine ← printProbabilities engine engine.corpus.toList.zipIdx
  printLogLikelihood (← told engine.logLikelihood.1)

def assignmentText (value : String × Float) : String := s!"{value.1}={Decimal.text value.2}"

def failureText (failure : SampleFailure) : String :=
  let point := ", ".intercalate (failure.values.map assignmentText)
  s!"  sample {failure.sample} [{point}]: {failure.reason}"

def verify (grammar : String) (samples : Nat) (seed : Option UInt64) : Task m Unit := do
  let g ← loadGrammar grammar
  match g.verify with
  | .ok () => printLine "current values: ok"
  | .error fault => printLine s!"current values: {fault.message}"
  let (report, _) ← ended (g.verifySamples samples (← generator seed))
  let report ← told report
  printLine s!"sampled values: {report.failures.length} of {report.samples} samples failed"
  for failure in report.failures do
    printLine (failureText failure)

def printSpawned (g : Grammar) (root limit : Option Nat) : Nat → Generator → Task m Unit
  | 0, _ => return
  | n + 1, source => do
    let (string, source) ← ended (g.spawn root limit source)
    printLine (← told string)
    printSpawned g root limit n source

def generate (grammar : String) (count : Nat) (seed : Option UInt64) (limit : Nat)
    (root : Option Nat) : Task m Unit := do
  let g ← loadGrammar grammar
  printSpawned g root (some limit) count (← generator seed)

def train (grammar corpus : String) (ascent : Ascent) (output : Option String) : Task m Unit := do
  let g ← loadGrammar grammar
  told g.verify
  let engine ← withCorpus g (← loadCorpus corpus)
  let (report, engine) := ascent.optimize engine
  printLogLikelihood (← told report).final
  for (_, p) in engine.usedParameters do
    printLine s!"{p.name}\t{Decimal.text p.value}"
  if let some path := output then
    match ← Host.writeFile path (GrammarText.write engine.grammar) with
    | .ok () => Host.warn s!"Successfully wrote: {path}\n"
    | .error fault => throw (.fault (.file fault))

def perform : Command → Task m Unit
  | .info grammar corpus => info grammar corpus
  | .parse grammar corpus => parse grammar corpus
  | .inside grammar corpus => inside grammar corpus
  | .verify grammar samples seed => verify grammar samples seed
  | .generate grammar count seed limit root => generate grammar count seed limit root
  | .train grammar corpus maxSweeps tolerance output =>
    train grammar corpus { maxSweeps, tolerance } output

def versionText : String := "scfg_tool 0.1.0\n"

def usageOf (name : CommandName) : String :=
  let options := String.join (name.flags.map fun flag => s!" [--{flag.text} VALUE]")
  s!"  scfg_tool {name.text} GRAMMAR{options}\n"

def usageText : String := "Usage:\n" ++ String.join (CommandName.all.map usageOf)

/-- Carries out a command line and gives the exit status. -/
def invoke (args : List String) : m UInt32 := do
  match Command.ofArguments args with
  | .error .version => Host.print versionText; return 0
  | .error .help => Host.print usageText; return 0
  | .error (.fault fault) => Host.warn s!"error: {fault.message}\n"; return 2
  | .ok command =>
    match ← (perform command).run with
    | .ok () => return 0
    | .error (.fault fault) => Host.warn s!"Error: {fault.message}\n"; return 1
    | .error .overflow => Host.warn "capacity overflow\n"; return 101
    -- There is no status here: the program is still running.
    | .error .endless => return 0

end StochasticGrammar.CommandLine
