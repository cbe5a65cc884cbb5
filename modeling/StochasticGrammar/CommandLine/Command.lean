/-!
The commands of the command line with their options, and what can be wrong with the words of one.
-/

namespace StochasticGrammar

inductive CommandName where
  | info
  | parse
  | inside
  | verify
  | generate
  | train
  deriving DecidableEq, Repr

inductive Flag where
  | corpus
  | samples
  | seed
  | count
  | maxDepth
  | root
  | iterations
  | tolerance
  | output
  deriving DecidableEq, Repr

/-- A command with the values of all its options. -/
inductive Command where
  | info (grammar : String) (corpus : Option String)
  | parse (grammar : String) (corpus : Option String)
  | inside (grammar : String) (corpus : Option String)
  | verify (grammar : String) (samples : Nat) (seed : Option UInt64)
  | generate (grammar : String) (count : Nat) (seed : Option UInt64) (limit : Nat) (root : Option Nat)
  | train (grammar corpus : String) (iterations : Nat) (tolerance : Float) (output : Option String)
  deriving Repr

inductive UsageFault where
  | noCommand
  | unknownCommand (word : String)
  | unknownOption (word : String)
  | unexpected (word : String)
  | noValue (flag : Flag)
  | badValue (flag : Flag) (value : String)
  | repeated (flag : Flag)
  | noGrammar
  | missing (flag : Flag)
  deriving DecidableEq, Repr

namespace CommandName

def all : List CommandName := [info, parse, inside, verify, generate, train]

def text : CommandName → String
  | info => "info"
  | parse => "parse"
  | inside => "inside"
  | verify => "verify"
  | generate => "generate"
  | train => "train"

def flags : CommandName → List Flag
  | info | parse | inside => [.corpus]
  | verify => [.samples, .seed]
  | generate => [.count, .seed, .maxDepth, .root]
  | train => [.corpus, .iterations, .tolerance, .output]

def ofText? (word : String) : Option CommandName := all.find? fun name => name.text == word

end CommandName

namespace Flag

def text : Flag → String
  | corpus => "corpus"
  | samples => "samples"
  | seed => "seed"
  | count => "count"
  | maxDepth => "max-depth"
  | root => "from"
  | iterations => "iterations"
  | tolerance => "tolerance"
  | output => "output"

def letter? : Flag → Option Char
  | count => some 'n'
  | _ => none

end Flag

def UsageFault.message : UsageFault → String
  | noCommand => "a command is required"
  | unknownCommand word => s!"unknown command '{word}'"
  | unknownOption word => s!"unknown option '{word}'"
  | unexpected word => s!"unexpected argument '{word}'"
  | noValue flag => s!"option '--{flag.text}' needs a value"
  | badValue flag value => s!"invalid value '{value}' for option '--{flag.text}'"
  | repeated flag => s!"option '--{flag.text}' is given twice"
  | noGrammar => "a grammar file is required"
  | missing flag => s!"option '--{flag.text}' is required"

end StochasticGrammar
