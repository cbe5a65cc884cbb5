import StochasticGrammar.CommandLine.Command
import StochasticGrammar.Decimal.Reader

/-!
Reading the words of a command line. Options stand before or after the grammar file; after the word
`--` none are read. The value of an option is attached to it or is the next word, and a word that
looks like an option is no value.
-/

namespace StochasticGrammar

/-- What a word is by its look. -/
inductive Argument where
  | terminator
  | long (name : String) (value : Option String)
  | short (letter : Char) (rest : List Char)
  | plain
  deriving DecidableEq, Repr

/-- A reason why no command is to be carried out. -/
inductive Refusal where
  | help
  | version
  | fault (fault : UsageFault)
  deriving DecidableEq, Repr

/-- The options of a command as far as they are given. -/
structure Draft where
  grammar : Option String := none
  corpus : Option String := none
  output : Option String := none
  samples : Option Nat := none
  seed : Option Nat := none
  count : Option Nat := none
  maxDepth : Option Nat := none
  root : Option Nat := none
  iterations : Option Nat := none
  tolerance : Option Float := none
  deriving Repr, Inhabited

def Argument.longOf (body : List Char) : Argument :=
  let name := String.ofList (body.takeWhile (· != '='))
  match body.dropWhile (· != '=') with
  | [] => long name none
  | _ :: value => long name (some (String.ofList value))

def Argument.ofText (word : String) : Argument :=
  match word.toList with
  | ['-', '-'] => terminator
  | '-' :: '-' :: body => longOf body
  | '-' :: letter :: rest => short letter rest
  | _ => plain

/-- Paths are not empty. -/
def path? (word : String) : Option String := if word.isEmpty then none else some word

/-- A number of 64 bits, with or without a plus sign. -/
def word? (word : String) : Option Nat :=
  let digits :=
    match word.toList with
    | '+' :: rest => rest
    | all => all
  let number := Decimal.digitsValue digits
  if digits.isEmpty || !digits.all Char.isDigit || decide (0x10000000000000000 ≤ number) then none
  else some number

/-- The value of an option that is not given yet. -/
def once {α : Type} (flag : Flag) (old : Option α) (read : String → Option α) (value : String) :
    Except UsageFault (Option α) :=
  if old.isSome then .error (.repeated flag)
  else match read value with
    | some a => .ok (some a)
    | none => .error (.badValue flag value)

namespace Draft

def set (d : Draft) (flag : Flag) (value : String) : Except UsageFault Draft := do
  match flag with
  | .corpus => return { d with corpus := ← once flag d.corpus path? value }
  | .output => return { d with output := ← once flag d.output path? value }
  | .samples => return { d with samples := ← once flag d.samples word? value }
  | .seed => return { d with seed := ← once flag d.seed word? value }
  | .count => return { d with count := ← once flag d.count word? value }
  | .maxDepth => return { d with maxDepth := ← once flag d.maxDepth word? value }
  | .root => return { d with root := ← once flag d.root word? value }
  | .iterations => return { d with iterations := ← once flag d.iterations word? value }
  | .tolerance =>
    let read (value : String) : Option Float := Decimal.read? value.toList
    return { d with tolerance := ← once flag d.tolerance read value }

/-- The grammar file is the one word that is no option. -/
def setGrammar (d : Draft) (word : String) : Except UsageFault Draft :=
  if d.grammar.isSome then .error (.unexpected word)
  else match path? word with
    | some path => .ok { d with grammar := some path }
    | none => .error .noGrammar

def require {α : Type} (fault : UsageFault) : Option α → Except UsageFault α
  | some a => .ok a
  | none => .error fault

def command (d : Draft) (name : CommandName) : Except UsageFault Command := do
  let grammar ← require .noGrammar d.grammar
  let seed := d.seed.map UInt64.ofNat
  match name with
  | .info => return .info grammar d.corpus
  | .parse => return .parse grammar d.corpus
  | .inside => return .inside grammar d.corpus
  | .verify => return .verify grammar (d.samples.getD 100) seed
  | .generate => return .generate grammar (d.count.getD 1) seed (d.maxDepth.getD 1000) d.root
  | .train =>
    let corpus ← require (.missing .corpus) d.corpus
    return .train grammar corpus (d.iterations.getD 50) (d.tolerance.getD 1e-6) d.output

end Draft

namespace Command

/-- An option by its look, with the value attached to it. -/
def option (name : CommandName) (word : String) : Argument → Except Refusal (Flag × Option String)
  | .long "help" none => .error .help
  | .long text value =>
    match name.flags.find? fun flag => flag.text == text with
    | some flag => .ok (flag, value)
    | none => .error (.fault (.unknownOption word))
  | .short 'h' _ => .error .help
  | .short letter rest =>
    match name.flags.find? fun flag => flag.letter? == some letter with
    | some flag =>
      match rest with
      | [] => .ok (flag, none)
      | '=' :: value | value => .ok (flag, some (String.ofList value))
    | none => .error (.fault (.unknownOption word))
  | .terminator | .plain => .error (.fault (.unexpected word))

def readPlain (draft : Draft) : List String → Except Refusal Draft
  | [] => .ok draft
  | word :: rest => do
    let draft ← (draft.setGrammar word).mapError .fault
    readPlain draft rest

def read (name : CommandName) (draft : Draft) : List String → Except Refusal Draft
  | [] => .ok draft
  | word :: rest =>
    match Argument.ofText word with
    | .terminator => readPlain draft rest
    | .plain => do
      let draft ← (draft.setGrammar word).mapError .fault
      read name draft rest
    | argument => do
      match ← option name word argument with
      | (flag, some value) =>
        let draft ← (draft.set flag value).mapError .fault
        read name draft rest
      | (flag, none) =>
        match rest with
        | [] => throw (.fault (.noValue flag))
        | value :: rest =>
          if Argument.ofText value ≠ .plain then throw (.fault (.noValue flag))
          else
            let draft ← (draft.set flag value).mapError .fault
            read name draft rest

/-- What follows the word `help` is nothing or one command to be explained. -/
def afterHelp : List String → Refusal
  | [] => .help
  | [word] =>
    if word = "help" ∨ (CommandName.ofText? word).isSome then .help
    else .fault (.unknownCommand word)
  | _ :: word :: _ => .fault (.unexpected word)

/-- The command that the words of a command line stand for. -/
def ofArguments : List String → Except Refusal Command
  | [] => .error (.fault .noCommand)
  | word :: rest =>
    match Argument.ofText word with
    | .long "version" none | .short 'V' _ => .error .version
    | .long "help" none | .short 'h' _ => .error .help
    | .plain =>
      match CommandName.ofText? word with
      | some name => do
        let draft ← read name {} rest
        (draft.command name).mapError .fault
      | none =>
        .error (if word = "help" then afterHelp rest else .fault (.unknownCommand word))
    | _ => .error (.fault (.unknownOption word))

end Command

end StochasticGrammar
