import StochasticGrammar.GrammarText.Printer
import StochasticGrammar.Report.Json

/-!
A summary of a grammar and of the work done with it.
-/

namespace StochasticGrammar

structure ParameterReport where
  parameter : Parameter
  used : Bool
  deriving Repr

structure PruningReport where
  first : Nat
  last : Nat
  before : Nat
  after : Nat
  deriving DecidableEq, Repr

structure Diagnostics where
  start : Nat
  nonTerminals : Nat
  terminals : List String
  terminalRules : Nat
  binaryRules : Nat
  rulesPerNonTerminal : List Nat
  rules : List String
  parameters : List ParameterReport
  pruning : PruningReport
  corpusStrings : Nat
  insideCalls : Nat
  outsideCalls : Nat
  deriving Repr

def Grammar.diagnostics (g : Grammar) (corpusStrings insideCalls outsideCalls : Nat) : Diagnostics where
  start := g.rules.start
  nonTerminals := g.rules.nonTerminals
  terminals := g.alphabet.literals.toList
  terminalRules := (TerminalRule.all g.rules.rules).length
  binaryRules := (BinaryRule.all g.rules.rules).length
  rulesPerNonTerminal := (List.range g.rules.nonTerminals).map fun nt => (g.rules.rulesOf nt).length
  rules := (List.range g.rules.size).map g.ruleText
  parameters := g.parameters.toList.map fun (id, p) => ⟨p, g.used.contains id⟩
  pruning :=
    { first := g.rules.pruning.first.ones
      last := g.rules.pruning.last.ones
      before := g.rules.pruning.before.ones
      after := g.rules.pruning.after.ones }
  corpusStrings
  insideCalls
  outsideCalls

namespace Report

def parameterBlock (p : ParameterReport) : Block :=
  object [
    field "name" (text p.parameter.name),
    field "value" (float p.parameter.value),
    field "lower" (float p.parameter.lower),
    field "upper" (float p.parameter.upper),
    field "used" (bool p.used)]

def pruningBlock (p : PruningReport) : Block :=
  object [
    field "can_start_with" (integer p.first),
    field "can_end_with" (integer p.last),
    field "has_precursor_starting_with" (integer p.before),
    field "has_follower_ending_with" (integer p.after)]

def diagnosticsBlock (d : Diagnostics) : Block :=
  object [
    field "start_symbol" (integer d.start),
    field "non_terminals" (integer d.nonTerminals),
    field "terminals" (list (d.terminals.map text)),
    field "terminal_rules" (integer d.terminalRules),
    field "binary_rules" (integer d.binaryRules),
    field "rules_per_non_terminal" (list (d.rulesPerNonTerminal.map integer)),
    field "rules" (list (d.rules.map text)),
    field "parameters" (list (d.parameters.map parameterBlock)),
    field "pruning" (pruningBlock d.pruning),
    field "corpus_strings" (integer d.corpusStrings),
    field "inside_calls" (integer d.insideCalls),
    field "outside_calls" (integer d.outsideCalls)]

end Report

def Diagnostics.json (d : Diagnostics) : String := (Report.diagnosticsBlock d).write

end StochasticGrammar
