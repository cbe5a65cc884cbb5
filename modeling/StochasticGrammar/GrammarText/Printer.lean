import StochasticGrammar.Grammar

/-!
The text of a grammar with its current parameter values, in the form that is read.
-/

namespace StochasticGrammar

namespace Grammar

def productionText (g : Grammar) : Production → String
  | .terminal terminal => Text.literal ((g.literal? terminal).getD "")
  | .binary left right => s!"{left} {right}"

def ruleText (g : Grammar) (index : Nat) : String :=
  match g.rules.rule? index with
  | none => ""
  | some rule =>
    let body := s!"{rule.lhs} -> {g.productionText rule.production}"
    match g.source? index with
    | some (.formula formula) => s!"{body} : {formula.text}"
    | _ => body

end Grammar

namespace GrammarText

def parameterText (p : Parameter) : String :=
  s!"param {p.name} = {Decimal.text p.value} in [{Decimal.text p.lower}, {Decimal.text p.upper}]"

def lines (g : Grammar) : List String :=
  s!"start {g.rules.start}" :: g.parameters.entries.toList.map parameterText ++
    (List.range g.rules.size).map g.ruleText

def write (g : Grammar) : String := String.join ((lines g).map (· ++ "\n"))

end GrammarText

end StochasticGrammar
