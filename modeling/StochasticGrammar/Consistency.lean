import StochasticGrammar.GrammarText.Printer

/-!
Whether rule values are probabilities: each lies in the unit interval and those of the rules of one
non-terminal add up to one, both up to a small tolerance. The first rule that fails is reported, else
the first non-terminal.
-/

namespace StochasticGrammar

structure Inconsistency where
  subject : Subject
  fault : ProbabilityFault
  deriving DecidableEq, Repr

def Inconsistency.error (fault : Inconsistency) : Error := .probability fault.subject fault.fault

def tolerance : Float := 1e-6

def isProbability (value : Float) : Bool :=
  decide (-tolerance ≤ value) && decide (value ≤ 1.0 + tolerance)

/-- Sums start from the negative zero, which changes no summand. -/
def total (values : List Float) : Float := values.foldl (· + ·) (-0.0)

def sumsToOne (sum : Float) : Bool := !decide (tolerance < (sum - 1.0).abs)

namespace Grammar

def badRule? (g : Grammar) (values : List Float) : Option Inconsistency :=
  values.zipIdx.findSome? fun (value, rule) =>
    if isProbability value then none
    else some ⟨.ruleText rule (g.ruleText rule), .outsideUnit value⟩

def ruleSum (g : Grammar) (values : Array Float) (nt : Nat) : Float :=
  total ((g.rules.rulesOf nt).map fun rule => values[rule]?.getD 0.0)

def badSum? (g : Grammar) (values : Array Float) : Option Inconsistency :=
  (List.range g.rules.nonTerminals).findSome? fun nt =>
    let sum := g.ruleSum values nt
    if sumsToOne sum then none else some ⟨.nonTerminal nt, .sum sum⟩

def inconsistency? (g : Grammar) (values : Array Float) : Option Inconsistency :=
  g.badRule? values.toList <|> g.badSum? values

def verify (g : Grammar) : Except Error Unit :=
  match g.inconsistency? g.values.values with
  | some fault => .error fault.error
  | none => .ok ()

end Grammar

end StochasticGrammar
