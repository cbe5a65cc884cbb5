import StochasticGrammar.Chart.Cell
import StochasticGrammar.Grammar

/-!
Random derivations. A non-terminal is expanded by one of its rules, drawn with a chance in proportion
to its value, and the left part before the right one. Rules of negative value are never drawn, and
nothing is drawn where there is no choice. Without a limit a derivation may go on for ever; nothing
comes of it then.
-/

namespace StochasticGrammar

namespace WeightedRules

variable {W σ : Type} [Weight W] (g : WeightedRules W)

def positive (weight : W) : W := if 0 < weight then weight else 0

def mass (rules : List Nat) : W := (rules.map fun rule => positive (g.value rule)).foldl (· + ·) 0

/-- The first rule at which the running sum of the values passes `target`. -/
def pick? (target : W) : (sum : W) → List Nat → Option Nat
  | _, [] => none
  | sum, rule :: rest =>
    let sum := sum + positive (g.value rule)
    if target < sum then some rule else pick? target sum rest

/-- Rounding can leave the target just past the last sum; then the last rule that can be drawn is. -/
def choose (draw : σ → W × σ) (nt : Nat) (source : σ) : Option Nat × σ :=
  let rules := g.rules.rulesOf nt
  let mass := g.mass rules
  if 0 < mass then
    match rules with
    | [rule] => (some rule, source)
    | _ =>
      let (fraction, source) := draw source
      match g.pick? (fraction * mass) 0 rules with
      | some rule => (some rule, source)
      | none => (rules.reverse.find? fun rule => decide (0 < g.value rule), source)
  else (none, source)

structure Pending where
  nt : Nat
  depth : Nat
  deriving DecidableEq, Repr

/-- The limit, where the depth is beyond it. -/
def exceeded? (limit : Option Nat) (depth : Nat) : Option Nat := limit.filter (· < depth)

/-- The terminals of a derivation of all that waits, after those in `yield`. -/
def expand (g : WeightedRules W) (draw : σ → W × σ) (limit : Option Nat) (yield : Array Nat)
    (waiting : List Pending) (source : σ) : Option (Except Error (Array Nat) × σ) :=
  match waiting with
  | [] => some (.ok yield, source)
  | p :: rest =>
    match exceeded? limit p.depth with
    | some limit => some (.error (.tooDeep limit), source)
    | none =>
      match g.choose draw p.nt source with
      | (none, source) => some (.error (.probability (.nonTerminal p.nt) .noPositiveRule), source)
      | (some rule, source) =>
        match g.rules.production? rule with
        | some (.binary left right) =>
          g |>.expand draw limit yield (⟨left, p.depth + 1⟩ :: ⟨right, p.depth + 1⟩ :: rest) source
        | some (.terminal terminal) => g |>.expand draw limit (yield.push terminal) rest source
        | none => g |>.expand draw limit yield rest source
partial_fixpoint

def spawn (draw : σ → W × σ) (root : Option Nat) (limit : Option Nat) (source : σ) :
    Option (Except Error (Array Nat) × σ) :=
  let root := root.getD g.rules.start
  if root < g.rules.nonTerminals then g.expand draw limit #[] [⟨root, 1⟩] source
  else some (.error (.unknownNonTerminal root g.rules.nonTerminals), source)

end WeightedRules

end StochasticGrammar
