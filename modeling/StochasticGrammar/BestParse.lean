import StochasticGrammar.Chart.Cell
import StochasticGrammar.Derivation

/-!
The derivation of the greatest weight. A chart holds the best derivation of every span from every
non-terminal that has one, span by span from the shorter to the longer. Of equal weights the rule
declared first wins, and then the split furthest to the left; weights that are not positive count as
none.
-/

namespace StochasticGrammar

structure Best (W : Type) where
  weight : W
  tree : Derivation
  deriving Inhabited

/-- By length less one, start and non-terminal. -/
abbrev BestChart (W : Type) := Array (Array (Array (Option (Best W))))

def BestChart.get? {W : Type} (chart : BestChart W) (start stop nt : Nat) : Option (Best W) := do
  let row ← chart[stop - start]?
  let cell ← row[start]?
  (← cell[nt]?)

def better {W : Type} [Weight W] (best : Option (Best W)) (new : Best W) : Option (Best W) :=
  match best with
  | none => if 0 < new.weight then some new else none
  | some old => if old.weight < new.weight then some new else some old

namespace Sentence

variable {W : Type} [Weight W] (s : Sentence W)

def bestToken (start nt : Nat) : Option (Best W) := do
  let rule ← (s.tokens[start]?).bind (s.rules.terminalRule? nt)
  better none ⟨s.value rule, .leaf rule⟩

def mayEnclose (nt start stop : Nat) : Bool :=
  ((s.tokens[start]?).any fun t => s.rules.pruning.first.get nt t) &&
    ((s.tokens[stop]?).any fun t => s.rules.pruning.last.get nt t)

@[specialize] def trySplit (chart : BestChart W) (r : BinaryRule) (start stop : Nat)
    (best : Option (Best W)) (m : Nat) : Option (Best W) :=
  match chart.get? start m r.left with
  | none => best
  | some left =>
    match chart.get? (m + 1) stop r.right with
    | none => best
    | some right =>
      better best ⟨s.value r.index * left.weight * right.weight, .node r.index left.tree right.tree⟩

@[specialize] def tryRule (chart : BestChart W) (start stop : Nat) (best : Option (Best W))
    (r : BinaryRule) : Option (Best W) :=
  if 0 < s.value r.index then
    (List.range' start (stop - start)).foldl (s.trySplit chart r start stop) best
  else best

@[specialize] def bestSpan (chart : BestChart W) (start stop nt : Nat) : Option (Best W) :=
  if s.mayEnclose nt start stop then
    (s.rules.binariesOf nt).foldl (s.tryRule chart start stop) none
  else none

/-- The row of the spans that reach `reach` tokens beyond their start. -/
@[specialize] def bestRow (chart : BestChart W) (reach : Nat) : Array (Array (Option (Best W))) :=
  Array.ofFn fun (start : Fin (s.tokens.size - reach)) =>
    Array.ofFn fun (nt : Fin s.rules.nonTerminals) =>
      if reach = 0 then s.bestToken start.val nt.val
      else s.bestSpan chart start.val (start.val + reach) nt.val

@[specialize] def bestChart : BestChart W :=
  (List.range s.tokens.size).foldl (fun (chart : BestChart W) (reach : Nat) =>
    chart.push (s.bestRow chart reach)) #[]

@[specialize] def bestParse? : Option (Best W) :=
  if s.tokens.isEmpty then none else s.bestChart.get? 0 (s.tokens.size - 1) s.rules.start

end Sentence

end StochasticGrammar
