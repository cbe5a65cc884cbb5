/-!
Numbering the triples of a span `start..stop` and a non-terminal. Each triple inside the grid has a
number below the capacity, and the number gives the triple back.
-/

namespace StochasticGrammar

structure SpanGrid where
  length : Nat
  nonTerminals : Nat
  deriving DecidableEq, Repr, Inhabited

namespace SpanGrid

def capacity (grid : SpanGrid) : Nat := grid.nonTerminals * grid.length * grid.length

def Holds (grid : SpanGrid) (start stop nonTerminal : Nat) : Prop :=
  start ≤ stop ∧ stop < grid.length ∧ nonTerminal < grid.nonTerminals

instance (grid : SpanGrid) (start stop nonTerminal : Nat) :
    Decidable (grid.Holds start stop nonTerminal) :=
  inferInstanceAs (Decidable (_ ∧ _ ∧ _))

def index? (grid : SpanGrid) (start stop nonTerminal : Nat) : Option Nat :=
  if grid.Holds start stop nonTerminal then
    some ((nonTerminal * grid.length + start) * grid.length + stop)
  else none

def triple? (grid : SpanGrid) (index : Nat) : Option (Nat × Nat × Nat) :=
  let stop := index % grid.length
  let start := index / grid.length % grid.length
  let nonTerminal := index / (grid.length * grid.length)
  if index < grid.capacity ∧ start ≤ stop then some (start, stop, nonTerminal) else none

theorem index_lt_capacity {grid : SpanGrid} {start stop nonTerminal index : Nat}
    (h : grid.index? start stop nonTerminal = some index) : index < grid.capacity := by
  unfold index? at h
  split at h
  · rename_i holds
    obtain ⟨order, inside, known⟩ := holds
    cases h
    have row : nonTerminal * grid.length + start + 1 ≤ grid.nonTerminals * grid.length := by
      calc nonTerminal * grid.length + start + 1
          ≤ nonTerminal * grid.length + grid.length := by omega
        _ = (nonTerminal + 1) * grid.length := by rw [Nat.add_mul, Nat.one_mul]
        _ ≤ grid.nonTerminals * grid.length := Nat.mul_le_mul_right _ known
    calc (nonTerminal * grid.length + start) * grid.length + stop
        < (nonTerminal * grid.length + start) * grid.length + grid.length := by omega
      _ = (nonTerminal * grid.length + start + 1) * grid.length := by rw [Nat.add_mul _ 1, Nat.one_mul]
      _ ≤ grid.nonTerminals * grid.length * grid.length := Nat.mul_le_mul_right _ row
  · cases h

end SpanGrid

end StochasticGrammar
