import Std.Data.HashMap
import Std.Data.HashSet
import StochasticGrammar.Weight

/-!
A sparse table of weights by cell number. Beside each weight stands whether it is constant, that is
the same whatever the parameters are. A constant zero leaves no entry and a constant one an entry
without a value; both the visits and all other entries are dropped when the epoch of the parameters
moves on, while constant ones stay.
-/

namespace StochasticGrammar

inductive MemoEntry where
  | one
  | computed (slot : Nat)
  deriving DecidableEq, Repr

structure MemoTable (W : Type) where
  entries : Std.HashMap Nat MemoEntry := ∅
  buffer : Array (W × Bool) := #[]
  visits : Std.HashSet Nat := ∅
  epoch : Option Nat := none
  deriving Inhabited

namespace MemoTable

variable {W : Type}

def invalidate (table : MemoTable W) : MemoTable W where
  entries := table.entries.filter fun _ entry => entry == .one
  epoch := table.epoch

def sync (table : MemoTable W) (epoch : Nat) : MemoTable W :=
  if table.epoch = some epoch then table
  else { table.invalidate with epoch := some epoch }

def entry? (table : MemoTable W) (index : Nat) : Option MemoEntry := table.entries[index]?

def size (table : MemoTable W) : Nat := table.entries.size

def ones (table : MemoTable W) : Nat :=
  table.entries.fold (fun count _ entry => if entry == .one then count + 1 else count) 0

def visited (table : MemoTable W) : Nat := table.visits.size

/-- The slot that a value of cell `index` goes to: its own if it has one, else a new one. -/
def slot (table : MemoTable W) (index : Nat) : Nat :=
  match table.entries[index]? with
  | some (.computed slot) => if slot < table.buffer.size then slot else table.buffer.size
  | _ => table.buffer.size

/-- The buffer with a value in a slot that is there or the next to come. -/
def place (table : MemoTable W) (slot : Nat) (cell : W × Bool) : Array (W × Bool) :=
  if slot < table.buffer.size then table.buffer.setIfInBounds slot cell else table.buffer.push cell

variable [Weight W]

@[specialize] def lookup? (table : MemoTable W) (index : Nat) : Option (W × Bool) :=
  match table.entries[index]? with
  | some .one => some (1, true)
  | some (.computed slot) => if table.visits.contains index then table.buffer[slot]? else none
  | none => if table.visits.contains index then some (0, true) else none

@[specialize] def store (table : MemoTable W) (index : Nat) (value : W) (constant : Bool) :
    MemoTable W :=
  let visits := table.visits.insert index
  if constant && value == 0 then
    { table with entries := table.entries.erase index, visits }
  else if constant && value == 1 then
    { table with entries := table.entries.insert index .one, visits }
  else
    let slot := table.slot index
    let buffer := table.place slot (value, constant)
    { table with entries := table.entries.insert index (.computed slot), buffer, visits }

end MemoTable

end StochasticGrammar
