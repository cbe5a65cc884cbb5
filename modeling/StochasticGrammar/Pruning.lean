import StochasticGrammar.Rule
import StochasticGrammar.Saturation

/-!
Which terminals can stand at the ends of a non-terminal and beside it. Each table has a row of bits
for every non-terminal, one bit for every terminal; the rows grow until no rule adds to them.
-/

namespace StochasticGrammar

structure BitTable where
  columns : Nat
  rows : Array Nat
  deriving DecidableEq, Repr, Inhabited

namespace BitTable

def clear (rows columns : Nat) : BitTable := ⟨columns, Array.replicate rows 0⟩

def row (table : BitTable) (n : Nat) : Nat := table.rows[n]?.getD 0

def get (table : BitTable) (n column : Nat) : Bool :=
  decide (column < table.columns) && (table.row n).testBit column

def absorb (table : BitTable) (n bits : Nat) : BitTable :=
  { table with rows := table.rows.modify n (· ||| bits) }

def ones (table : BitTable) : Nat :=
  table.rows.foldl (fun count bits => count + (List.range table.columns).countP bits.testBit) 0

/-- Rows are below two to the number of columns, so the sum of the rows grows up to this bound. -/
def room (table : BitTable) : Nat := (table.rows.size <<< table.columns) - table.rows.foldl (· + ·) 0

end BitTable

structure Pruning where
  /-- The terminals that a derivation from the non-terminal can begin with. -/
  first : BitTable
  /-- The terminals that a derivation from the non-terminal can end with. -/
  last : BitTable
  /-- The terminals that can stand directly before the non-terminal. -/
  before : BitTable
  /-- The terminals that can stand directly after the non-terminal. -/
  after : BitTable
  deriving DecidableEq, Repr, Inhabited

namespace Pruning

def singleTerminals (nonTerminals terminals : Nat) (rules : List TerminalRule) : BitTable :=
  rules.foldl (fun (table : BitTable) (r : TerminalRule) => table.absorb r.lhs (1 <<< r.terminal))
    (.clear nonTerminals terminals)

def firstStep (rules : List BinaryRule) (table : BitTable) : BitTable :=
  rules.foldl (fun (table : BitTable) (r : BinaryRule) => table.absorb r.lhs (table.row r.left)) table

def lastStep (rules : List BinaryRule) (table : BitTable) : BitTable :=
  rules.foldl (fun (table : BitTable) (r : BinaryRule) => table.absorb r.lhs (table.row r.right)) table

/-- The right symbol of a rule stands after all that the left one ends with, and the left symbol
after all that its parent stands after. -/
def beforeStep (last : BitTable) (rules : List BinaryRule) (table : BitTable) : BitTable :=
  rules.foldl (fun (table : BitTable) (r : BinaryRule) =>
    let table := table.absorb r.right (last.row r.left)
    table.absorb r.left (table.row r.lhs)) table

def afterStep (first : BitTable) (rules : List BinaryRule) (table : BitTable) : BitTable :=
  rules.foldl (fun (table : BitTable) (r : BinaryRule) =>
    let table := table.absorb r.left (first.row r.right)
    table.absorb r.right (table.row r.lhs)) table

def ofRules (nonTerminals terminals : Nat) (rules : Array Rule) : Pruning :=
  let binary := BinaryRule.all rules
  let single := singleTerminals nonTerminals terminals (TerminalRule.all rules)
  let first := saturate (firstStep binary) BitTable.room single
  let last := saturate (lastStep binary) BitTable.room single
  let none := BitTable.clear nonTerminals terminals
  { first
    last
    before := saturate (beforeStep last binary) BitTable.room none
    after := saturate (afterStep first binary) BitTable.room none }

end Pruning

end StochasticGrammar
