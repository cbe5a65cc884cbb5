import Mathlib.Algebra.Order.Ring.Nat
import StochasticGrammar.Proofs.SpanGrid

/-!
Numbering the triples of a grid in words of 64 bits. A sum or a product that no word holds is nothing, and
so is what is divided by zero. A grid whose capacity a word holds is numbered and read back all the same,
so that no step leaves the words.
-/

namespace StochasticGrammar

/-- A number that a word holds. -/
def fitting? (n : Nat) : Option Nat := if n < 2 ^ 64 then some n else none

def plus? (a b : Nat) : Option Nat := fitting? (a + b)

def times? (a b : Nat) : Option Nat := fitting? (a * b)

def quotient? (a b : Nat) : Option Nat := if b = 0 then none else some (a / b)

def remainder? (a b : Nat) : Option Nat := if b = 0 then none else some (a % b)

section

variable {a b : Nat}

theorem plus_eq (small : a + b < 2 ^ 64) : plus? a b = some (a + b) := if_pos small

theorem times_eq (small : a * b < 2 ^ 64) : times? a b = some (a * b) := if_pos small

theorem quotient_eq (positive : 0 < b) : quotient? a b = some (a / b) := if_neg (Nat.ne_of_gt positive)

theorem remainder_eq (positive : 0 < b) : remainder? a b = some (a % b) := if_neg (Nat.ne_of_gt positive)

end

namespace SpanGrid

variable (grid : SpanGrid)

def capacity? : Option Nat := do times? (← times? grid.nonTerminals grid.length) grid.length

def place? (start stop nonTerminal : Nat) : Option Nat := do
  let row ← plus? (← times? nonTerminal grid.length) start
  plus? (← times? row grid.length) stop

/-- The number of a triple, which is looked for only when the grid holds the triple. -/
def number? (start stop nonTerminal : Nat) : Option (Option Nat) :=
  if start > stop ∨ stop ≥ grid.length ∨ nonTerminal ≥ grid.nonTerminals then some none
  else (grid.place? start stop nonTerminal).map some

/-- The triple of a number. The capacity comes first, so that nothing is divided in a grid without cells. -/
def numbered? (index : Nat) : Option (Option (Nat × Nat × Nat)) := do
  if index ≥ (← grid.capacity?) then return none
  let stop ← remainder? index grid.length
  let start ← remainder? (← quotient? index grid.length) grid.length
  let nonTerminal ← quotient? index (← times? grid.length grid.length)
  if start > stop then return none
  return some (start, stop, nonTerminal)

variable {grid} {start stop nonTerminal index : Nat}

/-- The first of the two products is no larger than the capacity. -/
theorem capacity_eq_iff : grid.capacity? = some grid.capacity ↔ grid.capacity < 2 ^ 64 := by
  constructor
  · intro h
    obtain ⟨first, -, second⟩ := Option.bind_eq_some_iff.mp h
    simp only [times?, fitting?, Option.ite_none_right_eq_some, Option.some.injEq] at second
    exact second.2 ▸ second.1
  · intro small
    have first : grid.nonTerminals * grid.length < 2 ^ 64 := by
      rcases Nat.eq_zero_or_pos grid.length with none | positive
      · simp [none]
      · exact Nat.lt_of_le_of_lt (Nat.le_mul_of_pos_right _ positive) small
    simp only [capacity?, times_eq first, Option.bind_eq_bind, Option.bind_some]
    exact times_eq small

example : (⟨4294967296, 1⟩ : SpanGrid).capacity? = none := by decide

section

variable (small : grid.capacity < 2 ^ 64)

include small

/-- The steps only grow, and the last one ends below the capacity. -/
theorem place_eq (found : grid.index? start stop nonTerminal = some index) :
    grid.place? start stop nonTerminal = some index := by
  have below := index_lt_capacity found
  obtain ⟨-, rfl⟩ := index_eq_some_iff.mp found
  have rows : (nonTerminal * grid.length + start) * grid.length < 2 ^ 64 := by omega
  have row : nonTerminal * grid.length + start < 2 ^ 64 :=
    Nat.lt_of_le_of_lt (Nat.le_mul_of_pos_right _ (length_pos below)) rows
  have layers : nonTerminal * grid.length < 2 ^ 64 := by omega
  simp only [place?, times_eq layers, plus_eq row, times_eq rows, Option.bind_eq_bind, Option.bind_some]
  exact plus_eq (Nat.lt_trans below small)

theorem number_eq (start stop nonTerminal : Nat) :
    grid.number? start stop nonTerminal = some (grid.index? start stop nonTerminal) := by
  unfold number?
  split
  · rename_i outside
    have beyond : ¬grid.Holds start stop nonTerminal := by
      rintro ⟨order, inside, known⟩
      omega
    rw [index?, if_neg beyond]
  · rename_i inside
    have holds : grid.Holds start stop nonTerminal := ⟨by omega, by omega, by omega⟩
    obtain ⟨index, found⟩ := Option.isSome_iff_exists.mp (index_isSome_iff.mpr holds)
    rw [place_eq small found, found]
    rfl

theorem numbered_eq (index : Nat) : grid.numbered? index = some (grid.triple? index) := by
  simp only [numbered?, capacity_eq_iff.mpr small, Option.bind_eq_bind, Option.bind_some]
  split
  · rename_i beyond
    rw [triple_eq_none_iff.mpr (.inl beyond)]
    rfl
  · rename_i inside
    have below : index < grid.capacity := by omega
    have positive := length_pos below
    have layer : grid.length * grid.length ≤ grid.capacity := by
      rw [capacity, Nat.mul_assoc]
      exact Nat.le_mul_of_pos_left _ (nonTerminals_pos below)
    have square : grid.length * grid.length < 2 ^ 64 := Nat.lt_of_le_of_lt layer small
    simp only [remainder_eq positive, quotient_eq positive, times_eq square,
      quotient_eq (Nat.mul_pos positive positive), Option.bind_some, triple?, below, true_and]
    split
    · rename_i late
      rw [if_neg (Nat.not_le_of_lt late)]
      rfl
    · rename_i order
      rw [if_pos (Nat.le_of_not_lt order)]
      rfl

/-- In a grid whose capacity a word holds, exactly the triples with a span of the string and a known
non-terminal have a number. It is below the capacity and gives the triple back, and a number is that of the
triple it gives, if it gives one, so that no two triples share a number. No step of either way goes beyond
a word or divides by zero. -/
theorem numbers_tell_triples (start stop nonTerminal key : Nat) :
    grid.capacity? = some grid.capacity ∧
    grid.number? start stop nonTerminal = some (grid.index? start stop nonTerminal) ∧
    grid.numbered? key = some (grid.triple? key) ∧
    ((grid.index? start stop nonTerminal).isSome ↔
      start ≤ stop ∧ stop < grid.length ∧ nonTerminal < grid.nonTerminals) ∧
    (∀ index, grid.index? start stop nonTerminal = some index →
      index < grid.capacity ∧ grid.triple? index = some (start, stop, nonTerminal) ∧
        ∀ start' stop' nonTerminal', grid.index? start' stop' nonTerminal' = some index →
          (start', stop', nonTerminal') = (start, stop, nonTerminal)) ∧
    (∀ start' stop' nonTerminal', grid.triple? key = some (start', stop', nonTerminal') →
      grid.index? start' stop' nonTerminal' = some key) ∧
    (grid.triple? key = none ↔ grid.capacity ≤ key ∨
      ∃ start' stop' nonTerminal', stop' < start' ∧ start' < grid.length ∧ nonTerminal' < grid.nonTerminals ∧
        key = (nonTerminal' * grid.length + start') * grid.length + stop') := by
  refine ⟨capacity_eq_iff.mpr small, number_eq small start stop nonTerminal, numbered_eq small key,
    index_isSome_iff, ?_, fun _ _ _ => triple_eq_some_iff.mp, triple_eq_none_iff⟩
  intro index found
  refine ⟨index_lt_capacity found, triple_index found, ?_⟩
  intro start' stop' nonTerminal' shared
  obtain ⟨rfl, rfl, rfl⟩ := (index_inj shared found).mp rfl
  rfl

end

/-- The longest string whose capacity a word holds, and one without tokens for as many non-terminals as a
word can count. -/
theorem widest_numbers_tell_triples :
    let grid : SpanGrid := ⟨4294967295, 1⟩
    let blank : SpanGrid := ⟨0, 18446744073709551615⟩
    grid.capacity < 2 ^ 64 ∧ blank.capacity < 2 ^ 64 ∧
      grid.number? 4294967294 4294967294 0 = some (some 18446744065119617024) ∧
      grid.triple? 18446744065119617024 = some (4294967294, 4294967294, 0) ∧
      grid.triple? 4294967295 = none ∧ blank.numbered? 0 = some none := by
  intro grid blank
  have small : grid.capacity < 2 ^ 64 := by decide
  have nothing : blank.capacity < 2 ^ 64 := by decide
  have last : grid.index? 4294967294 4294967294 0 = some 18446744065119617024 := by decide
  -- the second number of the second row is that of a span which starts at one and stops at zero
  obtain ⟨-, number, -, -, back, -, none⟩ := numbers_tell_triples small 4294967294 4294967294 0 4294967295
  obtain ⟨-, -, numbered, -⟩ := numbers_tell_triples nothing 0 0 0 0
  refine ⟨small, nothing, number.trans (congrArg some last), (back _ last).2.1, ?_, numbered⟩
  exact none.mpr (.inr ⟨1, 0, 0, by decide, by decide, by decide, by decide⟩)

end SpanGrid

end StochasticGrammar
