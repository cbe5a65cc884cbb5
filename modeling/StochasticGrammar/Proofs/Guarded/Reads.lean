import StochasticGrammar.Proofs.Engine.Consistent
import StochasticGrammar.Proofs.Engine.Entries
import StochasticGrammar.Proofs.Grammar.Numbering
import StochasticGrammar.Proofs.Grammar.Pruning

/-!
Reads and differences that can fail. Beyond the end of a list and below zero there is nothing, instead of
a default; what is computed with them and gives a result has gone beyond no end. Conditions are read on
both sides, also where the first one would settle the matter.
-/

namespace StochasticGrammar

/-- A difference that is not below zero. -/
def minus? (a b : Nat) : Option Nat := if b ≤ a then some (a - b) else none

/-- The numbers from `low` to before `high`. -/
def upTo (low high : Nat) : List Nat := List.range' low (high - low)

theorem minus_eq {a b : Nat} (order : b ≤ a) : minus? a b = some (a - b) := if_pos order

theorem mem_upTo {low high n : Nat} : n ∈ upTo low high ↔ low ≤ n ∧ n < high := by
  rw [upTo, List.mem_range'_1]
  omega

/-- A loop whose steps all give a result gives that of the same loop over the results. -/
theorem foldlM_eq_some {α β : Type} {step : β → α → Option β} {next : β → α → β} {items : List α}
    (each : ∀ b, ∀ a ∈ items, step b a = some (next b a)) (b : β) :
    items.foldlM step b = some (items.foldl next b) := by
  induction items generalizing b with
  | nil => rfl
  | cons a items ih =>
    rw [List.foldlM_cons, each b a List.mem_cons_self, List.foldl_cons]
    exact ih (fun b' a' member => each b' a' (List.mem_cons_of_mem _ member)) (next b a)

/-- A loop whose steps change nothing. -/
theorem foldlM_of_kept {α β : Type} {step : β → α → Option β} {items : List α} {b : β}
    (each : ∀ a ∈ items, step b a = some b) : items.foldlM step b = some b := by
  induction items with
  | nil => rfl
  | cons a items ih =>
    rw [List.foldlM_cons, each a List.mem_cons_self]
    exact ih fun a' member => each a' (List.mem_cons_of_mem _ member)

namespace BitTable

def get? (table : BitTable) (n column : Nat) : Option Bool :=
  (table.rows[n]?).map fun row => decide (column < table.columns) && row.testBit column

theorem get_eq {table : BitTable} {rows columns n : Nat} (fits : table.Fits rows columns) (inside : n < rows)
    (column : Nat) : table.get? n column = some (table.get n column) := by
  have present : n < table.rows.size := by rwa [fits.height]
  simp [get?, get, row, present]

end BitTable

namespace MemoTable

/-- What is known of a cell, read from a slot that has to be there. -/
def read? (table : MemoTable Float) (index : Nat) : Option (Option (Float × Bool)) :=
  match table.entries[index]? with
  | some .one => some (some (1, true))
  | some (.computed slot) => if table.visits.contains index then (table.buffer[slot]?).map some else some none
  | none => some (if table.visits.contains index then some (0, true) else none)

/-- A store of a cell that has to be below the capacity, which is that of the set of visits. -/
def write? (capacity : Nat) (table : MemoTable Float) (index : Nat) (value : Float) (constant : Bool) :
    Option (MemoTable Float) :=
  if index < capacity then some (table.store index value constant) else none

theorem read_eq {table : MemoTable Float} (formed : table.WellFormed) (index : Nat) :
    table.read? index = some (table.lookup? index) := by
  unfold read? lookup?
  cases found : table.entries[index]? with
  | none => rfl
  | some entry =>
    cases entry with
    | one => rfl
    | computed slot =>
      simp only [Array.getElem?_eq_getElem (formed.stored found), Option.map_some]
      split <;> rfl

end MemoTable

/-- The rows of a grammar reach as far as its symbols and its rules do. -/
structure Grammar.Ranged (g : Grammar) : Prop where
  formed : g.rules.WellFormed
  sources : g.values.sources.size = g.rules.rules.size
  values : g.values.values.size = g.rules.rules.size

namespace Grammar

variable (g : Grammar)

def value? (rule : Nat) : Option Float := g.values.values[rule]?

def certain? (rule : Nat) : Option Bool := (g.values.sources[rule]?).map RuleSource.isCertain

/-- The numbers of the rules that a table has for a non-terminal. -/
def row? (table : Array (List BinaryRule)) (nt : Nat) : Option (List Nat) :=
  (table[nt]?).map fun row => row.map BinaryRule.index

/-- A rule by its number, unless it is a terminal one. -/
def binary? (index : Nat) : Option (Option BinaryRule) :=
  (g.rules.rules[index]?).map fun rule =>
    match rule.production with
    | .terminal _ => none
    | .binary left right => some ⟨index, rule.lhs, left, right⟩

def single? (nt : Nat) : Option Bool := (row? g.rules.index.binary nt).map List.isEmpty

/-- The terminal rules by non-terminal and terminal, in one list. -/
def terminalMap : Array (Option Nat) :=
  (TerminalRule.all g.rules.rules).foldl (fun (map : Array (Option Nat)) (r : TerminalRule) =>
      map.setIfInBounds (r.lhs * g.rules.terminals + r.terminal) (some r.index))
    (.replicate (g.rules.nonTerminals * g.rules.terminals) none)

def terminalRule? (nt terminal : Nat) : Option (Option Nat) :=
  if g.rules.nonTerminals ≤ nt ∨ g.rules.terminals ≤ terminal then some none
  else g.terminalMap[nt * g.rules.terminals + terminal]?

def mayCover? (tokens : Array Nat) (nt start stop : Nat) : Option Bool := do
  let first ← g.rules.pruning.first.get? nt (← tokens[start]?)
  let last ← g.rules.pruning.last.get? nt (← tokens[stop]?)
  let single ← g.single? nt
  return first && last && (start == stop || !single)

section

variable {g} (ranged : g.Ranged)

include ranged

theorem value_eq {rule : Nat} (inside : rule < g.rules.rules.size) :
    g.value? rule = some (g.values.value rule) := by
  have present : rule < g.values.values.size := by rwa [ranged.values]
  simp [value?, RuleValues.value, present]

theorem certain_eq {rule : Nat} (inside : rule < g.rules.rules.size) :
    g.certain? rule = some (g.values.isCertain rule) := by
  have present : rule < g.values.sources.size := by rwa [ranged.sources]
  simp [certain?, RuleValues.isCertain, present]

theorem all_of_binariesOf {nt : Nat} {r : BinaryRule} (member : r ∈ g.rules.binariesOf nt) :
    r ∈ BinaryRule.all g.rules.rules := by
  rw [RuleSet.binariesOf_eq ranged.formed] at member
  exact (List.mem_filter.mp member).1

theorem all_of_withLeft {nt : Nat} {r : BinaryRule} (member : r ∈ g.rules.withLeft nt) :
    r ∈ BinaryRule.all g.rules.rules := by
  rw [RuleSet.withLeft_eq ranged.formed] at member
  exact (List.mem_filter.mp member).1

theorem all_of_withRight {nt : Nat} {r : BinaryRule} (member : r ∈ g.rules.withRight nt) :
    r ∈ BinaryRule.all g.rules.rules := by
  rw [RuleSet.withRight_eq ranged.formed] at member
  exact (List.mem_filter.mp member).1

end

theorem row_eq {key : BinaryRule → Nat} {rules : List BinaryRule} {table : Array (List BinaryRule)} {count nt : Nat}
    (made : table = tabulate count key rules) (inside : nt < count) :
    row? table nt = some ((table[nt]?.getD []).map BinaryRule.index) := by
  rw [row?, made, getElem?_tabulate, if_pos inside]
  rfl

variable {g} {nt : Nat}

theorem row_binary (inside : nt < g.rules.nonTerminals) :
    row? g.rules.index.binary nt = some ((g.rules.binariesOf nt).map BinaryRule.index) :=
  row_eq (congrArg RuleIndex.binary (g.rules.index_eq.trans (RuleIndex.ofRules_eq _ _))) inside

theorem row_asLeft (inside : nt < g.rules.nonTerminals) :
    row? g.rules.index.asLeft nt = some ((g.rules.withLeft nt).map BinaryRule.index) :=
  row_eq (congrArg RuleIndex.asLeft (g.rules.index_eq.trans (RuleIndex.ofRules_eq _ _))) inside

theorem row_asRight (inside : nt < g.rules.nonTerminals) :
    row? g.rules.index.asRight nt = some ((g.rules.withRight nt).map BinaryRule.index) :=
  row_eq (congrArg RuleIndex.asRight (g.rules.index_eq.trans (RuleIndex.ofRules_eq _ _))) inside

theorem single_eq (inside : nt < g.rules.nonTerminals) : g.single? nt = some (g.rules.isSingle nt) := by
  rw [single?, row_binary inside, Option.map_some, RuleSet.isSingle]
  cases g.rules.binariesOf nt <;> rfl

theorem binary_eq {r : BinaryRule} (found : g.rules.rules[r.index]? = some ⟨r.lhs, .binary r.left r.right⟩) :
    g.binary? r.index = some (some r) := by
  rw [binary?, found]
  rfl

/-- Different pairs of symbols have different places. -/
theorem place_unique {a b c d columns : Nat} (left : b < columns) (right : d < columns)
    (same : a * columns + b = c * columns + d) : a = c ∧ b = d := by
  have first := congrArg (· / columns) same
  have second := congrArg (· % columns) same
  simp only [div_mod_digits left, div_mod_digits right] at first second
  exact ⟨first, second⟩

theorem size_written (place : TerminalRule → Nat) (rules : List TerminalRule) (map : Array (Option Nat)) :
    (rules.foldl (fun (map : Array (Option Nat)) (r : TerminalRule) =>
      map.setIfInBounds (place r) (some r.index)) map).size = map.size := by
  induction rules generalizing map with
  | nil => rfl
  | cons r rules ih => rw [List.foldl_cons, ih, Array.size_setIfInBounds]

/-- What is written to a place is there at the end when nothing else is written to it. -/
theorem getElem_written {rules : List TerminalRule} {place : TerminalRule → Nat} {map : Array (Option Nat)} {p : Nat}
    {written : Option Nat} (empty : map[p]? = some none)
    (each : ∀ r ∈ rules, place r = p → written = some r.index)
    (nothing : (∀ r ∈ rules, place r ≠ p) → written = none) :
    (rules.foldl (fun (map : Array (Option Nat)) (r : TerminalRule) =>
      map.setIfInBounds (place r) (some r.index)) map)[p]? = some written := by
  induction rules using List.reverseRecOn generalizing written with
  | nil =>
    rw [nothing (by simp)]
    exact empty
  | append_singleton rules r ih =>
    rw [List.foldl_append, List.foldl_cons, List.foldl_nil]
    by_cases here : place r = p
    · rw [each r (List.mem_append_right _ List.mem_cons_self) here, here]
      have inside : p < map.size := (Array.getElem?_eq_some_iff.mp empty).1
      rw [Array.getElem?_setIfInBounds_self_of_lt]
      rwa [size_written place]
    · rw [Array.getElem?_setIfInBounds_ne here]
      refine ih (fun r' member => each r' (List.mem_append_left _ member)) ?_
      intro others
      apply nothing
      intro r' member
      rcases List.mem_append.mp member with early | last
      · exact others r' early
      · rwa [List.mem_singleton.mp last]

section

variable (formed : g.rules.WellFormed)

include formed

theorem terminalMap_eq {terminal : Nat} (inside : nt < g.rules.nonTerminals) (known : terminal < g.rules.terminals) :
    g.terminalMap[nt * g.rules.terminals + terminal]? = some (g.rules.terminalRule? nt terminal) := by
  have fits : nt * g.rules.terminals + terminal < g.rules.nonTerminals * g.rules.terminals := by
    calc nt * g.rules.terminals + terminal
        < (nt + 1) * g.rules.terminals := by rw [Nat.add_mul, Nat.one_mul]; omega
      _ ≤ g.rules.nonTerminals * g.rules.terminals := Nat.mul_le_mul_right _ inside
  apply getElem_written
  · rw [Array.getElem?_replicate, if_pos fits]
  · intro r member same
    obtain ⟨rfl, rfl⟩ := place_unique (formed.terminal_of_mem member).2 known same
    exact (RuleSet.terminalRule_eq_some_iff formed).mpr (mem_allTerminal.mp member)
  · intro others
    cases found : g.rules.terminalRule? nt terminal with
    | none => rfl
    | some rule =>
      have member : ⟨rule, nt, terminal⟩ ∈ TerminalRule.all g.rules.rules :=
        mem_allTerminal.mpr ((RuleSet.terminalRule_eq_some_iff formed).mp found)
      exact absurd rfl (others _ member)

/-- No rule has a terminal outside of the alphabet. -/
theorem terminalRule_eq (nt terminal : Nat) :
    g.terminalRule? nt terminal = some (g.rules.terminalRule? nt terminal) := by
  unfold terminalRule?
  split
  · rename_i beyond
    cases found : g.rules.terminalRule? nt terminal with
    | none => rfl
    | some rule =>
      have present := (RuleSet.terminalRule_eq_some_iff formed).mp found
      have inside := formed.terminal (Array.mem_of_getElem? present)
      omega
  · exact terminalMap_eq formed (by omega) (by omega)

theorem mayCover_eq {tokens : Array Nat} {start stop : Nat} (inside : nt < g.rules.nonTerminals)
    (begins : start < tokens.size) (ends : stop < tokens.size) :
    g.mayCover? tokens nt start stop = some ((g.sentence tokens).mayCover nt start stop) := by
  have first := BitTable.get_eq (RuleSet.fits_first formed) inside
  have last := BitTable.get_eq (RuleSet.fits_last formed) inside
  simp [mayCover?, Sentence.mayCover, Grammar.sentence, Grammar.weighted, first, last, begins, ends, single_eq inside]

end

end Grammar

end StochasticGrammar
