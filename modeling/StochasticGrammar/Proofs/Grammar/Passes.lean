import Mathlib.Data.Finset.Prod
import StochasticGrammar.Proofs.Grammar.Pruning

/-!
The passes that fill the pruning tables. A pass visits every binary rule and says whether it has changed a
table; passes are made until one has not. As rows only get more bits, and have no more of them than there
are terminals, the passes come to an end, and two tables that one loop fills are those that each would have
been filled to alone.
-/

namespace StochasticGrammar

/-- A loop that repeats a step as long as it changes anything has ended after `passes`. -/
inductive Settles {σ : Type} (step : σ → σ) : (passes : Nat) → (start final : σ) → Prop
  | still {s : σ} : step s = s → Settles step 1 s s
  | again {passes : Nat} {s final : σ} : step s ≠ s → Settles step passes (step s) final →
      Settles step (passes + 1) s final

namespace BitTable

variable {table next : BitTable} {rows columns : Nat}

/-- The places of the set bits. -/
def places (table : BitTable) (rows columns : Nat) : Finset (Nat × Nat) :=
  (Finset.range rows ×ˢ Finset.range columns).filter fun place => table.get place.1 place.2

theorem card_places_le (table : BitTable) (rows columns : Nat) :
    (table.places rows columns).card ≤ rows * columns := by
  apply (Finset.card_filter_le _ _).trans
  rw [Finset.card_product, Finset.card_range, Finset.card_range]

theorem row_eq_zero (beyond : table.rows.size ≤ n) : table.row n = 0 := by
  rw [row, Array.getElem?_eq_none beyond, Option.getD_none]

theorem mem_places (fits : table.Fits rows columns) {n i : Nat} :
    (n, i) ∈ table.places rows columns ↔ (table.row n).testBit i = true := by
  rw [places, Finset.mem_filter, Finset.mem_product, Finset.mem_range, Finset.mem_range, get_iff fits]
  constructor
  · exact fun present => present.2
  · intro bit
    have inside : n < rows := by
      by_contra beyond
      rw [row_eq_zero (by rw [fits.height]; omega), Nat.zero_testBit] at bit
      cases bit
    have short := (get_iff fits).mpr bit
    rw [get, Bool.and_eq_true, decide_eq_true_iff, fits.width] at short
    exact ⟨⟨inside, short.1⟩, bit⟩

theorem eq_of_rows (fits : table.Fits rows columns) (fits' : next.Fits rows columns)
    (same : ∀ n, next.row n = table.row n) : next = table := by
  obtain ⟨width, words⟩ := table
  obtain ⟨width', words'⟩ := next
  have width_eq : width' = width := fits'.width.trans fits.width.symm
  have height : words'.size = words.size := fits'.height.trans fits.height.symm
  have words_eq : words' = words := by
    apply Array.ext height
    intro n inside' inside
    have equal := same n
    simpa only [row, Array.getElem?_eq_getElem inside', Array.getElem?_eq_getElem inside,
      Option.getD_some] using equal
  rw [width_eq, words_eq]

theorem eq_of_grows (fits : table.Fits rows columns) (fits' : next.Fits rows columns) (grows : table.Grows next)
    (back : next.Grows table) : next = table :=
  eq_of_rows fits fits' fun n => Nat.eq_of_testBit_eq fun i => Bool.eq_iff_iff.mpr ⟨back n i, grows n i⟩

theorem card_places_lt (fits : table.Fits rows columns) (fits' : next.Fits rows columns)
    (grows : table.Grows next) (changed : next ≠ table) :
    (table.places rows columns).card < (next.places rows columns).card := by
  apply Finset.card_lt_card
  refine ⟨?_, ?_⟩
  · rintro ⟨n, i⟩ present
    exact (mem_places fits').mpr (grows n i ((mem_places fits).mp present))
  · intro less
    refine changed (eq_of_grows fits fits' grows fun n i bit => ?_)
    exact (mem_places fits).mp (less ((mem_places fits').mpr bit))

/-- A step that only adds bits, and none beyond the columns. -/
def Growing (rows columns : Nat) (step : BitTable → BitTable) : Prop :=
  ∀ table : BitTable, table.Fits rows columns → (step table).Fits rows columns ∧ table.Grows (step table)

theorem growing_absorb {n : Nat} {bits : BitTable → Nat}
    (small : ∀ {table : BitTable}, table.Fits rows columns → bits table < 2 ^ columns) :
    Growing rows columns fun table => table.absorb n (bits table) :=
  fun table fits => ⟨fits.absorb n (small fits), grows_absorb table _ _⟩

theorem Growing.comp {step next : BitTable → BitTable} (first : Growing rows columns step)
    (second : Growing rows columns next) : Growing rows columns (next ∘ step) := by
  intro table fits
  obtain ⟨fits', grown⟩ := first table fits
  obtain ⟨fits'', grown'⟩ := second (step table) fits'
  exact ⟨fits'', grown.trans grown'⟩

/-- Two steps leave a table as it is only if each of them does. -/
theorem Growing.comp_eq_iff {step next : BitTable → BitTable} (first : Growing rows columns step)
    (second : Growing rows columns next) (fits : table.Fits rows columns) :
    (next ∘ step) table = table ↔ step table = table ∧ next table = table := by
  constructor
  · intro same
    obtain ⟨fits', grown⟩ := first table fits
    have back : (step table).Grows table := by
      have grown' := (second (step table) fits').2
      rwa [← Function.comp_apply (f := next), same] at grown'
    have still := eq_of_grows fits fits' grown back
    rw [Function.comp_apply, still] at same
    exact ⟨still, same⟩
  · intro still
    rw [Function.comp_apply, still.1, still.2]

/-- Every pass but the last sets another bit. -/
theorem settles {step : BitTable → BitTable} (adds : Growing rows columns step)
    (fits : table.Fits rows columns) :
    ∃ passes ≤ rows * columns + 1, Settles step passes table (saturate step room table) := by
  suffices counted : ∃ passes, Settles step passes table (saturate step room table) ∧
      passes + (table.places rows columns).card ≤
        ((saturate step room table).places rows columns).card + 1 by
    rcases counted with ⟨passes, ended, few⟩
    have bound := card_places_le (saturate step room table) rows columns
    exact ⟨passes, by omega, ended⟩
  fun_induction saturate step room table with
  | case1 table smaller ih =>
    rcases adds table fits with ⟨fits', grows⟩
    have changed : step table ≠ table := fun same => by
      rw [same] at smaller
      exact Nat.lt_irrefl _ smaller
    rcases ih fits' with ⟨passes, ended, few⟩
    have more := card_places_lt fits fits' grows changed
    exact ⟨passes + 1, .again changed ended, by omega⟩
  | case2 table full =>
    rcases adds table fits with ⟨fits', grows⟩
    have same := eq_of_rows fits fits' (rows_eq_of_room fits fits' grows (Nat.le_of_not_lt full))
    exact ⟨1, .still same, by omega⟩

/-- Passes over all items, repeated as long as they add anything, come to an end. -/
theorem Adds.settles {α : Type} {items : List α} {step : BitTable → α → BitTable}
    (adds : Adds rows columns items step) (fits : table.Fits rows columns) :
    ∃ passes ≤ rows * columns + 1, Settles (fun table : BitTable => items.foldl step table) passes table
      (StochasticGrammar.saturate (fun table : BitTable => items.foldl step table) room table) := by
  refine BitTable.settles (fun table fits => ?_) fits
  rcases adds.foldl fits with ⟨fits', grows, -⟩
  exact ⟨fits', grows⟩

end BitTable

/-- A step on two tables, with whether it has changed one of them. -/
abbrev TablePass := BitTable × BitTable → (BitTable × BitTable) × Bool

namespace TablePass

def none : TablePass := fun tables => (tables, false)

def andThen (first second : TablePass) : TablePass := fun tables =>
  let (tables, changed) := first tables
  let (tables, changed') := second tables
  (tables, changed || changed')

/-- A row of the first table takes in bits that may come from the table itself. -/
def left (n : Nat) (bits : BitTable → Nat) : TablePass := fun (table, other) =>
  let next := table.absorb n (bits table)
  ((next, other), decide (next ≠ table))

def right (n : Nat) (bits : BitTable → Nat) : TablePass := fun (other, table) =>
  let next := table.absorb n (bits table)
  ((other, next), decide (next ≠ table))

def ofEach (turn : BinaryRule → TablePass) (rules : List BinaryRule) : TablePass :=
  rules.foldr (fun rule rest => (turn rule).andThen rest) none

/-- The terminals at both ends, by one pass over the rules. -/
def ends : List BinaryRule → TablePass :=
  ofEach fun r => (left r.lhs (·.row r.left)).andThen (right r.lhs (·.row r.right))

/-- The terminals on both sides, by one pass over the rules. -/
def sides (first last : BitTable) : List BinaryRule → TablePass :=
  ofEach fun r => ((left r.right fun _ => last.row r.left).andThen (left r.left (·.row r.lhs))).andThen
    ((right r.left fun _ => first.row r.right).andThen (right r.right (·.row r.lhs)))

/-- Passes until one changes nothing. -/
def loop (pass : TablePass) (tables : BitTable × BitTable) : Option (BitTable × BitTable) :=
  match pass tables with
  | (tables, true) => pass |>.loop tables
  | (tables, false) => some tables
partial_fixpoint

/-- A pass takes either table a step of its own, which only adds bits, and says truly whether it did. -/
structure Makes (rows columns : Nat) (pass : TablePass) (step step' : BitTable → BitTable) : Prop where
  left : BitTable.Growing rows columns step
  right : BitTable.Growing rows columns step'
  tables : ∀ a b, (pass (a, b)).1 = (step a, step' b)
  still : ∀ {a b}, a.Fits rows columns → b.Fits rows columns →
    ((pass (a, b)).2 = false ↔ step a = a ∧ step' b = b)

namespace Makes

variable {rows columns : Nat} {pass pass' : TablePass} {f f' g g' : BitTable → BitTable}

theorem none : Makes rows columns none id id where
  left table fits := ⟨fits, .refl table⟩
  right table fits := ⟨fits, .refl table⟩
  tables _ _ := rfl
  still _ _ := by simp [TablePass.none]

theorem onLeft {n : Nat} {bits : BitTable → Nat}
    (small : ∀ {table : BitTable}, table.Fits rows columns → bits table < 2 ^ columns) :
    Makes rows columns (TablePass.left n bits) (fun table => table.absorb n (bits table)) id where
  left := BitTable.growing_absorb small
  right table fits := ⟨fits, .refl table⟩
  tables _ _ := rfl
  still _ _ := by simp [TablePass.left]

theorem onRight {n : Nat} {bits : BitTable → Nat}
    (small : ∀ {table : BitTable}, table.Fits rows columns → bits table < 2 ^ columns) :
    Makes rows columns (TablePass.right n bits) id fun table => table.absorb n (bits table) where
  left table fits := ⟨fits, .refl table⟩
  right := BitTable.growing_absorb small
  tables _ _ := rfl
  still _ _ := by simp [TablePass.right]

theorem andThen (first : Makes rows columns pass f g) (second : Makes rows columns pass' f' g') :
    Makes rows columns (pass.andThen pass') (f' ∘ f) (g' ∘ g) where
  left := first.left.comp second.left
  right := first.right.comp second.right
  tables a b := by simp [TablePass.andThen, first.tables, second.tables]
  still {a b} fits fits' := by
    have later := second.still (first.left a fits).1 (first.right b fits').1
    rw [first.left.comp_eq_iff second.left fits, first.right.comp_eq_iff second.right fits']
    simp only [TablePass.andThen, first.tables, Bool.or_eq_false_iff, first.still fits fits', later]
    constructor
    · rintro ⟨⟨same, same'⟩, next, next'⟩
      rw [same] at next
      rw [same'] at next'
      exact ⟨⟨same, next⟩, same', next'⟩
    · rintro ⟨⟨same, next⟩, same', next'⟩
      exact ⟨⟨same, same'⟩, by rw [same, next], by rw [same', next']⟩

theorem ofEach {turn : BinaryRule → TablePass} {step step' : BitTable → BinaryRule → BitTable}
    {rules : List BinaryRule} (each : ∀ r ∈ rules, Makes rows columns (turn r) (step · r) (step' · r)) :
    Makes rows columns (TablePass.ofEach turn rules) (rules.foldl step) (rules.foldl step') := by
  induction rules with
  | nil => exact none
  | cons r rest ih =>
    rw [List.forall_mem_cons] at each
    exact each.1.andThen (ih each.2)

/-- Either table is filled as by a loop of its own; the one that is full first waits for the other. -/
theorem loop_eq (makes : Makes rows columns pass f g) {passes passes' : Nat} {a a' b b' : BitTable}
    (fits : a.Fits rows columns) (fits' : b.Fits rows columns) (first : Settles f passes a a')
    (second : Settles g passes' b b') : pass.loop (a, b) = some (a', b') := by
  have next {a b} (fits : a.Fits rows columns) (fits' : b.Fits rows columns) :
      pass.loop (a, b) = if f a = a ∧ g b = b then some (a, b) else pass.loop (f a, g b) := by
    rw [loop]
    have made := makes.tables a b
    have still := makes.still fits fits'
    rcases answer : pass (a, b) with ⟨tables, changed⟩
    rw [answer] at made still
    cases made
    cases changed with
    | false =>
      obtain ⟨same, same'⟩ := still.mp rfl
      simp only [same, same', and_self, if_true]
    | true => rw [if_neg fun same => Bool.noConfusion (still.mpr same)]
  induction first generalizing passes' b with
  | @still a same =>
    induction second with
    | still same' => rw [next fits fits', if_pos ⟨same, same'⟩]
    | @again _ b _ changed _ ih =>
      rw [next fits fits', if_neg fun still => changed still.2, same]
      exact ih (makes.right b fits').1
  | @again passes a a' changed _ ih =>
    rw [next fits fits', if_neg fun still => changed still.1]
    cases second with
    | still same' =>
      rw [same']
      exact ih (makes.left a fits).1 fits' (.still same')
    | again _ later => exact ih (makes.left a fits).1 (makes.right b fits').1 later

end Makes

end TablePass

namespace RuleSet

open BitTable

variable {g : RuleSet} (formed : g.WellFormed)

include formed

theorem first_settles : ∃ passes ≤ g.nonTerminals * g.terminals + 1,
    Settles (Pruning.firstStep (BinaryRule.all g.rules)) passes
      (Pruning.singleTerminals g.nonTerminals g.terminals (TerminalRule.all g.rules))
      g.pruning.first := by
  rw [g.pruning_eq]
  exact (ends_adds (·.left)).settles (single_closed formed).1

theorem last_settles : ∃ passes ≤ g.nonTerminals * g.terminals + 1,
    Settles (Pruning.lastStep (BinaryRule.all g.rules)) passes
      (Pruning.singleTerminals g.nonTerminals g.terminals (TerminalRule.all g.rules))
      g.pruning.last := by
  rw [g.pruning_eq]
  exact (ends_adds (·.right)).settles (single_closed formed).1

theorem before_settles : ∃ passes ≤ g.nonTerminals * g.terminals + 1,
    Settles (Pruning.beforeStep g.pruning.last (BinaryRule.all g.rules)) passes
      (.clear g.nonTerminals g.terminals) g.pruning.before := by
  have last := fits_last formed
  rw [g.pruning_eq] at last ⊢
  exact (neighbours_adds last (·.right) (·.left)).settles (fits_clear _ _)

theorem after_settles : ∃ passes ≤ g.nonTerminals * g.terminals + 1,
    Settles (Pruning.afterStep g.pruning.first (BinaryRule.all g.rules)) passes
      (.clear g.nonTerminals g.terminals) g.pruning.after := by
  have first := fits_first formed
  rw [g.pruning_eq] at first ⊢
  exact (neighbours_adds first (·.left) (·.right)).settles (fits_clear _ _)

/-- One loop over both tables of ends comes to the tables that are filled one by one. -/
theorem ends_loop :
    let single := Pruning.singleTerminals g.nonTerminals g.terminals (TerminalRule.all g.rules)
    (TablePass.ends (BinaryRule.all g.rules)).loop (single, single) = some (g.pruning.first, g.pruning.last) := by
  intro single
  have fits : single.Fits g.nonTerminals g.terminals := (single_closed formed).1
  obtain ⟨_, -, first⟩ := first_settles formed
  obtain ⟨_, -, last⟩ := last_settles formed
  refine TablePass.Makes.loop_eq (TablePass.Makes.ofEach fun r _ => ?_) fits fits first last
  exact (TablePass.Makes.onLeft fun fits => fits.bits r.left).andThen (.onRight fun fits => fits.bits r.right)

/-- So does one loop over both tables of sides. -/
theorem sides_loop :
    let clear := BitTable.clear g.nonTerminals g.terminals
    (TablePass.sides g.pruning.first g.pruning.last (BinaryRule.all g.rules)).loop (clear, clear) =
      some (g.pruning.before, g.pruning.after) := by
  intro clear
  have fits := fits_clear g.nonTerminals g.terminals
  obtain ⟨_, -, before⟩ := before_settles formed
  obtain ⟨_, -, after⟩ := after_settles formed
  refine TablePass.Makes.loop_eq (TablePass.Makes.ofEach fun r _ => ?_) fits fits before after
  exact ((TablePass.Makes.onLeft fun _ => (fits_last formed).bits r.left).andThen
    (.onLeft fun fits => fits.bits r.lhs)).andThen
      ((TablePass.Makes.onRight fun _ => (fits_first formed).bits r.right).andThen
        (.onRight fun fits => fits.bits r.lhs))

end RuleSet

end StochasticGrammar
