import Mathlib.Algebra.Order.Ring.Nat
import StochasticGrammar.Proofs.Grammar.Numbering

/-!
The pruning tables are closed under the rules. A step only adds bits to rows of bounded length, so the
room that is left tells whether it added any; where the repetition ends, no rule adds to a row.
-/

namespace StochasticGrammar

namespace BitTable

/-- Rows of the right number, each with no more bits than there are columns. -/
structure Fits (table : BitTable) (rows columns : Nat) : Prop where
  width : table.columns = columns
  height : table.rows.size = rows
  bits : ∀ n, table.row n < 2 ^ columns

/-- All bits of the one table are in the other. -/
def Grows (table next : BitTable) : Prop :=
  ∀ n i : Nat, (table.row n).testBit i = true → (next.row n).testBit i = true

theorem Grows.refl (table : BitTable) : table.Grows table := fun _ _ bit => bit

theorem Grows.trans {a b c : BitTable} (first : a.Grows b) (second : b.Grows c) : a.Grows c :=
  fun n i bit => second n i (first n i bit)

variable {table next : BitTable} {rows columns : Nat}

theorem row_absorb (table : BitTable) (n bits m : Nat) :
    (table.absorb n bits).row m =
      if n = m ∧ n < table.rows.size then table.row m ||| bits else table.row m := by
  simp only [absorb, row, Array.getElem?_modify]
  by_cases same : n = m
  · subst same
    by_cases inside : n < table.rows.size
    · simp [inside]
    · simp [inside]
  · simp [same]

theorem grows_absorb (table : BitTable) (n bits : Nat) : table.Grows (table.absorb n bits) := by
  intro m i bit
  rw [row_absorb]
  split
  · rw [Nat.testBit_or, bit, Bool.true_or]
  · exact bit

theorem absorb_bits {n bits : Nat} (inside : n < table.rows.size) {i : Nat}
    (bit : bits.testBit i = true) : ((table.absorb n bits).row n).testBit i = true := by
  rw [row_absorb, if_pos ⟨rfl, inside⟩, Nat.testBit_or, bit, Bool.or_true]

theorem Fits.absorb (fits : table.Fits rows columns) (n : Nat) {bits : Nat} (small : bits < 2 ^ columns) :
    (table.absorb n bits).Fits rows columns where
  width := fits.width
  height := by
    rw [← fits.height]
    exact Array.size_modify
  bits m := by
    rw [row_absorb]
    split
    · exact Nat.or_lt_two_pow (fits.bits m) small
    · exact fits.bits m

theorem fits_clear (rows columns : Nat) : (clear rows columns).Fits rows columns where
  width := rfl
  height := Array.size_replicate
  bits n := by
    have none : (clear rows columns).row n = 0 := by
      simp only [clear, row, Array.getElem?_replicate]
      split <;> rfl
    rw [none]
    exact Nat.two_pow_pos columns

theorem le_of_bits {a b : Nat} (all : ∀ i : Nat, a.testBit i = true → b.testBit i = true) : a ≤ b := by
  have both : a ||| b = b := by
    apply Nat.eq_of_testBit_eq
    intro i
    rw [Nat.testBit_or]
    cases bit : a.testBit i with
    | false => rw [Bool.false_or]
    | true => rw [all i bit, Bool.true_or]
  rw [← both]
  exact Nat.left_le_or

theorem sum_le_sum {l l' : List Nat} (length : l.length = l'.length)
    (le : ∀ n : Nat, l[n]?.getD 0 ≤ l'[n]?.getD 0) : l.sum ≤ l'.sum ∧ (l'.sum ≤ l.sum → l = l') := by
  induction l generalizing l' with
  | nil =>
    have empty : l' = [] := List.length_eq_zero_iff.mp length.symm
    subst empty
    exact ⟨Nat.le_refl _, fun _ => rfl⟩
  | cons a l ih =>
    cases l' with
    | nil => cases length
    | cons b l' =>
      rcases ih (Nat.succ.inj length) fun n => le (n + 1) with ⟨rest, equal⟩
      have first : a ≤ b := le 0
      simp only [List.sum_cons]
      refine ⟨Nat.add_le_add first rest, fun less => ?_⟩
      rw [equal (by omega), Nat.le_antisymm first (by omega)]

theorem sum_le_bound {l : List Nat} {bound : Nat} (below : ∀ n : Nat, l[n]?.getD 0 ≤ bound) :
    l.sum ≤ l.length * bound := by
  induction l with
  | nil => exact Nat.zero_le _
  | cons a l ih =>
    have first : a ≤ bound := below 0
    have rest := ih fun n => below (n + 1)
    rw [List.sum_cons, List.length_cons, Nat.succ_mul, Nat.add_comm]
    exact Nat.add_le_add rest first

theorem row_eq_toList (table : BitTable) (n : Nat) : table.row n = table.rows.toList[n]?.getD 0 := by
  rw [row, Array.getElem?_toList]

theorem room_eq (table : BitTable) :
    table.room = table.rows.size * 2 ^ table.columns - table.rows.toList.sum := by
  rw [room, Nat.shiftLeft_eq, ← Array.foldl_toList, List.sum_eq_foldl]

/-- A table that grows and has as much room as before is the same. -/
theorem rows_eq_of_room (fits : table.Fits rows columns) (fits' : next.Fits rows columns)
    (grows : table.Grows next) (room : table.room ≤ next.room) (n : Nat) : next.row n = table.row n := by
  have length : table.rows.toList.length = next.rows.toList.length := by
    rw [Array.length_toList, Array.length_toList, fits.height, fits'.height]
  have le : ∀ m : Nat, table.rows.toList[m]?.getD 0 ≤ next.rows.toList[m]?.getD 0 := by
    intro m
    rw [← row_eq_toList, ← row_eq_toList]
    exact le_of_bits (grows m)
  have bound : next.rows.toList.sum ≤ next.rows.toList.length * 2 ^ columns := by
    apply sum_le_bound
    intro m
    rw [← row_eq_toList]
    exact Nat.le_of_lt (fits'.bits m)
  rcases sum_le_sum length le with ⟨less, equal⟩
  rw [room_eq, room_eq, fits.height, fits'.height, fits.width, fits'.width] at room
  rw [Array.length_toList, fits'.height] at bound
  have same := equal (by omega)
  rw [row_eq_toList, row_eq_toList, same]

/-- A step for each item that only adds bits, and no bits beyond the columns. -/
structure Adds {α : Type} (rows columns : Nat) (items : List α) (step : BitTable → α → BitTable) :
    Prop where
  grows : ∀ table : BitTable, ∀ item ∈ items, table.Grows (step table item)
  fits : ∀ {table : BitTable}, ∀ item ∈ items, table.Fits rows columns →
    (step table item).Fits rows columns

variable {α : Type} {items : List α} {step : BitTable → α → BitTable}

/-- The steps of a pass, one after the other, add what each adds to a table in between. -/
theorem Adds.foldl (adds : Adds rows columns items step) (fits : table.Fits rows columns) :
    (items.foldl step table).Fits rows columns ∧ table.Grows (items.foldl step table) ∧
      ∀ item ∈ items, ∃ between : BitTable, between.Fits rows columns ∧ table.Grows between ∧
        (step between item).Grows (items.foldl step table) := by
  induction items generalizing table with
  | nil => exact ⟨fits, Grows.refl table, by simp⟩
  | cons first rest ih =>
    have others : Adds rows columns rest step :=
      ⟨fun table item member => adds.grows table item (List.mem_cons_of_mem _ member),
        fun item member => adds.fits item (List.mem_cons_of_mem _ member)⟩
    have grown := adds.grows table first List.mem_cons_self
    rcases ih others (adds.fits first List.mem_cons_self fits) with ⟨fits', later, each⟩
    refine ⟨fits', grown.trans later, ?_⟩
    intro item member
    rcases List.mem_cons.mp member with rfl | member
    · exact ⟨table, fits, Grows.refl table, later⟩
    · rcases each item member with ⟨between, between_fits, before, after⟩
      exact ⟨between, between_fits, grown.trans before, after⟩

/-- Where passes are repeated as long as they add anything, no item adds to the result. -/
theorem Adds.saturate (adds : Adds rows columns items step) (fits : table.Fits rows columns) :
    let final := StochasticGrammar.saturate (fun table => items.foldl step table) room table
    final.Fits rows columns ∧ table.Grows final ∧
      ∀ item ∈ items, ∃ between : BitTable, between.Fits rows columns ∧ final.Grows between ∧
        (step between item).Grows final := by
  intro final
  have kept : final.Fits rows columns ∧ table.Grows final := by
    apply saturate_invariant (P := fun s => s.Fits rows columns ∧ table.Grows s)
    · intro s kept
      rcases kept with ⟨fits, before⟩
      rcases adds.foldl fits with ⟨fits', grown, -⟩
      exact ⟨fits', before.trans grown⟩
    · exact ⟨fits, Grows.refl table⟩
  rcases adds.foldl kept.1 with ⟨fits', grown, each⟩
  have settled := saturate_settled (fun table => items.foldl step table) room table
  have rows_eq := rows_eq_of_room kept.1 fits' grown settled
  refine ⟨kept.1, kept.2, ?_⟩
  intro item member
  rcases each item member with ⟨between, between_fits, before, after⟩
  refine ⟨between, between_fits, before, ?_⟩
  intro n i bit
  rw [← rows_eq n]
  exact after n i bit

theorem get_iff {n column : Nat} (fits : table.Fits rows columns) :
    table.get n column = true ↔ (table.row n).testBit column = true := by
  rw [get, Bool.and_eq_true, decide_eq_true_iff, fits.width, and_iff_right_iff_imp]
  intro bit
  apply Decidable.byContradiction
  intro beyond
  have large : 2 ^ columns ≤ 2 ^ column := Nat.pow_le_pow_right (by decide) (by omega)
  have none := Nat.testBit_lt_two_pow (Nat.lt_of_lt_of_le (fits.bits n) large)
  rw [none] at bit
  cases bit

end BitTable

namespace RuleSet

open BitTable

variable {g : RuleSet}

theorem neighbours_adds {ends : BitTable} (ends_fit : ends.Fits g.nonTerminals g.terminals)
    (near far : BinaryRule → Nat) :
    Adds g.nonTerminals g.terminals (BinaryRule.all g.rules)
      fun (table : BitTable) (r : BinaryRule) =>
        let table := table.absorb (near r) (ends.row (far r))
        table.absorb (far r) (table.row r.lhs) := by
  constructor
  · intro table r _
    exact (grows_absorb table _ _).trans (grows_absorb _ _ _)
  · intro table r _ fits
    have siblings := fits.absorb (near r) (ends_fit.bits (far r))
    exact siblings.absorb _ (siblings.bits r.lhs)

/-- The neighbours on one side are the ends of the sibling there, or else those of the parent. -/
theorem neighbours_closed {ends : BitTable} (ends_fit : ends.Fits g.nonTerminals g.terminals)
    {near far : BinaryRule → Nat}
    (range : ∀ r ∈ BinaryRule.all g.rules, near r < g.nonTerminals ∧ far r < g.nonTerminals) :
    let table := saturate
      (fun table : BitTable => (BinaryRule.all g.rules).foldl
        (fun (table : BitTable) (r : BinaryRule) =>
          let table := table.absorb (near r) (ends.row (far r))
          table.absorb (far r) (table.row r.lhs)) table)
      room (clear g.nonTerminals g.terminals)
    table.Fits g.nonTerminals g.terminals ∧
      ∀ r ∈ BinaryRule.all g.rules, ∀ i : Nat,
        ((ends.row (far r)).testBit i = true → (table.row (near r)).testBit i = true) ∧
          ((table.row r.lhs).testBit i = true → (table.row (far r)).testBit i = true) := by
  rcases (neighbours_adds ends_fit near far).saturate (fits_clear g.nonTerminals g.terminals) with ⟨fits, -, each⟩
  refine ⟨fits, ?_⟩
  intro r member i
  rcases each r member with ⟨between, between_fits, before, after⟩
  have siblings := between_fits.absorb (near r) (ends_fit.bits (far r))
  constructor
  · intro bit
    have inside : near r < between.rows.size := by
      rw [between_fits.height]
      exact (range r member).1
    exact after _ _ (grows_absorb _ _ _ _ _ (absorb_bits inside bit))
  · intro bit
    have inside : far r < (between.absorb (near r) (ends.row (far r))).rows.size := by
      rw [siblings.height]
      exact (range r member).2
    exact after _ _ (absorb_bits inside (grows_absorb _ _ _ _ _ (before _ _ bit)))

theorem ends_adds (part : BinaryRule → Nat) :
    Adds g.nonTerminals g.terminals (BinaryRule.all g.rules)
      fun (table : BitTable) (r : BinaryRule) => table.absorb r.lhs (table.row (part r)) := by
  constructor
  · intro table r _
    exact grows_absorb table _ _
  · intro table r _ fits
    exact fits.absorb _ (fits.bits (part r))

variable (formed : g.WellFormed)

include formed

theorem single_closed :
    let single := Pruning.singleTerminals g.nonTerminals g.terminals (TerminalRule.all g.rules)
    single.Fits g.nonTerminals g.terminals ∧
      ∀ r ∈ TerminalRule.all g.rules, (single.row r.lhs).testBit r.terminal = true := by
  have adds : Adds g.nonTerminals g.terminals (TerminalRule.all g.rules)
      fun (table : BitTable) (r : TerminalRule) => table.absorb r.lhs (1 <<< r.terminal) := by
    constructor
    · intro table r _
      exact grows_absorb table _ _
    · intro table r member fits
      apply fits.absorb
      rw [Nat.one_shiftLeft]
      exact Nat.pow_lt_pow_right (by decide) (formed.terminal_of_mem member).2
  rcases adds.foldl (fits_clear g.nonTerminals g.terminals) with ⟨fits, -, each⟩
  refine ⟨fits, ?_⟩
  intro r member
  rcases each r member with ⟨between, between_fits, -, after⟩
  have inside : r.lhs < between.rows.size := by
    rw [between_fits.height]
    exact (formed.terminal_of_mem member).1
  apply after
  apply absorb_bits inside
  rw [Nat.one_shiftLeft, Nat.testBit_two_pow_self]

/-- The ends on one side pass from that part of a rule to its left-hand side. -/
theorem ends_closed (part : BinaryRule → Nat) :
    let table := saturate
      (fun table : BitTable => (BinaryRule.all g.rules).foldl
        (fun (table : BitTable) (r : BinaryRule) => table.absorb r.lhs (table.row (part r))) table)
      room (Pruning.singleTerminals g.nonTerminals g.terminals (TerminalRule.all g.rules))
    table.Fits g.nonTerminals g.terminals ∧
      (∀ r ∈ TerminalRule.all g.rules, (table.row r.lhs).testBit r.terminal = true) ∧
      ∀ r ∈ BinaryRule.all g.rules, ∀ i : Nat, (table.row (part r)).testBit i = true →
        (table.row r.lhs).testBit i = true := by
  rcases single_closed formed with ⟨single, leaves⟩
  rcases (ends_adds part).saturate single with ⟨fits, grown, each⟩
  refine ⟨fits, fun r member => grown _ _ (leaves r member), ?_⟩
  intro r member i bit
  rcases each r member with ⟨between, between_fits, before, after⟩
  have inside : r.lhs < between.rows.size := by
    rw [between_fits.height]
    exact (formed.binary_of_mem member).1
  exact after _ _ (absorb_bits inside (before _ _ bit))

theorem fits_first : g.pruning.first.Fits g.nonTerminals g.terminals := by
  rw [g.pruning_eq]
  exact (ends_closed formed (·.left)).1

theorem fits_last : g.pruning.last.Fits g.nonTerminals g.terminals := by
  rw [g.pruning_eq]
  exact (ends_closed formed (·.right)).1

theorem fits_before : g.pruning.before.Fits g.nonTerminals g.terminals := by
  have last := fits_last formed
  rw [g.pruning_eq] at last ⊢
  exact (neighbours_closed last fun r member => (formed.binary_of_mem member).2.symm).1

theorem fits_after : g.pruning.after.Fits g.nonTerminals g.terminals := by
  have first := fits_first formed
  rw [g.pruning_eq] at first ⊢
  exact (neighbours_closed first fun r member => (formed.binary_of_mem member).2).1

theorem first_terminal {r : TerminalRule} (member : r ∈ TerminalRule.all g.rules) :
    g.pruning.first.get r.lhs r.terminal = true := by
  rw [get_iff (fits_first formed), g.pruning_eq]
  exact (ends_closed formed (·.left)).2.1 r member

theorem last_terminal {r : TerminalRule} (member : r ∈ TerminalRule.all g.rules) :
    g.pruning.last.get r.lhs r.terminal = true := by
  rw [get_iff (fits_last formed), g.pruning_eq]
  exact (ends_closed formed (·.right)).2.1 r member

variable {r : BinaryRule} (member : r ∈ BinaryRule.all g.rules) {terminal : Nat}

include member

theorem first_binary (starts : g.pruning.first.get r.left terminal = true) :
    g.pruning.first.get r.lhs terminal = true := by
  rw [get_iff (fits_first formed), g.pruning_eq] at starts ⊢
  exact (ends_closed formed (·.left)).2.2 r member terminal starts

theorem last_binary (ends : g.pruning.last.get r.right terminal = true) :
    g.pruning.last.get r.lhs terminal = true := by
  rw [get_iff (fits_last formed), g.pruning_eq] at ends ⊢
  exact (ends_closed formed (·.right)).2.2 r member terminal ends

theorem before_closed :
    (g.pruning.last.get r.left terminal = true → g.pruning.before.get r.right terminal = true) ∧
      (g.pruning.before.get r.lhs terminal = true → g.pruning.before.get r.left terminal = true) := by
  rw [get_iff (fits_last formed), get_iff (fits_before formed), get_iff (fits_before formed),
    get_iff (fits_before formed)]
  have last := fits_last formed
  rw [g.pruning_eq] at last ⊢
  have range : ∀ r ∈ BinaryRule.all g.rules, r.right < g.nonTerminals ∧ r.left < g.nonTerminals :=
    fun r member => (formed.binary_of_mem member).2.symm
  exact (neighbours_closed last range).2 r member terminal

theorem after_closed :
    (g.pruning.first.get r.right terminal = true → g.pruning.after.get r.left terminal = true) ∧
      (g.pruning.after.get r.lhs terminal = true → g.pruning.after.get r.right terminal = true) := by
  rw [get_iff (fits_first formed), get_iff (fits_after formed), get_iff (fits_after formed),
    get_iff (fits_after formed)]
  have first := fits_first formed
  rw [g.pruning_eq] at first ⊢
  have range : ∀ r ∈ BinaryRule.all g.rules, r.left < g.nonTerminals ∧ r.right < g.nonTerminals :=
    fun r member => (formed.binary_of_mem member).2
  exact (neighbours_closed first range).2 r member terminal

end RuleSet

end StochasticGrammar
