import StochasticGrammar.Proofs.Memo.Lookup

/-!
A memo table laid out in columns: the values by slot, and apart from them the set of the slots that hold
constants. A store writes the value and the mark of its slot together, so no lookup reads a mark that an
earlier holder of the slot has left.
-/

namespace StochasticGrammar

/-- What is done to a table. -/
inductive Operation (W : Type) where
  | sync (epoch : Nat)
  | invalidate
  | store (index : Nat) (value : W) (constant : Bool)

/-- A memo table whose marks of constants stand apart from the values. -/
structure Columns (W : Type) where
  entries : Std.HashMap Nat MemoEntry := ∅
  values : Array W := #[]
  constants : Std.HashSet Nat := ∅
  visits : Std.HashSet Nat := ∅
  epoch : Option Nat := none

/-- A set of slots with one slot in it or not. -/
def marked (slots : Std.HashSet Nat) (slot : Nat) (constant : Bool) : Std.HashSet Nat :=
  if constant then slots.insert slot else slots.erase slot

theorem contains_marked (slots : Std.HashSet Nat) (slot other : Nat) (constant : Bool) :
    (marked slots slot constant).contains other = if slot = other then constant else slots.contains other := by
  unfold marked
  split
  · by_cases same : slot = other <;> simp [*]
  · by_cases same : slot = other <;> simp [*]

namespace Columns

variable {W : Type}

def invalidate (columns : Columns W) : Columns W where
  entries := columns.entries.filter fun _ entry => entry == .one
  epoch := columns.epoch

def sync (columns : Columns W) (epoch : Nat) : Columns W :=
  if columns.epoch = some epoch then columns
  else { columns.invalidate with epoch := some epoch }

/-- The slot that a cell has in the values. -/
def own? (columns : Columns W) (index : Nat) : Option Nat :=
  match columns.entries[index]? with
  | some (.computed slot) => if slot < columns.values.size then some slot else none
  | _ => none

variable [Weight W]

def lookup? (columns : Columns W) (index : Nat) : Option (W × Bool) :=
  match columns.entries[index]? with
  | some .one => some (1, true)
  | some (.computed slot) =>
    if columns.visits.contains index then
      columns.values[slot]?.map fun value => (value, columns.constants.contains slot)
    else none
  | none => if columns.visits.contains index then some (0, true) else none

def store (columns : Columns W) (index : Nat) (value : W) (constant : Bool) : Columns W :=
  let visits := columns.visits.insert index
  if constant && value == 0 then
    { columns with entries := columns.entries.erase index, visits }
  else if constant && value == 1 then
    { columns with entries := columns.entries.insert index .one, visits }
  else
    match columns.own? index with
    | some slot =>
      let values := columns.values.setIfInBounds slot value
      { columns with values, constants := marked columns.constants slot constant, visits }
    | none =>
      let slot := columns.values.size
      let entries := columns.entries.insert index (.computed slot)
      let values := columns.values.push value
      { columns with entries, values, constants := marked columns.constants slot constant, visits }

def apply (columns : Columns W) : Operation W → Columns W
  | .sync epoch => columns.sync epoch
  | .invalidate => columns.invalidate
  | .store index value constant => columns.store index value constant

end Columns

def MemoTable.apply {W : Type} [Weight W] (table : MemoTable W) : Operation W → MemoTable W
  | .sync epoch => table.sync epoch
  | .invalidate => table.invalidate
  | .store index value constant => table.store index value constant

section

variable {W : Type} [Weight W]

/-- A new table after some operations, of which the latest comes first. -/
def MemoTable.ofHistory (history : List (Operation W)) : MemoTable W :=
  history.foldr (fun operation table => table.apply operation) {}

def Columns.ofHistory (history : List (Operation W)) : Columns W :=
  history.foldr (fun operation columns => columns.apply operation) {}

end

/-- The columns hold the same as the table in all slots of the table. Marks elsewhere may be any. -/
structure Columns.Hold {W : Type} (columns : Columns W) (table : MemoTable W) : Prop where
  entries : ∀ index : Nat, columns.entries[index]? = table.entries[index]?
  values : columns.values = table.buffer.map Prod.fst
  constants : ∀ {slot : Nat} {cell : W × Bool}, table.buffer[slot]? = some cell →
    columns.constants.contains slot = cell.2
  visits : columns.visits = table.visits
  epoch : columns.epoch = table.epoch

namespace Columns.Hold

variable {W : Type} {columns : Columns W} {table : MemoTable W}

theorem invalidate (hold : columns.Hold table) : columns.invalidate.Hold table.invalidate where
  entries index := by
    simp only [Columns.invalidate, MemoTable.invalidate, Std.HashMap.getElem?_filter', hold.entries]
  values := by simp [Columns.invalidate, MemoTable.invalidate]
  constants found := by simp [MemoTable.invalidate] at found
  visits := rfl
  epoch := hold.epoch

theorem sync (hold : columns.Hold table) (epoch : Nat) : (columns.sync epoch).Hold (table.sync epoch) := by
  unfold Columns.sync MemoTable.sync
  rw [hold.epoch]
  split
  · exact hold
  · have kept := hold.invalidate
    exact ⟨kept.entries, kept.values, kept.constants, kept.visits, rfl⟩

theorem size_values (hold : columns.Hold table) : columns.values.size = table.buffer.size := by
  rw [hold.values, Array.size_map]

/-- The slot that a store writes to. -/
theorem slot_eq (hold : columns.Hold table) (index : Nat) :
    table.slot index = (columns.own? index).getD columns.values.size := by
  unfold MemoTable.slot Columns.own?
  rw [hold.entries, hold.size_values]
  cases table.entries[index]? with
  | none => rfl
  | some entry =>
    cases entry with
    | one => rfl
    | computed slot => by_cases inside : slot < table.buffer.size <;> simp [inside]

theorem of_own {index slot : Nat} (own : columns.own? index = some slot) :
    columns.entries[index]? = some (.computed slot) ∧ slot < columns.values.size := by
  unfold Columns.own? at own
  split at own
  · rename_i found
    split at own
    · cases own
      exact ⟨found, ‹_›⟩
    · cases own
  · cases own

/-- Value and mark of a slot are written together. -/
theorem constants_place (hold : columns.Hold table) {slot other : Nat} (fits : slot ≤ table.buffer.size)
    (value : W) (constant : Bool) {cell : W × Bool} (found : (table.place slot (value, constant))[other]? = some cell) :
    (marked columns.constants slot constant).contains other = cell.2 := by
  rw [contains_marked]
  split
  · rename_i same
    rw [← same, MemoTable.getElem_place fits] at found
    cases found
    rfl
  · rename_i different
    rw [MemoTable.getElem_place_of_ne fits different] at found
    exact hold.constants found

variable [Weight W]

theorem store (hold : columns.Hold table) (index : Nat) (value : W) (constant : Bool) :
    (columns.store index value constant).Hold (table.store index value constant) := by
  unfold Columns.store MemoTable.store
  split
  · refine ⟨fun other => ?_, hold.values, hold.constants, by simp only [hold.visits], hold.epoch⟩
    simp only [Std.HashMap.getElem?_erase, hold.entries]
  · split
    · refine ⟨fun other => ?_, hold.values, hold.constants, by simp only [hold.visits], hold.epoch⟩
      simp only [Std.HashMap.getElem?_insert, hold.entries]
    · have slot := hold.slot_eq index
      have fits : table.slot index ≤ table.buffer.size := MemoTable.slot_le
      cases own : columns.own? index with
      | none =>
        rw [own, Option.getD_none] at slot
        refine ⟨fun other => ?_, ?_, fun found => ?_, by simp only [hold.visits], hold.epoch⟩
        · simp only [Std.HashMap.getElem?_insert, hold.entries, slot]
        · have fresh : ¬ columns.values.size < table.buffer.size := by rw [hold.size_values]; exact Nat.lt_irrefl _
          simp only [slot, MemoTable.place]
          rw [if_neg fresh, Array.map_push, hold.values]
        · simp only [← slot]
          exact hold.constants_place fits value constant found
      | some place =>
        rw [own, Option.getD_some] at slot
        obtain ⟨entry, inside⟩ := of_own own
        refine ⟨fun other => ?_, ?_, fun found => ?_, by simp only [hold.visits], hold.epoch⟩
        · simp only [Std.HashMap.getElem?_insert, ← hold.entries, slot]
          split
          · rename_i same
            rw [← beq_iff_eq.mp same, entry]
          · rfl
        · rw [hold.size_values] at inside
          simp only [slot, MemoTable.place]
          rw [if_pos inside, Array.map_setIfInBounds, hold.values]
        · simp only [← slot]
          exact hold.constants_place fits value constant found

theorem apply (hold : columns.Hold table) (operation : Operation W) :
    (columns.apply operation).Hold (table.apply operation) := by
  cases operation with
  | sync epoch => exact hold.sync epoch
  | invalidate => exact hold.invalidate
  | store index value constant => exact hold.store index value constant

theorem lookup (hold : columns.Hold table) (index : Nat) : columns.lookup? index = table.lookup? index := by
  unfold Columns.lookup? MemoTable.lookup?
  rw [hold.entries, hold.visits]
  cases table.entries[index]? with
  | none => rfl
  | some entry =>
    cases entry with
    | one => rfl
    | computed slot =>
      simp only [hold.values, Array.getElem?_map, Option.map_map]
      cases found : table.buffer[slot]? with
      | none => rfl
      | some cell => simp only [Option.map_some, Function.comp_apply, hold.constants found]

end Columns.Hold

theorem Columns.hold_ofHistory {W : Type} [Weight W] (history : List (Operation W)) :
    (Columns.ofHistory history).Hold (MemoTable.ofHistory history) := by
  induction history with
  | nil =>
    exact ⟨fun _ => rfl, by simp [Columns.ofHistory, MemoTable.ofHistory],
      fun found => by simp [MemoTable.ofHistory] at found, rfl, rfl⟩
  | cons operation earlier ih => exact ih.apply operation

end StochasticGrammar
