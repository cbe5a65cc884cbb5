import StochasticGrammar.Proofs.Memo.Columns
import StochasticGrammar.Proofs.Memo.Counts
import StochasticGrammar.Proofs.TameWeight

/-!
Memo tables against the history of what was done to them, as a list with the latest operation first. All
that a table answers and counts can be told from the last store of each cell and from the cells that were
stored since the last invalidation.
-/

namespace StochasticGrammar

namespace Operation

/-- The epoch of the last sync. -/
def epoch? : List (Operation Float) → Option Nat
  | [] => none
  | .sync epoch :: _ => some epoch
  | .invalidate :: earlier | .store .. :: earlier => epoch? earlier

/-- What was last stored for a cell, at any time. -/
def lastStore? (index : Nat) : List (Operation Float) → Option (Float × Bool)
  | [] => none
  | .store other value constant :: earlier =>
    if other = index then some (value, constant) else lastStore? index earlier
  | .invalidate :: earlier | .sync _ :: earlier => lastStore? index earlier

/-- The cells that were stored since the last invalidation; a sync to another epoch is one. -/
def recent : List (Operation Float) → List Nat
  | [] => []
  | .store index _ _ :: earlier => index :: recent earlier
  | .invalidate :: _ => []
  | .sync epoch :: earlier => if epoch? earlier = some epoch then recent earlier else []

theorem store_mem {index : Nat} {history : List (Operation Float)} {stored : Float × Bool}
    (last : lastStore? index history = some stored) : .store index stored.1 stored.2 ∈ history := by
  fun_induction lastStore? index history with
  | case1 => cases last
  | case2 value constant earlier =>
    cases last
    exact List.mem_cons_self
  | case3 other value constant earlier different ih => exact List.mem_cons_of_mem _ (ih last)
  | case4 earlier ih => exact List.mem_cons_of_mem _ (ih last)
  | case5 epoch earlier ih => exact List.mem_cons_of_mem _ (ih last)

end Operation

def isZero (answer : Float × Bool) : Bool := answer.2 && answer.1 == 0

def isOne (answer : Float × Bool) : Bool := answer.2 && answer.1 == 1

/-- What a lookup reads of the last store: constant zeros lose their sign. -/
def reading (stored : Float × Bool) : Float × Bool := if isZero stored then (0, true) else stored

theorem isOne_iff {answer : Float × Bool} : isOne answer = true ↔ answer = (1, true) := by
  constructor
  · intro one
    simp only [isOne, Bool.and_eq_true] at one
    exact Prod.ext (TameWeight.eq_one one.2) one.1
  · rintro rfl
    rfl

theorem isZero_zero : isZero (0, true) = true := TameWeight.zero_beq

theorem isZero_one : isZero (1, true) = false := TameWeight.one_beq

namespace MemoTable

open Operation

/-- What a table has of its history. -/
structure Follows (table : MemoTable Float) (history : List (Operation Float)) : Prop where
  formed : table.WellFormed
  epoch : table.epoch = epoch? history
  visits : ∀ index, index ∈ table.visits ↔ index ∈ recent history
  one : ∀ index : Nat, table.entries[index]? = some .one ↔ lastStore? index history = some (1, true)
  computed : ∀ {index slot : Nat}, table.entries[index]? = some (.computed slot) →
    index ∈ recent history ∧ ∃ stored, lastStore? index history = some stored ∧
      table.buffer[slot]? = some stored ∧ isZero stored = false ∧ stored ≠ (1, true)
  absent : ∀ {index : Nat}, table.entries[index]? = none → index ∈ recent history →
    ∃ stored, lastStore? index history = some stored ∧ isZero stored = true

variable {table : MemoTable Float} {history : List (Operation Float)}

theorem follows_empty : Follows {} [] where
  formed := wellFormed_empty
  epoch := rfl
  visits index := by simp [recent]
  one index := by simp [lastStore?]
  computed found := by simp at found
  absent _ fresh := by simp [recent] at fresh

namespace Follows

theorem invalidate (follows : table.Follows history) :
    table.invalidate.Follows (.invalidate :: history) where
  formed := .invalidate table
  epoch := follows.epoch
  visits index := by simp [MemoTable.invalidate, recent]
  one index := by
    rw [lastStore?, ← follows.one]
    rcases table.entry_invalidate index with ⟨kept, before⟩ | ⟨gone, before⟩
    · simp only [kept, before]
    · simp only [gone, before, reduceCtorEq]
  computed {index slot} found := by
    rcases table.entry_invalidate index with ⟨kept, -⟩ | ⟨gone, -⟩
    · rw [kept] at found
      cases found
    · rw [gone] at found
      cases found
  absent _ fresh := by simp [recent] at fresh

/-- A sync to another epoch leaves the same as an invalidation. -/
theorem sync (follows : table.Follows history) (epoch : Nat) :
    (table.sync epoch).Follows (.sync epoch :: history) := by
  have stored : recent (.sync epoch :: history) =
      if table.epoch = some epoch then recent history else recent (.invalidate :: history) := by
    rw [recent, follows.epoch]
    rfl
  unfold MemoTable.sync
  split
  · rename_i same
    rw [if_pos same] at stored
    exact ⟨follows.formed, same, stored ▸ follows.visits, follows.one, stored ▸ follows.computed,
      stored ▸ follows.absent⟩
  · rename_i moved
    rw [if_neg moved] at stored
    have emptied := follows.invalidate
    exact ⟨⟨emptied.formed.stored, emptied.formed.apart⟩, rfl, stored ▸ emptied.visits, emptied.one,
      stored ▸ emptied.computed, stored ▸ emptied.absent⟩

section

variable {index other : Nat} {value : Float} {constant : Bool}

theorem lastStore_self :
    lastStore? index (.store index value constant :: history) = some (value, constant) := if_pos rfl

theorem lastStore_of_ne (different : index ≠ other) :
    lastStore? other (.store index value constant :: history) = lastStore? other history := if_neg different

theorem mem_recent_store :
    other ∈ recent (.store index value constant :: history) ↔ other = index ∨ other ∈ recent history := List.mem_cons

theorem entry_store_self : (table.store index value constant).entries[index]? =
    if isZero (value, constant) then none
    else if isOne (value, constant) then some .one else some (.computed (table.slot index)) := getElem_store_self

theorem one_store_self :
    (table.store index value constant).entries[index]? = some .one ↔ (value, constant) = (1, true) := by
  rw [entry_store_self, ← isOne_iff]
  cases one : isOne (value, constant) with
  | true => simp [isOne_iff.mp one, isZero_one]
  | false => cases isZero (value, constant) <;> simp

theorem computed_store_self {slot : Nat}
    (found : (table.store index value constant).entries[index]? = some (.computed slot)) :
    (table.store index value constant).buffer[slot]? = some (value, constant) ∧
      isZero (value, constant) = false ∧ (value, constant) ≠ (1, true) := by
  rw [entry_store_self] at found
  split at found
  · cases found
  · rename_i zero
    split at found
    · cases found
    · rename_i one
      cases found
      rw [buffer_store (Bool.eq_false_iff.mpr zero) (Bool.eq_false_iff.mpr one)]
      exact ⟨getElem_place slot_le _, Bool.eq_false_iff.mpr zero, fun same => one (isOne_iff.mpr same)⟩

theorem absent_store_self (found : (table.store index value constant).entries[index]? = none) :
    isZero (value, constant) = true := by
  rw [entry_store_self] at found
  split at found
  · assumption
  · split at found <;> cases found

theorem store (follows : table.Follows history) (index : Nat) (value : Float) (constant : Bool) :
    (table.store index value constant).Follows (.store index value constant :: history) where
  formed := follows.formed.store index value constant
  epoch := (epoch_store table index value constant).trans follows.epoch
  visits other := by
    rw [visits_store, Std.HashSet.mem_insert, mem_recent_store, follows.visits, beq_iff_eq, eq_comm]
  one other := by
    by_cases same : index = other
    · subst same
      rw [one_store_self, lastStore_self, Option.some.injEq]
    · rw [getElem_store_of_ne same, lastStore_of_ne same, follows.one]
  computed {other slot} found := by
    by_cases same : index = other
    · subst same
      exact ⟨mem_recent_store.mpr (.inl rfl), _, lastStore_self, computed_store_self found⟩
    · rw [getElem_store_of_ne same] at found
      obtain ⟨fresh, stored, last, held, plain⟩ := follows.computed found
      have still := (getElem_buffer_store follows.formed same found value constant).trans held
      exact ⟨mem_recent_store.mpr (.inr fresh), stored, (lastStore_of_ne same).trans last, still, plain⟩
  absent {other} found fresh := by
    by_cases same : index = other
    · subst same
      exact ⟨_, lastStore_self, absent_store_self found⟩
    · rw [getElem_store_of_ne same] at found
      rw [lastStore_of_ne same]
      exact follows.absent found ((mem_recent_store.mp fresh).resolve_left (Ne.symm same))

end

theorem apply (follows : table.Follows history) (operation : Operation Float) :
    (table.apply operation).Follows (operation :: history) := by
  cases operation with
  | sync epoch => exact follows.sync epoch
  | invalidate => exact follows.invalidate
  | store index value constant => exact follows.store index value constant

/-- A cell is known by a store since the last invalidation, or by a constant one as its last store. -/
theorem lookup_cases (follows : table.Follows history) (index : Nat) :
    table.lookup? index = none ∧ index ∉ recent history ∧ lastStore? index history ≠ some (1, true) ∨
      ∃ stored, table.lookup? index = some (reading stored) ∧ lastStore? index history = some stored ∧
        (index ∈ recent history ∨ stored = (1, true)) := by
  have visits : table.visits.contains index = decide (index ∈ recent history) := by
    rw [Bool.eq_iff_iff, Std.HashSet.contains_iff_mem, follows.visits, decide_eq_true_iff]
  unfold MemoTable.lookup?
  rw [visits]
  cases found : table.entries[index]? with
  | none =>
    by_cases fresh : index ∈ recent history
    · obtain ⟨stored, last, zero⟩ := follows.absent found fresh
      refine .inr ⟨stored, ?_, last, .inl fresh⟩
      rw [reading, if_pos zero]
      exact if_pos (decide_eq_true fresh)
    · refine .inl ⟨if_neg (by simpa using fresh), fresh, ?_⟩
      rw [ne_eq, ← follows.one, found]
      simp only [reduceCtorEq, not_false_eq_true]
  | some entry =>
    cases entry with
    | one =>
      have last := (follows.one index).mp found
      refine .inr ⟨_, ?_, last, .inr rfl⟩
      rw [reading, isZero_one]
      rfl
    | computed slot =>
      obtain ⟨fresh, stored, last, held, zero, -⟩ := follows.computed found
      refine .inr ⟨stored, ?_, last, .inl fresh⟩
      rw [reading, zero]
      exact (if_pos (decide_eq_true fresh)).trans held

/-- There is an entry for what is known and not a constant zero. -/
theorem contains_entries (follows : table.Follows history) (index : Nat) :
    table.entries.contains index = (table.lookup? index).any fun answer => !isZero answer := by
  rw [Std.HashMap.contains_eq_isSome_getElem?]
  unfold MemoTable.lookup?
  cases found : table.entries[index]? with
  | none => cases table.visits.contains index <;> rfl
  | some entry =>
    cases entry with
    | one => rfl
    | computed slot =>
      obtain ⟨fresh, stored, last, held, zero, -⟩ := follows.computed found
      have visited : table.visits.contains index = true :=
        Std.HashSet.contains_iff_mem.mpr ((follows.visits index).mpr fresh)
      simp only [visited, if_true, held, Option.any_some, zero]
      rfl

theorem lookup_one_iff (follows : table.Follows history) (index : Nat) :
    table.lookup? index = some (1, true) ↔ table.entries[index]? = some .one := by
  constructor
  · intro answered
    rw [follows.one]
    rcases follows.lookup_cases index with ⟨unknown, -⟩ | ⟨stored, known, last, -⟩
    · rw [unknown] at answered
      cases answered
    · rw [known, Option.some.injEq, reading] at answered
      split at answered
      · have zero : isZero (1, true) = true := answered ▸ isZero_zero
        rw [isZero_one] at zero
        cases zero
      · rw [last, answered]
  · exact lookup_one

/-- An invalidation leaves the entries of what is known as constant one. -/
theorem contains_invalidate (follows : table.Follows history) (index : Nat) :
    table.invalidate.entries.contains index = (table.lookup? index).any isOne := by
  have ones : (table.lookup? index).any isOne = true ↔ table.entries[index]? = some .one := by
    rw [Option.any_eq_true, ← follows.lookup_one_iff]
    simp only [isOne_iff, exists_eq_right]
  rw [Bool.eq_iff_iff, ones, Std.HashMap.contains_eq_isSome_getElem?]
  rcases table.entry_invalidate index with ⟨kept, before⟩ | ⟨gone, before⟩
  · simp [kept, before]
  · simp [gone, before]

section

variable {capacity : Nat}

/-- Entries are of cells that were stored. -/
theorem stored_of_mem (follows : table.Follows history) {index : Nat} (present : index ∈ table.entries) :
    ∃ value constant, .store index value constant ∈ history := by
  obtain ⟨entry, found⟩ := Option.isSome_iff_exists.mp (Std.HashMap.mem_iff_isSome_getElem?.mp present)
  cases entry with
  | one => exact ⟨_, _, store_mem ((follows.one index).mp found)⟩
  | computed slot =>
    obtain ⟨-, stored, last, -⟩ := follows.computed found
    exact ⟨_, _, store_mem last⟩

theorem size_eq (follows : table.Follows history)
    (below : ∀ index value constant, .store index value constant ∈ history → index < capacity) :
    table.size = (List.range capacity).countP fun index => (table.lookup? index).any fun answer => !isZero answer := by
  have known (index : Nat) (present : index ∈ table.entries) : index < capacity := by
    obtain ⟨value, constant, stored⟩ := follows.stored_of_mem present
    exact below index value constant stored
  rw [MemoTable.size, size_eq_countP known]
  simp only [follows.contains_entries]

theorem ones_eq_countP (follows : table.Follows history)
    (below : ∀ index value constant, .store index value constant ∈ history → index < capacity) :
    table.ones = (List.range capacity).countP fun index => (table.lookup? index).any isOne := by
  have known (index : Nat) (present : index ∈ table.invalidate.entries) : index < capacity := by
    obtain ⟨value, constant, stored⟩ := follows.invalidate.stored_of_mem present
    exact below index value constant (List.mem_of_ne_of_mem (by simp) stored)
  rw [table.ones_eq, MemoTable.size, size_eq_countP known]
  simp only [follows.contains_invalidate]

end

end Follows

theorem follows_ofHistory (history : List (Operation Float)) : (ofHistory history).Follows history := by
  induction history with
  | nil => exact follows_empty
  | cons operation earlier ih => exact ih.apply operation

/-- A table is the map of the last stores, of all cells that were stored since the last invalidation and
of the constant ones. A store touches no other cell, since no slot is shared; with the marks of constants
laid out apart from the values it is the same; and the counts are numbers of cells of the map. -/
theorem answers_last_stores {capacity : Nat} (history : List (Operation Float))
    (below : ∀ index value constant, .store index value constant ∈ history → index < capacity) :
    let table := ofHistory history
    let columns := Columns.ofHistory history
    (∀ index, (table.lookup? index).isSome ↔
      index ∈ recent history ∨ lastStore? index history = some (1, true)) ∧
    (∀ index answer, table.lookup? index = some answer → ∃ value constant,
      lastStore? index history = some (value, constant) ∧
        answer = if constant && value == 0 then (0, true) else (value, constant)) ∧
    (∀ index value constant other, index ≠ other →
      (table.store index value constant).lookup? other = table.lookup? other) ∧
    (∀ index slot, table.entry? index = some (.computed slot) → slot < table.buffer.size ∧
      table.buffer[slot]? = lastStore? index history ∧
      ∀ other, table.entry? other = some (.computed slot) → other = index) ∧
    (∀ index, columns.lookup? index = table.lookup? index) ∧
    (∀ index slot, columns.entries[index]? = some (.computed slot) → ∃ value, columns.values[slot]? = some value ∧
      lastStore? index history = some (value, columns.constants.contains slot)) ∧
    table.size = (List.range capacity).countP
      (fun index => (table.lookup? index).any fun answer => !(answer.2 && answer.1 == 0)) ∧
    table.ones = (List.range capacity).countP
      (fun index => (table.lookup? index).any fun answer => answer.2 && answer.1 == 1) ∧
    table.visited = (recent history).dedup.length := by
  intro table columns
  have follows : table.Follows history := follows_ofHistory history
  have hold : columns.Hold table := Columns.hold_ofHistory history
  refine ⟨?_, ?_, ?_, ?_, hold.lookup, ?_, follows.size_eq below, follows.ones_eq_countP below,
    size_eq_length_dedup follows.visits⟩
  · intro index
    rcases follows.lookup_cases index with ⟨unknown, old, other⟩ | ⟨stored, known, last, fresh | rfl⟩
    · simp [unknown, old, other]
    · simp [known, fresh]
    · simp [known, last]
  · intro index answer answered
    rcases follows.lookup_cases index with ⟨unknown, -⟩ | ⟨stored, known, last, -⟩
    · rw [unknown] at answered
      cases answered
    · rw [known] at answered
      cases answered
      exact ⟨_, _, last, rfl⟩
  · intro index value constant other different
    exact lookup_store_of_ne follows.formed different value constant
  · intro index slot found
    obtain ⟨-, stored, last, held, -⟩ := follows.computed found
    exact ⟨follows.formed.stored found, held.trans last.symm, fun other same => follows.formed.apart same found⟩
  · intro index slot found
    rw [hold.entries] at found
    obtain ⟨-, stored, last, held, -⟩ := follows.computed found
    refine ⟨stored.1, ?_, ?_⟩
    · rw [hold.values, Array.getElem?_map, held]
      rfl
    · rw [hold.constants held, last]

/-- Slot 0 is reused after the second sync, for a value that is not constant. -/
theorem sample_answers_last_stores :
    let history : List (Operation Float) := [.store 1 0.5 false, .sync 2, .store 2 0.25 false, .store 0 1 true, .sync 1]
    let table := ofHistory history
    (∀ index value constant, .store index value constant ∈ history → index < 3) ∧
      (table.lookup? 0).isSome ∧ ¬ (table.lookup? 2).isSome ∧ table.visited = 1 := by
  intro history table
  have below : ∀ index value constant, .store index value constant ∈ history → index < 3 := by
    intro index value constant stored
    simp [history] at stored
    omega
  obtain ⟨known, -, -, -, -, -, -, -, visited⟩ := answers_last_stores history below
  refine ⟨below, (known 0).mpr (.inr rfl), ?_, visited⟩
  rw [known]
  simp [history, recent, lastStore?, epoch?]

end MemoTable

end StochasticGrammar
