import StochasticGrammar.Chart.Tables

/-!
A memo table as a map. In a well-formed table every value has a slot of its own, so a store changes
the answer for its own cell and no other, and what an invalidation leaves are the constant ones.
-/

namespace StochasticGrammar

/-- What a table gives back of a stored value: constant zeros and ones lose their representation. -/
def remembered {W : Type} [Weight W] (value : W) (constant : Bool) : W × Bool :=
  if constant && value == 0 then (0, true)
  else if constant && value == 1 then (1, true)
  else (value, constant)

namespace MemoTable

variable {W : Type}

structure WellFormed (table : MemoTable W) : Prop where
  stored : ∀ {index slot : Nat}, table.entries[index]? = some (.computed slot) →
    slot < table.buffer.size
  apart : ∀ {index other slot : Nat}, table.entries[index]? = some (.computed slot) →
    table.entries[other]? = some (.computed slot) → index = other

theorem wellFormed_empty : WellFormed ({} : MemoTable W) where
  stored found := by simp at found
  apart found := by simp at found

theorem entry_invalidate (table : MemoTable W) (index : Nat) :
    table.invalidate.entries[index]? = some .one ∧ table.entries[index]? = some .one ∨
      table.invalidate.entries[index]? = none ∧ table.entries[index]? ≠ some .one := by
  simp only [invalidate, Std.HashMap.getElem?_filter']
  cases table.entries[index]? with
  | none => simp
  | some entry => cases entry <;> simp

theorem WellFormed.invalidate (table : MemoTable W) : table.invalidate.WellFormed where
  stored {index} _ found := by
    rcases table.entry_invalidate index with ⟨kept, -⟩ | ⟨gone, -⟩
    · rw [kept] at found
      cases found
    · rw [gone] at found
      cases found
  apart {index} _ _ found := by
    rcases table.entry_invalidate index with ⟨kept, -⟩ | ⟨gone, -⟩
    · rw [kept] at found
      cases found
    · rw [gone] at found
      cases found

theorem WellFormed.sync {table : MemoTable W} (formed : table.WellFormed) (epoch : Nat) :
    (table.sync epoch).WellFormed := by
  unfold MemoTable.sync
  split
  · exact formed
  · exact ⟨(WellFormed.invalidate table).stored, (WellFormed.invalidate table).apart⟩

theorem slot_free {table : MemoTable W} (formed : table.WellFormed) {index other slot : Nat}
    (different : index ≠ other) (found : table.entries[other]? = some (.computed slot)) :
    table.slot index ≠ slot := by
  have inside := formed.stored found
  unfold MemoTable.slot
  split
  · rename_i own here
    split
    · intro same
      subst same
      exact different (formed.apart here found)
    · omega
  · omega

theorem getElem_place {table : MemoTable W} {slot : Nat} (fits : slot ≤ table.buffer.size)
    (cell : W × Bool) : (table.place slot cell)[slot]? = some cell := by
  unfold place
  split
  · simp [*]
  · have last : slot = table.buffer.size := by omega
    simp [last]

theorem getElem_place_of_ne {table : MemoTable W} {slot other : Nat}
    (fits : slot ≤ table.buffer.size) (different : slot ≠ other) (cell : W × Bool) :
    (table.place slot cell)[other]? = table.buffer[other]? := by
  unfold place
  split
  · simp [different]
  · have last : slot = table.buffer.size := by omega
    have beyond : other ≠ table.buffer.size := by omega
    simp [Array.getElem?_push, beyond]

variable [Weight W]

theorem WellFormed.store {table : MemoTable W} (formed : table.WellFormed) (index : Nat) (value : W)
    (constant : Bool) : (table.store index value constant).WellFormed := by
  have grown := @size_le_store W table index _ value constant
  have self := @getElem_store_self W table index _ value constant
  have others {other : Nat} (different : index ≠ other) :=
    @getElem_store_of_ne W table index _ value constant other different
  constructor
  · intro other slot found
    by_cases same : index = other
    · subst same
      rw [self] at found
      split at found
      · cases found
      · split at found
        · cases found
        · rename_i zero one
          cases found
          rw [buffer_store (Bool.eq_false_iff.mpr zero) (Bool.eq_false_iff.mpr one)]
          exact slot_lt_place
    · rw [others same] at found
      exact Nat.lt_of_lt_of_le (formed.stored found) grown
  · intro first second slot here there
    by_cases left : index = first <;> by_cases right : index = second
    · omega
    · subst left
      rw [others right] at there
      rw [self] at here
      split at here
      · cases here
      · split at here
        · cases here
        · cases here
          exact absurd rfl (slot_free formed right there)
    · subst right
      rw [others left] at here
      rw [self] at there
      split at there
      · cases there
      · split at there
        · cases there
        · cases there
          exact absurd rfl (slot_free formed left here)
    · rw [others left] at here
      rw [others right] at there
      exact formed.apart here there

theorem lookup_store_self (table : MemoTable W) (index : Nat) (value : W) (constant : Bool) :
    (table.store index value constant).lookup? index = some (remembered value constant) := by
  unfold lookup? remembered
  rw [getElem_store_self, visits_store]
  by_cases zero : (constant && value == 0) = true
  · simp [zero]
  · by_cases one : (constant && value == 1) = true
    · simp [zero, one]
    · rw [buffer_store (Bool.eq_false_iff.mpr zero) (Bool.eq_false_iff.mpr one)]
      simp [zero, one, getElem_place slot_le]

theorem epoch_store (table : MemoTable W) (index : Nat) (value : W) (constant : Bool) :
    (table.store index value constant).epoch = table.epoch := by
  unfold store
  split
  · rfl
  · split <;> rfl

/-- The slot of another cell is left as it is. -/
theorem getElem_buffer_store {table : MemoTable W} (formed : table.WellFormed) {index other slot : Nat}
    (different : index ≠ other) (found : table.entries[other]? = some (.computed slot)) (value : W)
    (constant : Bool) : (table.store index value constant).buffer[slot]? = table.buffer[slot]? := by
  have free := slot_free formed different found
  unfold store
  split
  · rfl
  · split
    · rfl
    · exact getElem_place_of_ne slot_le free _

theorem lookup_store_of_ne {table : MemoTable W} (formed : table.WellFormed) {index other : Nat}
    (different : index ≠ other) (value : W) (constant : Bool) :
    (table.store index value constant).lookup? other = table.lookup? other := by
  have visits : (table.store index value constant).visits.contains other =
      table.visits.contains other := by
    rw [visits_store]
    simp [different]
  unfold lookup?
  rw [getElem_store_of_ne different, visits]
  cases found : table.entries[other]? with
  | none => rfl
  | some entry =>
    cases entry with
    | one => rfl
    | computed slot => simp only [getElem_buffer_store formed different found]

/-- A store as an update of the map from cells to answers. -/
theorem lookup_store {table : MemoTable W} (formed : table.WellFormed) (index other : Nat)
    (value : W) (constant : Bool) :
    (table.store index value constant).lookup? other =
      if index = other then some (remembered value constant) else table.lookup? other := by
  split
  · rename_i same
    subst same
    exact lookup_store_self table index value constant
  · rename_i different
    exact lookup_store_of_ne formed different value constant

theorem lookup_one {table : MemoTable W} {index : Nat}
    (found : table.entries[index]? = some .one) : table.lookup? index = some (1, true) := by
  unfold lookup?
  rw [found]

theorem lookup_invalidate {table : MemoTable W} {index : Nat} {answer : W × Bool}
    (known : table.invalidate.lookup? index = some answer) :
    table.entries[index]? = some .one ∧ answer = (1, true) := by
  rcases table.entry_invalidate index with ⟨kept, before⟩ | ⟨gone, -⟩
  · rw [lookup_one kept] at known
    cases known
    exact ⟨before, rfl⟩
  · simp only [lookup?, gone] at known
    simp [MemoTable.invalidate] at known

end MemoTable

end StochasticGrammar
