import StochasticGrammar.Chart.Cell
import StochasticGrammar.MemoTable
import StochasticGrammar.SpanGrid

/-!
The two memo tables of a string and what they know. Cells outside the grid are known to be zero.
-/

namespace StochasticGrammar

structure Tables (W : Type) where
  inside : MemoTable W := {}
  outside : MemoTable W := {}
  deriving Inhabited

/-- How many cells have been stored, without a bound. -/
structure Counters where
  inside : Nat := 0
  outside : Nat := 0
  deriving DecidableEq, Repr, Inhabited

/-- The tables with the number of cells stored into each. -/
structure Work (W : Type) where
  tables : Tables W
  counters : Counters
  deriving Inhabited

namespace MemoTable

variable {W : Type} {table : MemoTable W} {index : Nat}

theorem slot_le : table.slot index ≤ table.buffer.size := by
  unfold slot
  split
  · split
    · exact Nat.le_of_lt ‹_›
    · exact Nat.le_refl _
  · exact Nat.le_refl _

theorem size_le_place {slot : Nat} {cell : W × Bool} :
    table.buffer.size ≤ (table.place slot cell).size := by
  unfold place
  split <;> simp

theorem slot_lt_place {cell : W × Bool} :
    table.slot index < (table.place (table.slot index) cell).size := by
  have fits := @slot_le W table index
  unfold place
  split
  · simpa
  · simp
    omega

variable [Weight W] {value : W} {constant : Bool}

theorem visits_store : (table.store index value constant).visits = table.visits.insert index := by
  unfold store
  split
  · rfl
  · split <;> rfl

theorem size_le_store : table.buffer.size ≤ (table.store index value constant).buffer.size := by
  unfold store
  split
  · exact Nat.le_refl _
  · split
    · exact Nat.le_refl _
    · exact size_le_place

theorem getElem_store_self : (table.store index value constant).entries[index]? =
    if constant && value == 0 then none
    else if constant && value == 1 then some .one
    else some (.computed (table.slot index)) := by
  unfold store
  split
  · simp
  · split <;> simp

theorem getElem_store_of_ne {other : Nat} (h : index ≠ other) :
    (table.store index value constant).entries[other]? = table.entries[other]? := by
  unfold store
  split
  · simp [Std.HashMap.getElem?_erase, h]
  · split <;> simp [Std.HashMap.getElem?_insert, h]

theorem buffer_store (zero : (constant && value == 0) = false)
    (one : (constant && value == 1) = false) : (table.store index value constant).buffer =
      table.place (table.slot index) (value, constant) := by
  simp [store, zero, one]

/-- A cell is known when it is constant one, or visited and its slot, if it has one, is there. -/
theorem lookup_isSome (table : MemoTable W) (index : Nat) :
    (table.lookup? index).isSome = match table.entries[index]? with
      | some .one => true
      | some (.computed slot) => table.visits.contains index && decide (slot < table.buffer.size)
      | none => table.visits.contains index := by
  unfold lookup?
  cases table.entries[index]? with
  | none => cases table.visits.contains index <;> simp
  | some entry =>
    cases entry with
    | one => rfl
    | computed slot =>
      cases table.visits.contains index with
      | false => simp
      | true => by_cases h : slot < table.buffer.size <;> simp [h]

theorem store_known : ((table.store index value constant).lookup? index).isSome := by
  rw [lookup_isSome, getElem_store_self, visits_store]
  cases zero : constant && value == 0 with
  | true => simp
  | false =>
    cases one : constant && value == 1 with
    | true => simp
    | false =>
      rw [buffer_store zero one]
      simpa using slot_lt_place

theorem store_keeps_known {other : Nat} (h : (table.lookup? other).isSome) :
    ((table.store index value constant).lookup? other).isSome := by
  by_cases same : index = other
  · subst same
    exact store_known
  · have size := @size_le_store W table index _ value constant
    rw [lookup_isSome] at h ⊢
    rw [getElem_store_of_ne same, visits_store]
    cases found : table.entries[other]? with
    | none => simp_all
    | some entry =>
      cases entry with
      | one => rfl
      | computed slot =>
        simp only [found, Bool.and_eq_true, decide_eq_true_eq, Std.HashSet.contains_insert,
          Bool.or_eq_true] at h ⊢
        exact ⟨.inr h.1, Nat.lt_of_lt_of_le h.2 size⟩

end MemoTable

namespace Sentence

variable {W : Type} (s : Sentence W)

def grid : SpanGrid := ⟨s.tokens.size, s.rules.nonTerminals⟩

/-- Whether the span and the non-terminal of a cell are those of the sentence. -/
def Within : Cell → Prop
  | .inside start stop nt | .outside start stop nt => s.grid.Holds start stop nt

instance : (cell : Cell) → Decidable (s.Within cell)
  | .inside .. | .outside .. => inferInstanceAs (Decidable (s.grid.Holds ..))

variable [Weight W]

@[specialize] def known? (tables : Tables W) : Cell → Option (W × Bool)
  | .inside start stop nt =>
    match s.grid.index? start stop nt with
    | some index => tables.inside.lookup? index
    | none => some (0, true)
  | .outside start stop nt =>
    match s.grid.index? start stop nt with
    | some index => tables.outside.lookup? index
    | none => some (0, true)

@[specialize] def record (work : Work W) (cell : Cell) (value : W) (constant : Bool) : Work W :=
  match work, cell with
  | ⟨⟨inside, outside⟩, counters⟩, .inside start stop nt =>
    match s.grid.index? start stop nt with
    | some index =>
      ⟨⟨inside.store index value constant, outside⟩,
        { counters with inside := counters.inside + 1 }⟩
    | none => ⟨⟨inside, outside⟩, counters⟩
  | ⟨⟨inside, outside⟩, counters⟩, .outside start stop nt =>
    match s.grid.index? start stop nt with
    | some index =>
      ⟨⟨inside, outside.store index value constant⟩,
        { counters with outside := counters.outside + 1 }⟩
    | none => ⟨⟨inside, outside⟩, counters⟩

def unknown (table : MemoTable W) : Nat :=
  (List.range s.grid.capacity).countP fun index => (table.lookup? index).isNone

def unknowns (tables : Tables W) : Nat := s.unknown tables.inside + s.unknown tables.outside

end Sentence

section

variable {W : Type} [Weight W] {s : Sentence W}

theorem unknown_store_lt {table : MemoTable W} {index : Nat} (value : W) (constant : Bool)
    (inside : index < s.grid.capacity) (new : table.lookup? index = none) :
    s.unknown (table.store index value constant) < s.unknown table := by
  obtain ⟨before, after, split⟩ := List.append_of_mem (List.mem_range.mpr inside)
  have kept (other : Nat)
      (h : ((table.store index value constant).lookup? other).isNone = true) :
      (table.lookup? other).isNone = true := by
    cases known : table.lookup? other with
    | none => rfl
    | some _ =>
      have : ((table.store index value constant).lookup? other).isSome :=
        MemoTable.store_keeps_known (by simp [known])
      simp_all
  have here : ((table.store index value constant).lookup? index).isNone = false := by
    have : ((table.store index value constant).lookup? index).isSome := MemoTable.store_known
    simp_all
  have left := List.countP_mono_left (l := before) fun i _ => kept i
  have right := List.countP_mono_left (l := after) fun i _ => kept i
  simp only [Sentence.unknown, split, List.countP_append, List.countP_cons, here, new]
  simp only [Option.isNone_none, if_true]
  simp only [Bool.false_eq_true, if_false]
  omega

theorem unknowns_record_lt {work : Work W} {cell : Cell} (value : W) (constant : Bool)
    (new : s.known? work.tables cell = none) :
    s.unknowns (s.record work cell value constant).tables < s.unknowns work.tables := by
  obtain ⟨⟨inside, outside⟩, counters⟩ := work
  cases cell with
  | inside start stop nt =>
    simp only [Sentence.known?] at new
    split at new
    · rename_i index found
      have := unknown_store_lt value constant
        (SpanGrid.index_lt_capacity found) new
      simp only [Sentence.record, found, Sentence.unknowns]
      omega
    · cases new
  | outside start stop nt =>
    simp only [Sentence.known?] at new
    split at new
    · rename_i index found
      have := unknown_store_lt value constant
        (SpanGrid.index_lt_capacity found) new
      simp only [Sentence.record, found, Sentence.unknowns]
      omega
    · cases new

theorem within_of_unknown {tables : Tables W} {cell : Cell} (new : s.known? tables cell = none) :
    s.Within cell := by
  cases cell with
  | inside start stop nt =>
    simp only [Sentence.known?, SpanGrid.index?] at new
    by_cases holds : s.grid.Holds start stop nt
    · exact holds
    · simp [holds] at new
  | outside start stop nt =>
    simp only [Sentence.known?, SpanGrid.index?] at new
    by_cases holds : s.grid.Holds start stop nt
    · exact holds
    · simp [holds] at new

end

end StochasticGrammar
