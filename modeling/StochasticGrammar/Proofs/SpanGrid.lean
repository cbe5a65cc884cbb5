import StochasticGrammar.SpanGrid

/-!
The number of a triple gives the triple back, so that no two triples of a grid share a number. Below the
capacity every number is that of its digits, which are a triple unless the start is after the stop.
-/

namespace StochasticGrammar

theorem div_mod_digits {high low base : Nat} (inside : low < base) :
    (high * base + low) / base = high ∧ (high * base + low) % base = low := by
  constructor
  · rw [Nat.mul_comm, Nat.mul_add_div (Nat.zero_lt_of_lt inside), Nat.div_eq_of_lt inside, Nat.add_zero]
  · rw [Nat.mul_add_mod_self_right, Nat.mod_eq_of_lt inside]

namespace SpanGrid

variable {grid : SpanGrid} {start stop nonTerminal index : Nat}

theorem index_eq_some_iff : grid.index? start stop nonTerminal = some index ↔
    grid.Holds start stop nonTerminal ∧
      index = (nonTerminal * grid.length + start) * grid.length + stop := by
  unfold index?
  split
  · rename_i holds
    simp [holds, eq_comm]
  · rename_i beyond
    simp [beyond]

theorem index_isSome_iff :
    (grid.index? start stop nonTerminal).isSome ↔ grid.Holds start stop nonTerminal := by
  unfold index?
  split
  · rename_i holds
    simp [holds]
  · rename_i beyond
    simp [beyond]

/-- Within the sides of a grid the digits of a number say which triple it is of. -/
theorem eq_place_iff (begins : start < grid.length) (ends : stop < grid.length) :
    index = (nonTerminal * grid.length + start) * grid.length + stop ↔
      index % grid.length = stop ∧ index / grid.length % grid.length = start ∧
        index / (grid.length * grid.length) = nonTerminal := by
  rw [← Nat.div_div_eq_div_mul]
  constructor
  · rintro rfl
    rw [(div_mod_digits ends).1]
    exact ⟨(div_mod_digits ends).2, (div_mod_digits begins).2, (div_mod_digits begins).1⟩
  · rintro ⟨rfl, rfl, rfl⟩
    rw [Nat.div_add_mod', Nat.div_add_mod']

theorem triple_index (h : grid.index? start stop nonTerminal = some index) :
    grid.triple? index = some (start, stop, nonTerminal) := by
  have below := index_lt_capacity h
  obtain ⟨⟨order, inside, -⟩, place⟩ := index_eq_some_iff.mp h
  obtain ⟨stopped, started, layer⟩ := (eq_place_iff (by omega) inside).mp place
  simp only [triple?, stopped, started, layer, below, order, and_self, if_true]

section

variable (below : index < grid.capacity)

include below

theorem length_pos : 0 < grid.length := Nat.pos_of_lt_mul_left below

theorem nonTerminals_pos : 0 < grid.nonTerminals :=
  Nat.pos_of_lt_mul_right (Nat.lt_of_lt_of_eq below (Nat.mul_assoc ..))

theorem layer_lt : index / (grid.length * grid.length) < grid.nonTerminals := by
  have positive : 0 < grid.length * grid.length := Nat.mul_pos (length_pos below) (length_pos below)
  rw [Nat.div_lt_iff_lt_mul positive, ← Nat.mul_assoc]
  exact below

/-- A number below the capacity is that of its digits. -/
theorem eq_place : index = (index / (grid.length * grid.length) * grid.length +
    index / grid.length % grid.length) * grid.length + index % grid.length :=
  (eq_place_iff (Nat.mod_lt _ (length_pos below)) (Nat.mod_lt _ (length_pos below))).mpr ⟨rfl, rfl, rfl⟩

end

/-- Numbering and reading a number back are each the inverse of the other. -/
theorem triple_eq_some_iff : grid.triple? index = some (start, stop, nonTerminal) ↔
    grid.index? start stop nonTerminal = some index := by
  refine ⟨?_, triple_index⟩
  intro h
  simp only [triple?] at h
  split at h
  · rename_i holds
    obtain ⟨below, order⟩ := holds
    cases h
    exact index_eq_some_iff.mpr ⟨⟨order, Nat.mod_lt _ (length_pos below), layer_lt below⟩, eq_place below⟩
  · cases h

/-- A number without a triple is beyond the capacity, or that of a span which starts after its stop. -/
theorem triple_eq_none_iff : grid.triple? index = none ↔ grid.capacity ≤ index ∨
    ∃ start stop nonTerminal, stop < start ∧ start < grid.length ∧ nonTerminal < grid.nonTerminals ∧
      index = (nonTerminal * grid.length + start) * grid.length + stop := by
  constructor
  · intro h
    rcases Nat.lt_or_ge index grid.capacity with below | beyond
    · right
      have order : index % grid.length < index / grid.length % grid.length := by
        simpa [triple?, below] using h
      exact ⟨_, _, _, order, Nat.mod_lt _ (length_pos below), layer_lt below, eq_place below⟩
    · exact .inl beyond
  · rintro (beyond | ⟨start, stop, nonTerminal, order, begins, -, place⟩)
    · exact if_neg fun holds => Nat.not_lt_of_le beyond holds.1
    · obtain ⟨stopped, started, -⟩ := (eq_place_iff begins (by omega)).mp place
      simp only [triple?, stopped, started, Nat.not_le_of_lt order, and_false, if_false]

theorem index_inj {start' stop' nonTerminal' index' : Nat}
    (first : grid.index? start stop nonTerminal = some index)
    (second : grid.index? start' stop' nonTerminal' = some index') :
    index = index' ↔ start = start' ∧ stop = stop' ∧ nonTerminal = nonTerminal' := by
  constructor
  · intro same
    subst same
    simpa using (triple_index first).symm.trans (triple_index second)
  · intro same
    rcases same with ⟨rfl, rfl, rfl⟩
    exact Option.some.inj (first.symm.trans second)

end SpanGrid

end StochasticGrammar
