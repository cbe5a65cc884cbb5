import StochasticGrammar.Proofs.Chart.Filling

/-!
The cells that a demand stores, in the order in which it does so. Each is stored with its settled weight,
while it is not known. An entry of a constant one is left in its place by later stores, and by
invalidations.
-/

namespace StochasticGrammar

/-- A cell with the sum that is stored for it. -/
structure Stored (W : Type) where
  cell : Cell
  value : W
  constant : Bool

def Stored.isOne {W : Type} [Weight W] (stored : Stored W) : Bool := stored.constant && stored.value == 1

namespace MemoTable

variable {W : Type} {table : MemoTable W} {index : Nat}

theorem one_invalidate (one : table.entries[index]? = some .one) :
    table.invalidate.entries[index]? = some .one := by
  rcases table.entry_invalidate index with ⟨kept, -⟩ | ⟨-, other⟩
  · exact kept
  · exact absurd one other

theorem one_sync (one : table.entries[index]? = some .one) (epoch : Nat) :
    (table.sync epoch).entries[index]? = some .one := by
  unfold sync
  split
  · exact one
  · exact one_invalidate one

end MemoTable

namespace Sentence

section

variable {W : Type} {s : Sentence W} {tables : Tables W} {cell : Cell}

/-- The entry of the cell says that it is constant one. -/
def MarksOne (s : Sentence W) (tables : Tables W) : Cell → Prop
  | .inside start stop nt =>
    ∃ index, s.grid.index? start stop nt = some index ∧ tables.inside.entries[index]? = some .one
  | .outside start stop nt =>
    ∃ index, s.grid.index? start stop nt = some index ∧ tables.outside.entries[index]? = some .one

theorem MarksOne.of_entries {tables' : Tables W}
    (inside : ∀ index : Nat, tables.inside.entries[index]? = some .one → tables'.inside.entries[index]? = some .one)
    (outside : ∀ index : Nat, tables.outside.entries[index]? = some .one → tables'.outside.entries[index]? = some .one)
    (marked : s.MarksOne tables cell) : s.MarksOne tables' cell := by
  cases cell with
  | inside start stop nt =>
    rcases marked with ⟨index, here, one⟩
    exact ⟨index, here, inside index one⟩
  | outside start stop nt =>
    rcases marked with ⟨index, here, one⟩
    exact ⟨index, here, outside index one⟩

end

variable {W : Type} [Weight W] (s : Sentence W)

/-- What is stored while the stack is worked off. -/
def stores (work : Work W) (stack : List Cell) : List (Stored W) :=
  match stack with
  | [] => []
  | top :: rest =>
    match known : s.known? work.tables top with
    | some _ =>
      have less := patience_pop rest known
      stores work rest
    | none =>
      match demanded : s.combine work.tables top with
      | ⟨sum, constant, []⟩ =>
        have fewer := unknowns_record_lt sum constant known
        ⟨top, sum, constant⟩ :: stores (s.record work top sum constant) rest
      | ⟨_, _, cell :: cells⟩ =>
        have less := patience_push (cells ++ top :: rest) rest known
          (by rw [demanded]; exact List.mem_cons_self)
        stores work (cell :: cells ++ top :: rest)
termination_by (s.unknowns work.tables, s.patience work.tables stack)
decreasing_by
  · exact Prod.Lex.right _ less
  · exact Prod.Lex.left _ _ fewer
  · exact Prod.Lex.right _ less

/-- Tables after some stores, each of a cell that was not known and with its settled weight. -/
inductive Fills : Work W → List (Stored W) → Work W → Prop where
  | done {work : Work W} : Fills work [] work
  | store {work after : Work W} {stored : Stored W} {later : List (Stored W)}
      (new : s.known? work.tables stored.cell = none)
      (settled : remembered stored.value stored.constant = s.settled stored.cell)
      (rest : Fills (s.record work stored.cell stored.value stored.constant) later after) :
      Fills work (stored :: later) after

variable {s}

theorem fills_resolve {work : Work W} (sound : s.Sound work.tables) (stack : List Cell) :
    s.Fills work (s.stores work stack) (s.resolve work stack) := by
  fun_induction Sentence.stores s work stack with
  | case1 work =>
    rw [resolve]
    exact .done
  | case2 work top rest answer known less ih =>
    rw [resolve]
    split
    · exact ih sound
    · rename_i unknown
      cases known.symm.trans unknown
  | case3 work top rest known sum constant complete fewer ih =>
    rw [resolve]
    split
    · rename_i other
      cases known.symm.trans other
    · split
      · rename_i complete'
        cases complete.symm.trans complete'
        exact .store known (combine_settled sound (within_of_unknown known) complete)
          (ih (record_sound sound known complete))
      · rename_i demanded
        cases complete.symm.trans demanded
  | case4 work top rest known sum constant cell cells demanded less ih =>
    rw [resolve]
    split
    · rename_i other
      cases known.symm.trans other
    · split
      · rename_i complete
        cases demanded.symm.trans complete
      · rename_i demanded'
        cases demanded.symm.trans demanded'
        exact ih sound

theorem resolve_known {work : Work W} {cell : Cell} (known : (s.known? work.tables cell).isSome) :
    s.resolve work [cell] = work := by
  rw [resolve]
  split
  · rw [resolve]
  · rename_i unknown
    rw [unknown] at known
    cases known

section

variable {tables : Tables W} {cell : Cell}

theorem known_of_marked (marked : s.MarksOne tables cell) : s.known? tables cell = some (1, true) := by
  cases cell with
  | inside start stop nt =>
    rcases marked with ⟨index, here, one⟩
    simp only [known?, here, MemoTable.lookup_one one]
  | outside start stop nt =>
    rcases marked with ⟨index, here, one⟩
    simp only [known?, here, MemoTable.lookup_one one]

theorem marked_record {work : Work W} (marked : s.MarksOne work.tables cell) {other : Cell}
    (new : s.known? work.tables other = none) (value : W) (constant : Bool) :
    s.MarksOne (s.record work other value constant).tables cell := by
  rcases work with ⟨⟨inside, outside⟩, counters⟩
  -- A marked cell is known, and thus not the one that is recorded.
  have apart {table : MemoTable W} {index index' : Nat} (one : table.entries[index]? = some .one)
      (unknown : table.lookup? index' = none) :
      (table.store index' value constant).entries[index]? = some .one := by
    have different : index' ≠ index := by
      intro same
      rw [same, MemoTable.lookup_one one] at unknown
      cases unknown
    rw [MemoTable.getElem_store_of_ne different, one]
  have within := within_of_unknown new
  cases other with
  | inside start stop nt =>
    rcases Option.isSome_iff_exists.mp (SpanGrid.index_isSome_iff.mpr within) with ⟨index', there⟩
    simp only [known?, there] at new
    simp only [record, there]
    cases cell with
    | inside start' stop' nt' =>
      rcases marked with ⟨index, here, one⟩
      exact ⟨index, here, apart one new⟩
    | outside start' stop' nt' => exact marked
  | outside start stop nt =>
    rcases Option.isSome_iff_exists.mp (SpanGrid.index_isSome_iff.mpr within) with ⟨index', there⟩
    simp only [known?, there] at new
    simp only [record, there]
    cases cell with
    | inside start' stop' nt' => exact marked
    | outside start' stop' nt' =>
      rcases marked with ⟨index, here, one⟩
      exact ⟨index, here, apart one new⟩

theorem marked_of_isOne {work : Work W} (within : s.Within cell) {value : W} {constant : Bool}
    (zero : (constant && value == 0) = false) (one : (constant && value == 1) = true) :
    s.MarksOne (s.record work cell value constant).tables cell := by
  rcases work with ⟨⟨inside, outside⟩, counters⟩
  cases cell with
  | inside start stop nt =>
    rcases Option.isSome_iff_exists.mp (SpanGrid.index_isSome_iff.mpr within) with ⟨index, here⟩
    refine ⟨index, here, ?_⟩
    simp only [record, here, MemoTable.getElem_store_self, zero, one]
    rfl
  | outside start stop nt =>
    rcases Option.isSome_iff_exists.mp (SpanGrid.index_isSome_iff.mpr within) with ⟨index, here⟩
    refine ⟨index, here, ?_⟩
    simp only [record, here, MemoTable.getElem_store_self, zero, one]
    rfl

end

end Sentence

end StochasticGrammar
