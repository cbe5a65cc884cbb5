import StochasticGrammar.Proofs.Chart.Settled
import StochasticGrammar.Proofs.SpanGrid

/-!
Filling in cells keeps the tables of a chart sound: what they know of a cell is its settled weight.
However the tables were filled before, a demand ends with the cell known.
-/

namespace StochasticGrammar

namespace Sentence

variable {W : Type} [Weight W]

/-- The tables are well-formed, and what they know of a cell is its settled weight. -/
structure Sound (s : Sentence W) (tables : Tables W) : Prop where
  inside : tables.inside.WellFormed
  outside : tables.outside.WellFormed
  answers : ∀ {cell : Cell} {answer : W × Bool},
    s.known? tables cell = some answer → answer = s.settled cell

end Sentence

variable {W : Type} [Weight W] {s : Sentence W}

theorem known_of_not_within {cell : Cell} (beyond : ¬ s.Within cell) (tables : Tables W) :
    s.known? tables cell = some (0, true) := by
  cases known : s.known? tables cell with
  | none => exact absurd (within_of_unknown known) beyond
  | some answer =>
    cases cell with
    | inside start stop nt =>
      have none : s.grid.index? start stop nt = none := if_neg beyond
      simp only [Sentence.known?, none] at known
      exact known.symm
    | outside start stop nt =>
      have none : s.grid.index? start stop nt = none := if_neg beyond
      simp only [Sentence.known?, none] at known
      exact known.symm

theorem wellFormed_record {work : Work W} (formed : work.tables.inside.WellFormed)
    (formed' : work.tables.outside.WellFormed) (cell : Cell) (value : W) (constant : Bool) :
    (s.record work cell value constant).tables.inside.WellFormed ∧
      (s.record work cell value constant).tables.outside.WellFormed := by
  obtain ⟨⟨inside, outside⟩, counters⟩ := work
  cases cell with
  | inside start stop nt =>
    simp only [Sentence.record]
    split
    · exact ⟨formed.store _ value constant, formed'⟩
    · exact ⟨formed, formed'⟩
  | outside start stop nt =>
    simp only [Sentence.record]
    split
    · exact ⟨formed, formed'.store _ value constant⟩
    · exact ⟨formed, formed'⟩

/-- To record a cell changes the answer for that cell alone. -/
theorem known_record {work : Work W} (formed : work.tables.inside.WellFormed)
    (formed' : work.tables.outside.WellFormed) {cell : Cell} (within : s.Within cell) (value : W)
    (constant : Bool) (other : Cell) :
    s.known? (s.record work cell value constant).tables other =
      if cell = other then some (remembered value constant) else s.known? work.tables other := by
  by_cases beyond : s.Within other
  · obtain ⟨⟨inside, outside⟩, counters⟩ := work
    cases cell with
    | inside start stop nt =>
      obtain ⟨index, here⟩ := Option.isSome_iff_exists.mp (SpanGrid.index_isSome_iff.mpr within)
      cases other with
      | inside start' stop' nt' =>
        obtain ⟨index', there⟩ := Option.isSome_iff_exists.mp (SpanGrid.index_isSome_iff.mpr beyond)
        simp only [Sentence.record, Sentence.known?, here, there, MemoTable.lookup_store formed,
          SpanGrid.index_inj here there, Cell.inside.injEq]
      | outside start' stop' nt' => simp [Sentence.record, Sentence.known?, here]
    | outside start stop nt =>
      obtain ⟨index, here⟩ := Option.isSome_iff_exists.mp (SpanGrid.index_isSome_iff.mpr within)
      cases other with
      | inside start' stop' nt' => simp [Sentence.record, Sentence.known?, here]
      | outside start' stop' nt' =>
        obtain ⟨index', there⟩ := Option.isSome_iff_exists.mp (SpanGrid.index_isSome_iff.mpr beyond)
        simp only [Sentence.record, Sentence.known?, here, there, MemoTable.lookup_store formed',
          SpanGrid.index_inj here there, Cell.outside.injEq]
  · have different : cell ≠ other := fun same => beyond (same ▸ within)
    rw [known_of_not_within beyond, known_of_not_within beyond, if_neg different]

theorem addTerm_settled {tables : Tables W} (sound : s.Sound tables) {cell : Cell} {tally : Tally W}
    {term : Term} (complete : (s.addTerm cell tables tally term).missing = []) :
    tally.missing = [] ∧
      ((s.addTerm cell tables tally term).sum, (s.addTerm cell tables tally term).constant) =
        s.addKnown s.settled cell (tally.sum, tally.constant) term := by
  unfold Sentence.addTerm Sentence.addKnown at *
  cases known : s.known? tables term.first with
  | none => simp [known] at complete
  | some first =>
    have first_eq := sound.answers known
    subst first_eq
    simp only [known] at complete ⊢
    split at complete
    · rename_i zero
      simp [zero, complete]
    · rename_i nonzero
      cases known' : s.known? tables term.second with
      | none => simp [known'] at complete
      | some second =>
        have second_eq := sound.answers known'
        subst second_eq
        simp only [known', if_neg nonzero] at complete ⊢
        split at complete
        · rename_i zero
          simp [zero, complete]
        · rename_i nonzero'
          exact ⟨complete, by simp [nonzero, nonzero']⟩

/-- A sum that lacks nothing is the one over the settled weights. -/
theorem foldl_addTerm_settled {tables : Tables W} (sound : s.Sound tables) {cell : Cell}
    {terms : List Term} {tally : Tally W}
    (complete : (terms.foldl (s.addTerm cell tables) tally).missing = []) :
    tally.missing = [] ∧
      ((terms.foldl (s.addTerm cell tables) tally).sum,
        (terms.foldl (s.addTerm cell tables) tally).constant) =
          terms.foldl (s.addKnown s.settled cell) (tally.sum, tally.constant) := by
  induction terms generalizing tally with
  | nil => exact ⟨complete, rfl⟩
  | cons term terms ih =>
    obtain ⟨here, rest⟩ := ih complete
    obtain ⟨before, step⟩ := addTerm_settled sound here
    exact ⟨before, by rw [List.foldl_cons, List.foldl_cons, rest, step]⟩

theorem combine_settled {tables : Tables W} (sound : s.Sound tables) {cell : Cell}
    (within : s.Within cell) {sum : W} {constant : Bool}
    (complete : s.combine tables cell = ⟨sum, constant, []⟩) :
    remembered sum constant = s.settled cell := by
  have total : (sum, constant) = s.total s.settled cell := by
    have fold := (foldl_addTerm_settled sound (by rw [Sentence.combine] at complete; rw [complete])).2
    rw [Sentence.combine] at complete
    rw [complete] at fold
    exact fold
  rw [settled_eq within, ← total]

/-- A settled weight may be recorded for a cell that is not known. -/
theorem Sentence.Sound.record {work : Work W} {cell : Cell} (sound : s.Sound work.tables)
    (new : s.known? work.tables cell = none) {value : W} {constant : Bool}
    (settled : remembered value constant = s.settled cell) :
    s.Sound (s.record work cell value constant).tables := by
  have within := within_of_unknown new
  have formed := wellFormed_record (s := s) sound.inside sound.outside cell value constant
  refine ⟨formed.1, formed.2, ?_⟩
  intro other answer known
  rw [known_record sound.inside sound.outside within] at known
  split at known
  · rename_i same
    subst same
    cases known
    exact settled
  · exact sound.answers known

/-- What one step of the filling preserves. -/
theorem record_sound {work : Work W} {cell : Cell} (sound : s.Sound work.tables)
    (new : s.known? work.tables cell = none) {sum : W} {constant : Bool}
    (complete : s.combine work.tables cell = ⟨sum, constant, []⟩) :
    s.Sound (s.record work cell sum constant).tables :=
  sound.record new (combine_settled sound (within_of_unknown new) complete)

theorem record_keeps_known {work : Work W} {cell : Cell} (sound : s.Sound work.tables)
    (new : s.known? work.tables cell = none) (sum : W) (constant : Bool) {other : Cell}
    (known : (s.known? work.tables other).isSome) :
    (s.known? (s.record work cell sum constant).tables other).isSome := by
  rw [known_record sound.inside sound.outside (within_of_unknown new)]
  split
  · rfl
  · exact known

theorem record_knows {work : Work W} {cell : Cell} (sound : s.Sound work.tables)
    (new : s.known? work.tables cell = none) (sum : W) (constant : Bool) :
    (s.known? (s.record work cell sum constant).tables cell).isSome := by
  rw [known_record sound.inside sound.outside (within_of_unknown new), if_pos rfl]
  rfl

/-- What a whole run of the filling preserves, and that it leaves no cell of its stack unknown. -/
theorem resolve_sound (work : Work W) (stack : List Cell) (sound : s.Sound work.tables) :
    s.Sound (s.resolve work stack).tables ∧
      (∀ cell, (s.known? work.tables cell).isSome →
        (s.known? (s.resolve work stack).tables cell).isSome) ∧
      ∀ cell ∈ stack, (s.known? (s.resolve work stack).tables cell).isSome := by
  fun_induction Sentence.resolve s work stack with
  | case1 work => exact ⟨sound, fun _ known => known, by simp⟩
  | case2 work top rest answer known less ih =>
    obtain ⟨after, keeps, all⟩ := ih sound
    refine ⟨after, keeps, ?_⟩
    intro cell member
    rcases List.mem_cons.mp member with rfl | later
    · exact keeps cell (by rw [known]; rfl)
    · exact all cell later
  | case3 work top rest known sum constant complete fewer ih =>
    obtain ⟨after, keeps, all⟩ := ih (record_sound sound known complete)
    refine ⟨after, fun cell before => keeps cell (record_keeps_known sound known _ _ before), ?_⟩
    intro cell member
    rcases List.mem_cons.mp member with rfl | later
    · exact keeps cell (record_knows sound known _ _)
    · exact all cell later
  | case4 work top rest known sum constant cell cells demanded less ih =>
    obtain ⟨after, keeps, all⟩ := ih sound
    refine ⟨after, keeps, ?_⟩
    intro other member
    exact all other (by simp [List.mem_cons.mp member])

theorem demand_settled {work : Work W} (sound : s.Sound work.tables) (cell : Cell) :
    (s.demand work cell).1 = s.settled cell ∧ s.Sound (s.demand work cell).2.tables := by
  obtain ⟨after, -, all⟩ := resolve_sound work [cell] sound
  obtain ⟨answer, known⟩ := Option.isSome_iff_exists.mp (all cell List.mem_cons_self)
  refine ⟨?_, after⟩
  simp only [Sentence.demand, known, Option.getD_some]
  exact after.answers known

end StochasticGrammar
