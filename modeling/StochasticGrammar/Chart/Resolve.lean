import StochasticGrammar.Chart.Tables

/-!
Filling in cells. A stack holds the cells in demand. A cell on top that is known is taken off; one
whose sum can be formed is stored and taken off; otherwise the cells its sum lacks are put on top of
it. This ends, since a stored cell stays known and cells put on top are of lower rank. How deep
derivations go never shows in the depth of calls.
-/

namespace StochasticGrammar

/-- A sum under way, with the cells that it lacks. -/
structure Tally (W : Type) where
  sum : W
  constant : Bool
  missing : List Cell

namespace Sentence

variable {W : Type} [Weight W] (s : Sentence W)

/-- Adds a term. Its second cell is in demand only when the first is not a constant zero. -/
@[specialize] def addTerm (cell : Cell) (tables : Tables W) (tally : Tally W) (term : Term) : Tally W :=
  match s.known? tables term.first with
  | none => { tally with missing := term.first :: tally.missing }
  | some (first, firstConstant) =>
    if first == 0 && firstConstant then tally
    else match s.known? tables term.second with
      | none => { tally with missing := term.second :: tally.missing }
      | some (second, secondConstant) =>
        if second == 0 && secondConstant then tally
        else
          { tally with
            sum := tally.sum + cell.product (s.value term.rule) first second
            constant := tally.constant && (s.certain term.rule && firstConstant && secondConstant) }

@[specialize] def combine (tables : Tables W) (cell : Cell) : Tally W :=
  let plan := s.plan cell
  plan.terms.foldl (s.addTerm cell tables) ⟨plan.base, plan.constant, []⟩

end Sentence

section

variable {W : Type} [Weight W] {s : Sentence W}

theorem missing_addTerm {cell c : Cell} {tables : Tables W} {tally : Tally W} {term : Term}
    (h : c ∈ (s.addTerm cell tables tally term).missing) :
    c ∈ tally.missing ∨ (s.known? tables c = none ∧ (c = term.first ∨ c = term.second)) := by
  unfold Sentence.addTerm at h
  split at h
  · rename_i unknown
    rcases List.mem_cons.mp h with rfl | old
    · exact .inr ⟨unknown, .inl rfl⟩
    · exact .inl old
  · split at h
    · exact .inl h
    · split at h
      · rename_i unknown
        rcases List.mem_cons.mp h with rfl | old
        · exact .inr ⟨unknown, .inr rfl⟩
        · exact .inl old
      · split at h <;> exact .inl h

theorem missing_addTerms {cell c : Cell} {tables : Tables W} {terms : List Term} {tally : Tally W}
    (h : c ∈ (terms.foldl (s.addTerm cell tables) tally).missing) :
    c ∈ tally.missing ∨
      (s.known? tables c = none ∧ ∃ term ∈ terms, c = term.first ∨ c = term.second) := by
  induction terms generalizing tally with
  | nil => exact .inl h
  | cons term terms ih =>
    rcases ih h with old | ⟨unknown, other, member, same⟩
    · rcases missing_addTerm old with older | ⟨unknown, same⟩
      · exact .inl older
      · exact .inr ⟨unknown, term, List.mem_cons_self, same⟩
    · exact .inr ⟨unknown, other, List.mem_cons_of_mem _ member, same⟩

theorem plan_rank {cell : Cell} {term : Term} (within : s.Within cell)
    (h : term ∈ (s.plan cell).terms) :
    term.first.rank s.tokens.size < cell.rank s.tokens.size ∧
      term.second.rank s.tokens.size < cell.rank s.tokens.size := by
  cases cell with
  | inside start stop nt =>
    simp only [Sentence.plan] at h
    split at h
    · simp at h
    · split at h
      · rename_i order
        exact insideTerms_rank order h
      · split at h <;> simp at h
  | outside start stop nt =>
    simp only [Sentence.plan] at h
    split at h
    · simp at h
    · split at h
      · simp at h
      · rcases List.mem_append.mp h with right | left
        · exact rightTerms_rank within.1 right
        · exact leftTerms_rank within.1 within.2.1 left

theorem missing_combine {tables : Tables W} {cell c : Cell} (new : s.known? tables cell = none)
    (h : c ∈ (s.combine tables cell).missing) :
    s.known? tables c = none ∧ c.rank s.tokens.size < cell.rank s.tokens.size := by
  rcases missing_addTerms h with none | ⟨unknown, term, member, same⟩
  · cases none
  · have := plan_rank (within_of_unknown new) member
    rcases same with rfl | rfl
    · exact ⟨unknown, this.1⟩
    · exact ⟨unknown, this.2⟩

end

namespace Sentence

variable {W : Type} [Weight W] (s : Sentence W)

/-- What grows less while the stack is worked off and no cell is stored: known cells are taken off
the top, then cells of ever lower rank are put there. -/
def patience (tables : Tables W) : List Cell → Nat × Nat
  | [] => (0, 0)
  | top :: rest =>
    if (s.known? tables top).isSome then (1, rest.length) else (0, top.rank s.tokens.size)

abbrev Less : Nat × Nat → Nat × Nat → Prop := Prod.Lex (· < ·) (· < ·)

variable {s}

theorem patience_pop {tables : Tables W} {top : Cell} (rest : List Cell) {value : W × Bool}
    (known : s.known? tables top = some value) :
    Less (s.patience tables rest) (s.patience tables (top :: rest)) := by
  cases rest with
  | nil =>
    simp only [patience, known]
    exact Prod.Lex.left _ _ (by decide)
  | cons next others =>
    simp only [patience, known, Option.isSome_some, if_true]
    split
    · exact Prod.Lex.right _ (by simp)
    · exact Prod.Lex.left _ _ (by decide)

theorem patience_push {tables : Tables W} {top cell : Cell} (above below : List Cell)
    (new : s.known? tables top = none) (demanded : cell ∈ (s.combine tables top).missing) :
    Less (s.patience tables (cell :: above)) (s.patience tables (top :: below)) := by
  have lower := missing_combine new demanded
  simp only [patience, new, lower.1]
  exact Prod.Lex.right _ lower.2

variable (s)

@[specialize] def resolve (work : Work W) (stack : List Cell) : Work W :=
  match stack with
  | [] => work
  | top :: rest =>
    match known : s.known? work.tables top with
    | some _ =>
      have less := patience_pop rest known
      resolve work rest
    | none =>
      match demanded : s.combine work.tables top with
      | ⟨sum, constant, []⟩ =>
        have fewer := unknowns_record_lt sum constant known
        resolve (s.record work top sum constant) rest
      | ⟨_, _, cell :: cells⟩ =>
        have less := patience_push (cells ++ top :: rest) rest known
          (by rw [demanded]; exact List.mem_cons_self)
        resolve work (cell :: cells ++ top :: rest)
termination_by (s.unknowns work.tables, s.patience work.tables stack)
decreasing_by
  · exact Prod.Lex.right _ less
  · exact Prod.Lex.left _ _ fewer
  · exact Prod.Lex.right _ less

/-- The weight of a cell and whether it is constant, after all that it needs is filled in. -/
@[specialize] def demand (work : Work W) (cell : Cell) : (W × Bool) × Work W :=
  let work := s.resolve work [cell]
  ((s.known? work.tables cell).getD (0, true), work)

end Sentence

end StochasticGrammar
