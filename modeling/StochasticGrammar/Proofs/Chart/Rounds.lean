import Mathlib.Logic.Function.Iterate
import StochasticGrammar.Proofs.Chart.Stores

/-!
The stack of cells worked off round by round. A round looks at the cell on top: a known cell is taken
off, a cell whose sum lacks nothing is recorded, and otherwise all that the sum lacks comes on top of it.
The tables change by nothing but what is recorded; a recorded cell was not known, and stays known.
-/

namespace StochasticGrammar

/-- The tables with the cells that are still to be looked at. -/
structure Pass (W : Type) where
  work : Work W
  stack : List Cell

namespace Sentence

variable {W : Type} [Weight W] (s : Sentence W)

def round (p : Pass W) : Pass W :=
  match p.stack with
  | [] => p
  | top :: rest =>
    match s.known? p.work.tables top with
    | some _ => ⟨p.work, rest⟩
    | none =>
      match s.combine p.work.tables top with
      | ⟨sum, constant, []⟩ => ⟨s.record p.work top sum constant, rest⟩
      | ⟨_, _, missing⟩ => ⟨p.work, missing ++ top :: rest⟩

def rounds (n : Nat) (p : Pass W) : Pass W := s.round^[n] p

/-- What the next round records. -/
def recorded? (p : Pass W) : Option (Stored W) :=
  match p.stack with
  | [] => none
  | top :: _ =>
    match s.known? p.work.tables top with
    | some _ => none
    | none =>
      match s.combine p.work.tables top with
      | ⟨sum, constant, []⟩ => some ⟨top, sum, constant⟩
      | _ => none

/-- The cells that are looked up to add a term: the second one only after a first one that is known and
not a constant zero. -/
def termReads (tables : Tables W) (term : Term) : List Cell :=
  match s.known? tables term.first with
  | none => [term.first]
  | some (value, constant) => if value == 0 && constant then [term.first] else [term.first, term.second]

/-- The cells that are looked up to combine a cell. -/
def reads (tables : Tables W) (cell : Cell) : List Cell := (s.plan cell).terms.flatMap (s.termReads tables)

variable {s} {tables : Tables W} {cell other : Cell}

theorem missing_addTerm_iff {tally : Tally W} {term : Term} :
    (s.addTerm cell tables tally term).missing = [] ↔
      tally.missing = [] ∧ ∀ other ∈ s.termReads tables term, (s.known? tables other).isSome := by
  unfold Sentence.addTerm Sentence.termReads
  cases first : s.known? tables term.first with
  | none => simp [first]
  | some answer =>
    by_cases zero : (answer.1 == 0 && answer.2) = true
    · simp [zero, first]
    · cases second : s.known? tables term.second with
      | none => simp [zero, second]
      | some answer' => by_cases zero' : (answer'.1 == 0 && answer'.2) = true <;> simp [zero, zero', first, second]

/-- A sum lacks nothing when all that it looks up is known. -/
theorem missing_combine_iff :
    (s.combine tables cell).missing = [] ↔ ∀ other ∈ s.reads tables cell, (s.known? tables other).isSome := by
  have all (terms : List Term) (tally : Tally W) :
      (terms.foldl (s.addTerm cell tables) tally).missing = [] ↔ tally.missing = [] ∧
        ∀ other ∈ terms.flatMap (s.termReads tables), (s.known? tables other).isSome := by
    induction terms generalizing tally with
    | nil => simp
    | cons term terms ih =>
      rw [List.foldl_cons, ih, missing_addTerm_iff, List.flatMap_cons, List.forall_mem_append, and_assoc]
  rw [combine, all, reads]
  exact and_iff_right rfl

section

variable {p : Pass W} {stored : Stored W}

theorem recorded_eq_some (next : s.recorded? p = some stored) :
    s.known? p.work.tables stored.cell = none ∧
      s.combine p.work.tables stored.cell = ⟨stored.value, stored.constant, []⟩ := by
  unfold recorded? at next
  split at next
  · cases next
  · split at next
    · cases next
    · rename_i new
      split at next
      · rename_i complete
        cases next
        exact ⟨new, complete⟩
      · cases next

/-- One round changes the tables by what it records. -/
theorem work_round (p : Pass W) : (s.round p).work =
    (s.recorded? p).elim p.work fun stored => s.record p.work stored.cell stored.value stored.constant := by
  unfold round recorded?
  cases p.stack with
  | nil => rfl
  | cons top rest =>
    simp only
    cases s.known? p.work.tables top with
    | some answer => rfl
    | none =>
      rcases s.combine p.work.tables top with ⟨sum, constant, _ | ⟨cell, cells⟩⟩
      · rfl
      · rfl

variable (sound : s.Sound p.work.tables)

include sound

theorem sound_round : s.Sound (s.round p).work.tables := by
  rw [work_round]
  cases next : s.recorded? p with
  | none => exact sound
  | some stored =>
    obtain ⟨new, complete⟩ := recorded_eq_some next
    exact record_sound sound new complete

theorem known_round {answer : W × Bool} (known : s.known? p.work.tables cell = some answer) :
    s.known? (s.round p).work.tables cell = some answer := by
  rw [work_round]
  cases next : s.recorded? p with
  | none => exact known
  | some stored =>
    have new := (recorded_eq_some next).1
    have different : stored.cell ≠ cell := by
      intro same
      rw [same, known] at new
      cases new
    rw [Option.elim_some, known_record sound.inside sound.outside (within_of_unknown new), if_neg different]
    exact known

theorem known_of_recorded (next : s.recorded? p = some stored) :
    (s.known? (s.round p).work.tables stored.cell).isSome := by
  rw [work_round, next]
  exact record_knows sound (recorded_eq_some next).1 _ _

end

theorem rounds_succ (n : Nat) (p : Pass W) : s.rounds (n + 1) p = s.round (s.rounds n p) :=
  Function.iterate_succ_apply' s.round n p

theorem rounds_add (n m : Nat) (p : Pass W) : s.rounds (n + m) p = s.rounds n (s.rounds m p) :=
  Function.iterate_add_apply s.round n m p

/-- Without a stack there is nothing to do. -/
theorem rounds_worked_off (n : Nat) (work : Work W) : s.rounds n ⟨work, []⟩ = ⟨work, []⟩ := by
  induction n with
  | zero => rfl
  | succ n ih =>
    rw [rounds_succ, ih]
    rfl

/-- What one round keeps is kept by any number of them. -/
theorem sound_rounds {p : Pass W} (sound : s.Sound p.work.tables) (n : Nat) :
    s.Sound (s.rounds n p).work.tables := by
  induction n with
  | zero => exact sound
  | succ n ih =>
    rw [rounds_succ]
    exact sound_round ih

theorem known_rounds {p : Pass W} (sound : s.Sound p.work.tables) {answer : W × Bool}
    (known : s.known? p.work.tables cell = some answer) (n : Nat) :
    s.known? (s.rounds n p).work.tables cell = some answer := by
  induction n with
  | zero => exact known
  | succ n ih =>
    rw [rounds_succ]
    exact known_round (sound_rounds sound n) ih

/-- A cell that is recorded after some rounds was not known at the beginning, and not known later. -/
theorem recorded_once {p : Pass W} (sound : s.Sound p.work.tables) {n m : Nat} {stored stored' : Stored W}
    (first : s.recorded? (s.rounds n p) = some stored) (again : s.recorded? (s.rounds m p) = some stored')
    (same : stored'.cell = stored.cell) : m = n := by
  have apart {n m : Nat} {stored stored' : Stored W} (first : s.recorded? (s.rounds n p) = some stored)
      (again : s.recorded? (s.rounds m p) = some stored') (same : stored'.cell = stored.cell) : ¬ n < m := by
    intro less
    obtain ⟨between, rfl⟩ := Nat.exists_eq_add_of_lt less
    have after := known_of_recorded (sound_rounds sound n) first
    obtain ⟨answer, known⟩ := Option.isSome_iff_exists.mp after
    rw [← rounds_succ] at known
    have still := known_rounds (sound_rounds sound (n + 1)) known between
    rw [← rounds_add, Nat.add_comm between, Nat.add_right_comm, ← same, (recorded_eq_some again).1] at still
    cases still
  have notLess := apart first again same
  have notMore := apart again first same.symm
  omega

/-- The rounds come to an end, with the stack worked off. -/
theorem exists_rounds (work : Work W) (stack : List Cell) :
    ∃ last, s.rounds last ⟨work, stack⟩ = ⟨s.resolve work stack, []⟩ := by
  have step {p : Pass W} {work : Work W} {stack : List Cell} (next : s.round p = ⟨work, stack⟩)
      (later : ∃ last, s.rounds last ⟨work, stack⟩ = ⟨s.resolve work stack, []⟩) :
      ∃ last, s.rounds last p = ⟨s.resolve work stack, []⟩ := by
    obtain ⟨last, ends⟩ := later
    refine ⟨last + 1, ?_⟩
    rw [rounds_add, ← ends]
    exact congrArg (s.rounds last) next
  -- One round for each call of the recursion.
  fun_induction Sentence.resolve s work stack with
  | case1 work => exact ⟨0, rfl⟩
  | case2 work top rest answer known less ih =>
    have next : s.round ⟨work, top :: rest⟩ = ⟨work, rest⟩ := by simp only [round, known]
    exact step next ih
  | case3 work top rest known sum constant complete fewer ih =>
    have next : s.round ⟨work, top :: rest⟩ = ⟨s.record work top sum constant, rest⟩ := by
      simp only [round, known, complete]
    exact step next ih
  | case4 work top rest known sum constant cell cells demanded less ih =>
    have next : s.round ⟨work, top :: rest⟩ = ⟨work, cell :: cells ++ top :: rest⟩ := by
      simp only [round, known, demanded]
    exact step next ih

end Sentence

end StochasticGrammar
