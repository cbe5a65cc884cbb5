import StochasticGrammar.Proofs.Chart.Rounds
import StochasticGrammar.Proofs.Guarded.Sums

/-!
The rounds of a demand with every read guarded. As long as the tables are sound each round gives what it
gives without guards, so that enough of them answer the demand.
-/

namespace StochasticGrammar

namespace Grammar

variable (g : Grammar) (tokens : Array Nat)

def record? (work : Work Float) (cell : Cell) (value : Float) (constant : Bool) : Option (Work Float) :=
  let grid := (g.sentence tokens).grid
  match work, cell with
  | ⟨⟨inside, outside⟩, counters⟩, .inside start stop nt =>
    match grid.index? start stop nt with
    | some index => do
      let inside ← inside.write? grid.capacity index value constant
      return ⟨⟨inside, outside⟩, { counters with inside := counters.inside + 1 }⟩
    | none => some ⟨⟨inside, outside⟩, counters⟩
  | ⟨⟨inside, outside⟩, counters⟩, .outside start stop nt =>
    match grid.index? start stop nt with
    | some index => do
      let outside ← outside.write? grid.capacity index value constant
      return ⟨⟨inside, outside⟩, { counters with outside := counters.outside + 1 }⟩
    | none => some ⟨⟨inside, outside⟩, counters⟩

def round? (p : Pass Float) : Option (Pass Float) :=
  match p.stack with
  | [] => some p
  | top :: rest => do
    match ← g.read? tokens p.work.tables top with
    | some _ => return ⟨p.work, rest⟩
    | none =>
      match ← g.sum? tokens p.work.tables top with
      | ⟨sum, constant, []⟩ => return ⟨← g.record? tokens p.work top sum constant, rest⟩
      | ⟨_, _, missing⟩ => return ⟨p.work, missing ++ top :: rest⟩

def rounds? : Nat → Pass Float → Option (Pass Float)
  | 0, p => some p
  | n + 1, p => do g.round? tokens (← rounds? n p)

/-- The answer to a demand, when `rounds` rounds work off the stack. -/
def demand? (rounds : Nat) (work : Work Float) (cell : Cell) : Option ((Float × Bool) × Work Float) := do
  let p ← g.rounds? tokens rounds ⟨work, [cell]⟩
  if p.stack.isEmpty then
    let answer ← g.read? tokens p.work.tables cell
    return (answer.getD (0, true), p.work)
  else none

variable {g tokens}

theorem record_eq (work : Work Float) (cell : Cell) (value : Float) (constant : Bool) :
    g.record? tokens work cell value constant =
      some ((g.sentence tokens).record work cell value constant) := by
  obtain ⟨⟨inside, outside⟩, counters⟩ := work
  cases cell with
  | inside start stop nt =>
    simp only [record?, Sentence.record]
    cases found : (g.sentence tokens).grid.index? start stop nt with
    | none => rfl
    | some index =>
      simp only [MemoTable.write?, SpanGrid.index_lt_capacity found]
      rfl
  | outside start stop nt =>
    simp only [record?, Sentence.record]
    cases found : (g.sentence tokens).grid.index? start stop nt with
    | none => rfl
    | some index =>
      simp only [MemoTable.write?, SpanGrid.index_lt_capacity found]
      rfl

section

variable (ranged : g.Ranged)

include ranged

theorem sum_eq {tables : Tables Float} (inside : tables.inside.WellFormed) (outside : tables.outside.WellFormed)
    {cell : Cell} (within : (g.sentence tokens).Within cell) :
    g.sum? tokens tables cell = some ((g.sentence tokens).combine tables cell) := by
  cases cell with
  | inside start stop nt =>
    obtain ⟨order, fits, known⟩ := within
    exact insideSum_eq ranged inside outside fits known order
  | outside start stop nt =>
    obtain ⟨order, fits, known⟩ := within
    exact outsideSum_eq ranged inside outside fits known order

theorem round_eq {p : Pass Float} (inside : p.work.tables.inside.WellFormed)
    (outside : p.work.tables.outside.WellFormed) :
    g.round? tokens p = some ((g.sentence tokens).round p) := by
  unfold round? Sentence.round
  cases p.stack with
  | nil => rfl
  | cons top rest =>
    simp only [read_eq inside outside, Option.bind_eq_bind, Option.bind_some]
    cases unknown : (g.sentence tokens).known? p.work.tables top with
    | some answer => rfl
    | none =>
      simp only [sum_eq ranged inside outside (within_of_unknown unknown), Option.bind_some]
      rcases (g.sentence tokens).combine p.work.tables top with ⟨sum, constant, _ | ⟨cell, cells⟩⟩
      · simp only [record_eq, Option.bind_some]
        rfl
      · rfl

theorem rounds_eq {p : Pass Float} (sound : (g.sentence tokens).Sound p.work.tables) (n : Nat) :
    g.rounds? tokens n p = some ((g.sentence tokens).rounds n p) := by
  induction n with
  | zero => rfl
  | succ n ih =>
    have kept := Sentence.sound_rounds sound n
    rw [rounds?, ih, Sentence.rounds_succ]
    exact round_eq ranged kept.inside kept.outside

/-- Once the stack is worked off, further rounds change nothing. -/
theorem demand_eq {work : Work Float} (sound : (g.sentence tokens).Sound work.tables) (cell : Cell) :
    ∃ last, ∀ n, last ≤ n → g.demand? tokens n work cell = some ((g.sentence tokens).demand work cell) := by
  obtain ⟨last, ends⟩ := Sentence.exists_rounds (s := g.sentence tokens) work [cell]
  refine ⟨last, ?_⟩
  intro n enough
  obtain ⟨more, rfl⟩ := Nat.exists_eq_add_of_le' enough
  have kept := Sentence.sound_rounds (p := ⟨work, [cell]⟩) sound last
  rw [ends] at kept
  rw [demand?, rounds_eq ranged sound, Sentence.rounds_add, ends, Sentence.rounds_worked_off]
  simp only [Option.bind_eq_bind, Option.bind_some, List.isEmpty_nil, if_true, read_eq kept.inside kept.outside]
  rfl

end

end Grammar

end StochasticGrammar
