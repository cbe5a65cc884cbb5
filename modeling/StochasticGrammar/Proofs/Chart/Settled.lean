import StochasticGrammar.Chart.Resolve
import StochasticGrammar.Proofs.Memo.Lookup

/-!
The weights of cells without a table. A cell is settled by the weights of the cells of lower rank
that its terms read. Which cells are constant, and the weights of those that are, do not depend on
the values of rules that are not certain.
-/

namespace StochasticGrammar

namespace Sentence

variable {W : Type} [Weight W] (s : Sentence W)

/-- Adds a term to a sum, given all weights; terms with a constant zero are left out. -/
def addKnown (read : Cell → W × Bool) (cell : Cell) (total : W × Bool) (term : Term) : W × Bool :=
  let (first, firstConstant) := read term.first
  let (second, secondConstant) := read term.second
  if first == 0 && firstConstant || second == 0 && secondConstant then total
  else
    (total.1 + cell.product (s.value term.rule) first second,
      total.2 && (s.certain term.rule && firstConstant && secondConstant))

def total (read : Cell → W × Bool) (cell : Cell) : W × Bool :=
  let plan := s.plan cell
  plan.terms.foldl (s.addKnown read cell) (plan.base, plan.constant)

/-- The weights of the cells below a rank. -/
def settledBelow : (rank : Nat) → Cell → W × Bool
  | 0, _ => (0, true)
  | rank + 1, cell =>
    if s.Within cell then
      let (value, constant) := s.total (settledBelow rank) cell
      remembered value constant
    else (0, true)

/-- The weight of a cell and whether it is constant. -/
def settled (cell : Cell) : W × Bool := s.settledBelow (cell.rank s.tokens.size + 1) cell

/-- The sentence under other values of its rules. -/
def revalued (value : Nat → W) : Sentence W := { s with value }

end Sentence

section

variable {W : Type} [Weight W] {s : Sentence W}

theorem addKnown_congr {read read' : Cell → W × Bool} {cell : Cell} {total : W × Bool} {term : Term}
    (first : read term.first = read' term.first) (second : read term.second = read' term.second) :
    s.addKnown read cell total term = s.addKnown read' cell total term := by
  simp only [Sentence.addKnown, first, second]

theorem foldl_addKnown_congr {read read' : Cell → W × Bool} {cell : Cell} {terms : List Term}
    (same : ∀ term ∈ terms, read term.first = read' term.first ∧ read term.second = read' term.second)
    (start : W × Bool) :
    terms.foldl (s.addKnown read cell) start = terms.foldl (s.addKnown read' cell) start := by
  induction terms generalizing start with
  | nil => rfl
  | cons term terms ih =>
    have here := same term List.mem_cons_self
    simp only [List.foldl_cons]
    rw [addKnown_congr here.1 here.2]
    exact ih (fun other member => same other (List.mem_cons_of_mem _ member)) _

theorem total_congr {read read' : Cell → W × Bool} {cell : Cell} (within : s.Within cell)
    (same : ∀ other : Cell, other.rank s.tokens.size < cell.rank s.tokens.size →
      read other = read' other) :
    s.total read cell = s.total read' cell := by
  apply foldl_addKnown_congr
  intro term member
  have lower := plan_rank within member
  exact ⟨same _ lower.1, same _ lower.2⟩

theorem settledBelow_eq_settled {rank : Nat} {cell : Cell} (below : cell.rank s.tokens.size < rank) :
    s.settledBelow rank cell = s.settled cell := by
  induction rank using Nat.strongRecOn generalizing cell with
  | _ rank ih =>
    obtain ⟨level, rfl⟩ : ∃ level, rank = level + 1 := ⟨rank - 1, by omega⟩
    by_cases within : s.Within cell
    · have same : s.total (s.settledBelow level) cell =
          s.total (s.settledBelow (cell.rank s.tokens.size)) cell := by
        apply total_congr within
        intro other lower
        by_cases equal : cell.rank s.tokens.size = level
        · rw [equal]
        · rw [ih level (by omega) (by omega), ih (cell.rank s.tokens.size) (by omega) lower]
      simp only [Sentence.settled, Sentence.settledBelow, if_pos within, same]
    · simp only [Sentence.settled, Sentence.settledBelow, if_neg within]

theorem settled_of_not_within {cell : Cell} (beyond : ¬ s.Within cell) : s.settled cell = (0, true) := by
  simp only [Sentence.settled, Sentence.settledBelow, if_neg beyond]

theorem settled_eq {cell : Cell} (within : s.Within cell) :
    s.settled cell =
      remembered (s.total s.settled cell).1 (s.total s.settled cell).2 := by
  have same : s.total (s.settledBelow (cell.rank s.tokens.size)) cell = s.total s.settled cell := by
    apply total_congr within
    intro other lower
    exact settledBelow_eq_settled lower
  simp only [Sentence.settled, Sentence.settledBelow, if_pos within]
  rw [← same]

end

/-- Two answers that say the same of constancy, and are the same if constant. -/
def Agree {W : Type} (answer other : W × Bool) : Prop :=
  answer.2 = other.2 ∧ (answer.2 = true → answer = other)

theorem Agree.refl {W : Type} (answer : W × Bool) : Agree answer answer := ⟨rfl, fun _ => rfl⟩

theorem Agree.and {W : Type} {a b : W × Bool} (value other : W) (constant : Bool)
    (agree : Agree a b) (same : a.2 && constant → value = other) :
    Agree (value, a.2 && constant) (other, b.2 && constant) := by
  refine ⟨by rw [agree.1], fun both => ?_⟩
  rw [same both, agree.1]

section

variable {W : Type} [Weight W] {s : Sentence W}

theorem Agree.remembered {a b : W × Bool} (agree : Agree a b) :
    Agree (remembered a.1 a.2) (remembered b.1 b.2) := by
  cases constant : a.2 with
  | true =>
    rw [← agree.2 constant, constant]
    exact Agree.refl _
  | false =>
    have other : b.2 = false := agree.1.symm.trans constant
    rw [other]
    simp [StochasticGrammar.remembered, Agree]

theorem Agree.constantZero {a b : W × Bool} (agree : Agree a b) :
    (a.1 == 0 && a.2) = (b.1 == 0 && b.2) := by
  cases constant : a.2 with
  | true => rw [← agree.2 constant, constant]
  | false => rw [← agree.1, constant, Bool.and_false, Bool.and_false]

variable {value : Nat → W} (certain : ∀ rule, s.certain rule = true → value rule = s.value rule)

include certain

theorem addKnown_agree {read read' : Cell → W × Bool} {cell : Cell} {total total' : W × Bool}
    {term : Term} (before : Agree total total') (first : Agree (read term.first) (read' term.first))
    (second : Agree (read term.second) (read' term.second)) :
    Agree (s.addKnown read cell total term)
      ((s.revalued value).addKnown read' cell total' term) := by
  simp only [Sentence.addKnown, first.constantZero, second.constantZero]
  split
  · exact before
  · have flags : (s.certain term.rule && (read term.first).2 && (read term.second).2) =
        ((s.revalued value).certain term.rule && (read' term.first).2 && (read' term.second).2) := by
      rw [first.1, second.1]
      rfl
    rw [← flags]
    apply before.and
    intro all
    simp only [Bool.and_eq_true] at all
    obtain ⟨sum, ⟨rule, left⟩, right⟩ := all
    rw [before.2 sum, first.2 left, second.2 right]
    exact congrArg (fun v => _ + cell.product v _ _) (certain term.rule rule).symm

theorem foldl_addKnown_agree {read read' : Cell → W × Bool} {cell : Cell} {total total' : W × Bool}
    (reads : ∀ other, Agree (read other) (read' other)) (terms : List Term)
    (before : Agree total total') :
    Agree (terms.foldl (s.addKnown read cell) total)
      (terms.foldl ((s.revalued value).addKnown read' cell) total') := by
  induction terms generalizing total total' with
  | nil => exact before
  | cons term terms ih =>
    exact ih (addKnown_agree certain before (reads term.first) (reads term.second))

theorem plan_agree (cell : Cell) :
    ((s.revalued value).plan cell).terms = (s.plan cell).terms ∧
      Agree ((s.plan cell).base, (s.plan cell).constant)
        (((s.revalued value).plan cell).base, ((s.revalued value).plan cell).constant) := by
  cases cell with
  | inside start stop nt =>
    have cover : (s.revalued value).mayCover nt start stop = s.mayCover nt start stop := rfl
    have terms : (s.revalued value).insideTerms start stop nt = s.insideTerms start stop nt := rfl
    have rule : ((s.revalued value).tokens[start]?).bind ((s.revalued value).rules.terminalRule? nt) =
        (s.tokens[start]?).bind (s.rules.terminalRule? nt) := rfl
    simp only [Sentence.plan, cover, terms, rule]
    split
    · exact ⟨rfl, Agree.refl _⟩
    · split
      · exact ⟨rfl, Agree.refl _⟩
      · split
        · rename_i rule _
          exact ⟨rfl, rfl, fun fixed => congrArg (·, s.certain rule) (certain rule fixed).symm⟩
        · exact ⟨rfl, Agree.refl _⟩
  | outside start stop nt =>
    have stand : (s.revalued value).mayStand nt start stop = s.mayStand nt start stop := rfl
    have right : (s.revalued value).rightTerms start stop nt = s.rightTerms start stop nt := rfl
    have left : (s.revalued value).leftTerms start stop nt = s.leftTerms start stop nt := rfl
    have size : (s.revalued value).tokens.size = s.tokens.size := rfl
    have root : (s.revalued value).rules.start = s.rules.start := rfl
    simp only [Sentence.plan, stand, right, left, size, root]
    split
    · exact ⟨trivial, Agree.refl _⟩
    · split <;> exact ⟨trivial, Agree.refl _⟩

theorem settledBelow_agree (rank : Nat) (cell : Cell) :
    Agree (s.settledBelow rank cell) ((s.revalued value).settledBelow rank cell) := by
  induction rank generalizing cell with
  | zero => exact Agree.refl _
  | succ rank ih =>
    by_cases within : s.Within cell
    · have within' : (s.revalued value).Within cell := within
      obtain ⟨terms, base⟩ := plan_agree certain cell
      simp only [Sentence.settledBelow, if_pos within, if_pos within', Sentence.total, terms]
      exact (foldl_addKnown_agree certain ih _ base).remembered
    · have beyond : ¬ (s.revalued value).Within cell := within
      simp only [Sentence.settledBelow, if_neg within, if_neg beyond]
      exact Agree.refl _

/-- Which cells are constant, and their weights, rest on the certain rules alone. -/
theorem settled_agree (cell : Cell) :
    Agree (s.settled cell) ((s.revalued value).settled cell) :=
  settledBelow_agree certain _ cell

end

end StochasticGrammar
