import StochasticGrammar.Chart.Tables
import StochasticGrammar.Proofs.Grammar.RuleTables
import StochasticGrammar.Proofs.TameWeight

/-!
The recursions that charts stand for, without tables and with nothing left out. An inside weight sums
over all rules and all splits of the span, an outside weight over all siblings to the right and then
over all to the left.
-/

namespace StochasticGrammar

namespace Sentence

variable {W : Type} [Weight W] (s : Sentence W)

/-- The weight of the rule by which a non-terminal stands for a token. -/
def tokenWeight (start nt : Nat) : W :=
  match (s.tokens[start]?).bind fun t => s.rules.rules.findIdx? (· == ⟨nt, .terminal t⟩) with
  | some rule => s.value rule
  | none => 0

def plainInside (start stop nt : Nat) : W :=
  if start < stop then
    ((BinaryRule.all s.rules.rules).filter fun r => r.lhs == nt).foldl (fun (total : W) (r : BinaryRule) =>
      (List.finRange (stop - start)).foldl (fun (total : W) (k : Fin (stop - start)) =>
        total + s.value r.index * plainInside start (start + k) r.left *
          plainInside (start + k + 1) stop r.right) total) 0
  else s.tokenWeight start nt
termination_by stop - start

def plainOutside (start stop nt : Nat) : W :=
  if start = 0 ∧ stop + 1 = s.tokens.size then if nt = s.rules.start then 1 else 0
  else
    let right := ((BinaryRule.all s.rules.rules).filter fun r => r.left == nt).foldl
      (fun (total : W) (r : BinaryRule) =>
        (List.finRange (s.tokens.size - (stop + 1))).foldl
          (fun (total : W) (k : Fin (s.tokens.size - (stop + 1))) =>
            total + plainOutside start (stop + 1 + k) r.lhs * s.value r.index *
              s.plainInside (stop + 1) (stop + 1 + k) r.right) total) 0
    ((BinaryRule.all s.rules.rules).filter fun r => r.right == nt).foldl
      (fun (total : W) (r : BinaryRule) =>
        (List.finRange start).foldl (fun (total : W) (b : Fin start) =>
          total + plainOutside b stop r.lhs * s.value r.index *
            s.plainInside b (start - 1) r.left) total) right
termination_by start + (s.tokens.size - stop)

def plain : Cell → W
  | .inside start stop nt => s.plainInside start stop nt
  | .outside start stop nt => s.plainOutside start stop nt

/-- The terms of a span without those that are left out: all rules and all splits. -/
def allInsideTerms (start stop nt : Nat) : List Term :=
  ((BinaryRule.all s.rules.rules).filter fun r => r.lhs == nt).flatMap fun r =>
    (List.range' start (stop - start)).map fun m =>
      ⟨r.index, .inside start m r.left, .inside (m + 1) stop r.right⟩

def allRightTerms (start stop nt : Nat) : List Term :=
  ((BinaryRule.all s.rules.rules).filter fun r => r.left == nt).flatMap fun r =>
    (List.range' (stop + 1) (s.tokens.size - (stop + 1))).map fun e =>
      ⟨r.index, .inside (stop + 1) e r.right, .outside start e r.lhs⟩

def allLeftTerms (start stop nt : Nat) : List Term :=
  ((BinaryRule.all s.rules.rules).filter fun r => r.right == nt).flatMap fun r =>
    (List.range start).map fun b => ⟨r.index, .inside b (start - 1) r.left, .outside b stop r.lhs⟩

def plainPlan : Cell → Plan W
  | .inside start stop nt =>
    if start < stop then { base := 0, terms := s.allInsideTerms start stop nt }
    else { base := s.tokenWeight start nt }
  | .outside start stop nt =>
    if start = 0 ∧ stop + 1 = s.tokens.size then { base := if nt = s.rules.start then 1 else 0 }
    else { base := 0, terms := s.allRightTerms start stop nt ++ s.allLeftTerms start stop nt }

/-- The product of a term, given the weights of its cells. -/
def product (read : Cell → W) (cell : Cell) (term : Term) : W :=
  cell.product (s.value term.rule) (read term.first) (read term.second)

end Sentence

section

variable {W : Type} {s : Sentence W}

theorem mem_allInsideTerms {start stop nt : Nat} {term : Term} :
    term ∈ s.allInsideTerms start stop nt ↔ ∃ r ∈ BinaryRule.all s.rules.rules, r.lhs = nt ∧
      ∃ m, start ≤ m ∧ m < stop ∧
        term = ⟨r.index, .inside start m r.left, .inside (m + 1) stop r.right⟩ := by
  simp only [Sentence.allInsideTerms, List.mem_flatMap, List.mem_filter, List.mem_map,
    List.mem_range'_1, beq_iff_eq]
  constructor
  · intro listed
    rcases listed with ⟨r, ⟨member, same⟩, m, ⟨low, high⟩, rfl⟩
    exact ⟨r, member, same, m, low, by omega, rfl⟩
  · intro fits
    rcases fits with ⟨r, member, same, m, low, high, rfl⟩
    exact ⟨r, ⟨member, same⟩, m, ⟨low, by omega⟩, rfl⟩

theorem mem_allRightTerms {start stop nt : Nat} {term : Term} :
    term ∈ s.allRightTerms start stop nt ↔ ∃ r ∈ BinaryRule.all s.rules.rules, r.left = nt ∧
      ∃ e, stop < e ∧ e < s.tokens.size ∧
        term = ⟨r.index, .inside (stop + 1) e r.right, .outside start e r.lhs⟩ := by
  simp only [Sentence.allRightTerms, List.mem_flatMap, List.mem_filter, List.mem_map,
    List.mem_range'_1, beq_iff_eq]
  constructor
  · intro listed
    rcases listed with ⟨r, ⟨member, same⟩, e, ⟨low, high⟩, rfl⟩
    exact ⟨r, member, same, e, by omega, by omega, rfl⟩
  · intro fits
    rcases fits with ⟨r, member, same, e, low, high, rfl⟩
    exact ⟨r, ⟨member, same⟩, e, ⟨by omega, by omega⟩, rfl⟩

theorem mem_allLeftTerms {start stop nt : Nat} {term : Term} :
    term ∈ s.allLeftTerms start stop nt ↔ ∃ r ∈ BinaryRule.all s.rules.rules, r.right = nt ∧
      ∃ b, b < start ∧
        term = ⟨r.index, .inside b (start - 1) r.left, .outside b stop r.lhs⟩ := by
  simp only [Sentence.allLeftTerms, List.mem_flatMap, List.mem_filter, List.mem_map,
    List.mem_range, beq_iff_eq]
  constructor
  · intro listed
    rcases listed with ⟨r, ⟨member, same⟩, b, before, rfl⟩
    exact ⟨r, member, same, b, before, rfl⟩
  · intro fits
    rcases fits with ⟨r, member, same, b, before, rfl⟩
    exact ⟨r, ⟨member, same⟩, b, before, rfl⟩

variable [Weight W]

theorem product_congr {read read' : Cell → W} {cell : Cell} {term : Term}
    (first : read term.first = read' term.first) (second : read term.second = read' term.second) :
    s.product read cell term = s.product read' cell term := by
  rw [Sentence.product, Sentence.product, first, second]

theorem foldl_add_congr {terms : List Term} {f g : Term → W} (same : ∀ term ∈ terms, f term = g term)
    (base : W) :
    terms.foldl (fun total term => total + f term) base =
      terms.foldl (fun total term => total + g term) base := by
  induction terms generalizing base with
  | nil => rfl
  | cons term terms ih =>
    rw [List.foldl_cons, List.foldl_cons, same term List.mem_cons_self]
    exact ih (fun other member => same other (List.mem_cons_of_mem _ member)) _

theorem range'_eq_map (start count : Nat) :
    List.range' start count = (List.finRange count).map fun k => start + k.val := by
  apply List.ext_getElem
  · simp
  · intro i left right
    simp

theorem foldl_range' {α : Type} (f : α → Nat → α) (start count : Nat) (a : α) :
    (List.range' start count).foldl f a =
      (List.finRange count).foldl (fun a (k : Fin count) => f a (start + k)) a := by
  rw [range'_eq_map, List.foldl_map]

theorem plain_eq (cell : Cell) :
    s.plain cell = (s.plainPlan cell).terms.foldl (fun total term => total + s.product s.plain cell term)
      (s.plainPlan cell).base := by
  cases cell with
  | inside start stop nt =>
    rw [Sentence.plain, Sentence.plainInside, Sentence.plainPlan]
    split
    · simp only [Sentence.allInsideTerms, List.foldl_flatMap, List.foldl_map, foldl_range']
      rfl
    · rfl
  | outside start stop nt =>
    rw [Sentence.plain, Sentence.plainOutside, Sentence.plainPlan]
    split
    · rfl
    · have left : List.range start = List.range' 0 start := List.range_eq_range'
      simp only [Sentence.allRightTerms, Sentence.allLeftTerms, List.foldl_append, List.foldl_flatMap,
        List.foldl_map, left, foldl_range', Nat.zero_add]
      rfl

theorem plainPlan_base (cell : Cell) : (s.plainPlan cell).terms = [] ∨ (s.plainPlan cell).base = 0 := by
  cases cell with
  | inside start stop nt =>
    rw [Sentence.plainPlan]
    split
    · exact .inr rfl
    · exact .inl rfl
  | outside start stop nt =>
    rw [Sentence.plainPlan]
    split
    · exact .inl rfl
    · exact .inr rfl

/-- The cells of a term are those of the sentence again, and of lower rank. -/
theorem plainPlan_rank (formed : s.rules.WellFormed) {cell : Cell} (within : s.Within cell) {term : Term}
    (member : term ∈ (s.plainPlan cell).terms) :
    (s.Within term.first ∧ term.first.rank s.tokens.size < cell.rank s.tokens.size) ∧
      s.Within term.second ∧ term.second.rank s.tokens.size < cell.rank s.tokens.size := by
  cases cell with
  | inside start stop nt =>
    rcases within with ⟨order, inside, -⟩
    simp only [Sentence.grid] at inside
    rw [Sentence.plainPlan] at member
    split at member
    · rcases mem_allInsideTerms.mp member with ⟨r, present, -, m, low, high, rfl⟩
      rcases formed.binary_of_mem present with ⟨-, left, right⟩
      simp only [Sentence.Within, SpanGrid.Holds, Sentence.grid, Cell.rank]
      omega
    · cases member
  | outside start stop nt =>
    rcases within with ⟨order, inside, -⟩
    simp only [Sentence.grid] at inside
    rw [Sentence.plainPlan] at member
    split at member
    · cases member
    · rcases List.mem_append.mp member with member | member
      · rcases mem_allRightTerms.mp member with ⟨r, present, -, e, low, high, rfl⟩
        rcases formed.binary_of_mem present with ⟨parent, -, sibling⟩
        simp only [Sentence.Within, SpanGrid.Holds, Sentence.grid, Cell.rank]
        omega
      · rcases mem_allLeftTerms.mp member with ⟨r, present, -, b, before, rfl⟩
        rcases formed.binary_of_mem present with ⟨parent, sibling, -⟩
        simp only [Sentence.Within, SpanGrid.Holds, Sentence.grid, Cell.rank]
        omega

end

/-- The sentence with weights that are watched. -/
def Sentence.watched {W : Type} [Weight W] [TameWeight W] (s : Sentence W) : Sentence (Watched W) where
  rules := s.rules
  value rule := .of (s.value rule)
  certain := s.certain
  tokens := s.tokens

/-- Nothing that goes into the weight of a cell fails to be tame. -/
def Sentence.Tame {W : Type} [Weight W] [TameWeight W] (s : Sentence W) (cell : Cell) : Prop :=
  (s.watched.plain cell).tame = true

instance {W : Type} [Weight W] [TameWeight W] (s : Sentence W) (cell : Cell) : Decidable (s.Tame cell) :=
  inferInstanceAs (Decidable (_ = true))

section

variable {W : Type} [Weight W] [TameWeight W] {s : Sentence W}

theorem foldl_add_value {terms : List Term} {f : Term → Watched W} (base : Watched W) :
    (terms.foldl (fun total term => total + f term) base).value =
      terms.foldl (fun total term => total + (f term).value) base.value := by
  induction terms generalizing base with
  | nil => rfl
  | cons term terms ih => exact ih (base + f term)

theorem foldl_add_tame {terms : List Term} {f : Term → Watched W} {base : Watched W}
    (tame : (terms.foldl (fun total term => total + f term) base).tame = true) :
    base.tame = true ∧ ∀ term ∈ terms, (f term).tame = true := by
  induction terms generalizing base with
  | nil => exact ⟨tame, by simp⟩
  | cons term terms ih =>
    rcases ih tame with ⟨sum, others⟩
    rcases Watched.add_tame sum with ⟨before, here⟩
    refine ⟨before, ?_⟩
    intro other member
    rcases List.mem_cons.mp member with rfl | member
    · exact here
    · exact others other member

theorem plainPlan_watched (cell : Cell) :
    (s.watched.plainPlan cell).terms = (s.plainPlan cell).terms ∧
      (s.watched.plainPlan cell).base = .of (s.plainPlan cell).base := by
  cases cell with
  | inside start stop nt =>
    by_cases order : start < stop
    · simp only [Sentence.plainPlan, if_pos order]
      exact ⟨rfl, rfl⟩
    · simp only [Sentence.plainPlan, if_neg order, true_and]
      unfold Sentence.tokenWeight
      change (match (s.tokens[start]?).bind fun t => s.rules.rules.findIdx? (· == ⟨nt, .terminal t⟩) with
        | some rule => Watched.of (s.value rule)
        | none => Watched.of 0) = _
      cases (s.tokens[start]?).bind fun t => s.rules.rules.findIdx? (· == ⟨nt, .terminal t⟩) with
      | none => rfl
      | some rule => rfl
  | outside start stop nt =>
    by_cases full : start = 0 ∧ stop + 1 = s.tokens.size
    · have full' : start = 0 ∧ stop + 1 = s.watched.tokens.size := full
      simp only [Sentence.plainPlan, if_pos full, if_pos full', true_and]
      by_cases root : nt = s.rules.start
      · have root' : nt = s.watched.rules.start := root
        rw [if_pos root, if_pos root']
        rfl
      · have root' : ¬ nt = s.watched.rules.start := root
        rw [if_neg root, if_neg root']
        rfl
    · have full' : ¬ (start = 0 ∧ stop + 1 = s.watched.tokens.size) := full
      simp only [Sentence.plainPlan, if_neg full, if_neg full']
      exact ⟨rfl, rfl⟩

theorem product_watched (read : Cell → Watched W) (cell : Cell) (term : Term) :
    (s.watched.product read cell term).value = s.product (fun other => (read other).value) cell term := by
  cases cell <;> rfl

theorem watched_plain_value (formed : s.rules.WellFormed) {cell : Cell} (within : s.Within cell) :
    (s.watched.plain cell).value = s.plain cell := by
  induction rank : cell.rank s.tokens.size using Nat.strongRecOn generalizing cell with
  | _ rank ih =>
    subst rank
    rcases plainPlan_watched (s := s) cell with ⟨terms, base⟩
    rw [plain_eq, plain_eq cell, terms, base, foldl_add_value]
    apply foldl_add_congr
    intro term member
    rcases plainPlan_rank formed within member with ⟨⟨first, firstLower⟩, second, secondLower⟩
    rw [product_watched]
    apply product_congr
    · exact ih _ firstLower first rfl
    · exact ih _ secondLower second rfl

/-- A weight without anything that is not tame is tame itself. -/
theorem tame_value (cell : Cell) (tame : s.Tame cell) :
    TameWeight.tame (s.watched.plain cell).value = true := by
  have honest : ∀ (terms : List Term) (f : Term → Watched W) (base : Watched W),
      (base.tame = true → TameWeight.tame base.value = true) →
      (terms.foldl (fun total term => total + f term) base).tame = true →
      TameWeight.tame (terms.foldl (fun total term => total + f term) base).value = true := by
    intro terms f
    induction terms with
    | nil => exact fun _ start => start
    | cons term terms ih =>
      intro base _
      apply ih
      intro sum
      change (base.tame && (f term).tame && TameWeight.tame (base.value + (f term).value)) = true at sum
      simp only [Bool.and_eq_true] at sum
      exact sum.2
  unfold Sentence.Tame at tame
  rw [plain_eq] at tame ⊢
  apply honest _ _ _ _ tame
  rw [(plainPlan_watched cell).2]
  exact id

/-- When a cell is tame, so are the cells that it reads, and what it multiplies by zero is zero. -/
theorem tame_terms (formed : s.rules.WellFormed) {cell : Cell} (within : s.Within cell)
    (tame : s.Tame cell) {term : Term} (member : term ∈ (s.plainPlan cell).terms) :
    s.Tame term.first ∧ s.Tame term.second ∧
      ((s.plain term.first == 0) = true ∨ (s.plain term.second == 0) = true →
        (s.product s.plain cell term == 0) = true) := by
  rcases plainPlan_rank formed within member with ⟨⟨firstWithin, -⟩, secondWithin, -⟩
  have first := watched_plain_value formed firstWithin
  have second := watched_plain_value formed secondWithin
  unfold Sentence.Tame at tame
  rw [plain_eq] at tame
  have product : (s.watched.product s.watched.plain cell term).tame = true := by
    apply (foldl_add_tame tame).2
    rw [(plainPlan_watched cell).1]
    exact member
  cases cell with
  | inside start stop nt =>
    change (s.watched.value term.rule * s.watched.plain term.first * s.watched.plain term.second).tame =
      true at product
    rcases Watched.mul_tame product with ⟨front, secondTame, -⟩
    rcases Watched.mul_tame front with ⟨ruleTame, firstTame, frontTame⟩
    refine ⟨firstTame, secondTame, ?_⟩
    change _ → (s.value term.rule * s.plain term.first * s.plain term.second == 0) = true
    rw [← first, ← second]
    intro zero
    rcases zero with zero | zero
    · have none := (TameWeight.zero_mul zero ruleTame).2
      exact (TameWeight.zero_mul none (tame_value _ secondTame)).1
    · exact (TameWeight.zero_mul zero frontTame).2
  | outside start stop nt =>
    change (s.watched.plain term.second * s.watched.value term.rule * s.watched.plain term.first).tame =
      true at product
    rcases Watched.mul_tame product with ⟨front, firstTame, -⟩
    rcases Watched.mul_tame front with ⟨secondTame, ruleTame, frontTame⟩
    refine ⟨firstTame, secondTame, ?_⟩
    change _ → (s.plain term.second * s.value term.rule * s.plain term.first == 0) = true
    rw [← first, ← second]
    intro zero
    rcases zero with zero | zero
    · exact (TameWeight.zero_mul zero frontTame).2
    · have none := (TameWeight.zero_mul zero ruleTame).1
      exact (TameWeight.zero_mul none (tame_value _ firstTame)).1

end

end StochasticGrammar
