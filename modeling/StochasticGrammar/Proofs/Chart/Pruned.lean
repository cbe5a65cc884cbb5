import Mathlib.Data.List.Sort
import StochasticGrammar.Proofs.Chart.Plain
import StochasticGrammar.Proofs.Chart.Settled
import StochasticGrammar.Proofs.Grammar.Pruning

/-!
Leaving terms out. A cell that the pruning tables rule out is zero, since each of its terms has a
factor that they rule out too. The settled weights, which leave out such terms and those with a
constant zero, are therefore those of the plain recursions.
-/

namespace StochasticGrammar

namespace Sentence

variable {W : Type} (s : Sentence W)

/-- Whether the pruning tables let a cell be other than zero. -/
def possible : Cell → Bool
  | .inside start stop nt => s.mayCover nt start stop
  | .outside start stop nt => s.mayStand nt start stop

def covered : Cell → Bool
  | .inside start stop nt => s.mayCover nt start stop
  | .outside .. => true

def kept (term : Term) : Bool := s.covered term.first && s.covered term.second

end Sentence

section

variable {W : Type} {s : Sentence W}

theorem mayCover_iff {nt start stop : Nat} :
    s.mayCover nt start stop = true ↔ ∃ a b, s.tokens[start]? = some a ∧ s.tokens[stop]? = some b ∧
      s.rules.pruning.first.get nt a = true ∧ s.rules.pruning.last.get nt b = true ∧
        (start = stop ∨ s.rules.isSingle nt = false) := by
  unfold Sentence.mayCover
  cases s.tokens[start]? with
  | none => simp
  | some a =>
    cases s.tokens[stop]? with
    | none => simp
    | some b => simp [and_assoc]

theorem mayStand_iff {nt start stop : Nat} :
    s.mayStand nt start stop = true ↔
      (start = 0 ∨ ∃ t, s.tokens[start - 1]? = some t ∧ s.rules.pruning.before.get nt t = true) ∧
        (stop + 1 = s.tokens.size ∨
          ∃ t, s.tokens[stop + 1]? = some t ∧ s.rules.pruning.after.get nt t = true) := by
  simp [Sentence.mayStand, Option.any_eq_true]

theorem eq_of_isSingle {nt start stop : Nat} (cover : s.mayCover nt start stop = true)
    (single : s.rules.isSingle nt = true) : start = stop := by
  rcases mayCover_iff.mp cover with ⟨a, b, -, -, -, -, equal | several⟩
  · exact equal
  · rw [single] at several
    cases several

theorem impossible_of_hidden {cell : Cell} (hidden : s.covered cell = false) : s.possible cell = false := by
  cases cell with
  | inside start stop nt => exact hidden
  | outside start stop nt => cases hidden

variable (formed : s.rules.WellFormed)

include formed

theorem mayCover_token {rule nt i t : Nat} (found : s.rules.rules[rule]? = some ⟨nt, .terminal t⟩)
    (token : s.tokens[i]? = some t) : s.mayCover nt i i = true := by
  have member : (⟨rule, nt, t⟩ : TerminalRule) ∈ TerminalRule.all s.rules.rules := mem_allTerminal.mpr found
  exact mayCover_iff.mpr ⟨t, t, token, token, RuleSet.first_terminal formed member,
    RuleSet.last_terminal formed member, .inl rfl⟩

variable {r : BinaryRule} (member : r ∈ BinaryRule.all s.rules.rules)

include member

theorem mayCover_binary {start m stop : Nat} (left : s.mayCover r.left start m = true)
    (right : s.mayCover r.right (m + 1) stop = true) : s.mayCover r.lhs start stop = true := by
  rcases mayCover_iff.mp left with ⟨a, -, begins, -, first, -⟩
  rcases mayCover_iff.mp right with ⟨-, b, -, ends, -, last, -⟩
  have several : s.rules.isSingle r.lhs = false := by
    rw [Bool.eq_false_iff]
    intro single
    exact (RuleSet.isSingle_iff formed).mp single r member rfl
  exact mayCover_iff.mpr ⟨a, b, begins, ends, RuleSet.first_binary formed member first,
    RuleSet.last_binary formed member last, .inr several⟩

theorem mayStand_left {start stop e : Nat} (parent : s.mayStand r.lhs start e = true)
    (sibling : s.mayCover r.right (stop + 1) e = true) : s.mayStand r.left start stop = true := by
  rcases mayStand_iff.mp parent with ⟨before, -⟩
  rcases mayCover_iff.mp sibling with ⟨a, -, next, -, first, -⟩
  refine mayStand_iff.mpr ⟨?_, .inr ⟨a, next, (RuleSet.after_closed formed member).1 first⟩⟩
  rcases before with zero | ⟨t, token, stands⟩
  · exact .inl zero
  · exact .inr ⟨t, token, (RuleSet.before_closed formed member).2 stands⟩

theorem mayStand_right {b start stop : Nat} (parent : s.mayStand r.lhs b stop = true)
    (sibling : s.mayCover r.left b (start - 1) = true) : s.mayStand r.right start stop = true := by
  rcases mayStand_iff.mp parent with ⟨-, after⟩
  rcases mayCover_iff.mp sibling with ⟨-, a, -, previous, -, last, -⟩
  refine mayStand_iff.mpr ⟨.inr ⟨a, previous, (RuleSet.before_closed formed member).1 last⟩, ?_⟩
  rcases after with full | ⟨t, token, stands⟩
  · exact .inl full
  · exact .inr ⟨t, token, (RuleSet.after_closed formed member).2 stands⟩

end

/-- Of two ascending lists a condition picks the same if they agree wherever it holds. -/
theorem filter_eq_of_mem_iff {l l' : List Nat} {p : Nat → Bool} (ascending : l.Pairwise (· < ·))
    (ascending' : l'.Pairwise (· < ·)) (same : ∀ m, p m = true → (m ∈ l ↔ m ∈ l')) :
    l.filter p = l'.filter p := by
  apply List.Pairwise.eq_of_mem_iff (ascending.filter p) (ascending'.filter p)
  intro m
  rw [List.mem_filter, List.mem_filter]
  exact and_congr_left (same m)

section

variable {W : Type} {s : Sentence W} {r : BinaryRule} {start stop : Nat}

theorem filter_splits (order : start < stop) :
    ((s.splits r start stop).filter fun m => s.mayCover r.left start m && s.mayCover r.right (m + 1) stop) =
      (List.range' start (stop - start)).filter
        fun m => s.mayCover r.left start m && s.mayCover r.right (m + 1) stop := by
  apply filter_eq_of_mem_iff
  · unfold Sentence.splits
    split
    · exact List.pairwise_singleton _ _
    · split
      · exact List.pairwise_singleton _ _
      · exact List.pairwise_lt_range'
  · exact List.pairwise_lt_range'
  · intro m both
    rw [Bool.and_eq_true] at both
    unfold Sentence.splits
    split
    · rename_i single
      have equal := eq_of_isSingle both.1 single
      rw [List.mem_singleton, List.mem_range'_1]
      omega
    · split
      · rename_i single
        have equal := eq_of_isSingle both.2 single
        rw [List.mem_singleton, List.mem_range'_1]
        omega
      · exact Iff.rfl

theorem filter_rightEnds :
    ((s.rightEnds r stop).filter fun e => s.mayCover r.right (stop + 1) e) =
      (List.range' (stop + 1) (s.tokens.size - (stop + 1))).filter
        fun e => s.mayCover r.right (stop + 1) e := by
  apply filter_eq_of_mem_iff List.pairwise_lt_range' List.pairwise_lt_range'
  intro e cover
  rw [List.mem_range'_1, List.mem_range'_1]
  split
  · rename_i single
    have equal := eq_of_isSingle cover single
    omega
  · exact Iff.rfl

theorem filter_leftEnds :
    ((s.leftEnds r start).filter fun b => s.mayCover r.left b (start - 1)) =
      (List.range start).filter fun b => s.mayCover r.left b (start - 1) := by
  apply filter_eq_of_mem_iff
  · unfold Sentence.leftEnds
    split
    · exact List.pairwise_lt_range'
    · exact List.pairwise_lt_range
  · exact List.pairwise_lt_range
  · intro b cover
    unfold Sentence.leftEnds
    split
    · rename_i single
      have equal := eq_of_isSingle cover single
      rw [List.mem_range'_1, List.mem_range]
      omega
    · exact Iff.rfl

variable (formed : s.rules.WellFormed)

include formed

theorem insideTerms_eq (order : start < stop) (nt : Nat) :
    s.insideTerms start stop nt = (s.allInsideTerms start stop nt).filter s.kept := by
  simp only [Sentence.insideTerms, Sentence.allInsideTerms, RuleSet.binariesOf_eq formed,
    List.filter_flatMap, List.filter_map, filter_splits order]
  rfl

theorem rightTerms_eq (start stop nt : Nat) :
    s.rightTerms start stop nt = (s.allRightTerms start stop nt).filter s.kept := by
  have same : ∀ r : BinaryRule, (s.kept ∘ fun e =>
      (⟨r.index, .inside (stop + 1) e r.right, .outside start e r.lhs⟩ : Term)) =
        fun e => s.mayCover r.right (stop + 1) e := by
    intro r
    funext e
    exact Bool.and_true _
  simp only [Sentence.rightTerms, Sentence.allRightTerms, RuleSet.withLeft_eq formed,
    List.filter_flatMap, List.filter_map, filter_rightEnds, same]

theorem leftTerms_eq (start stop nt : Nat) :
    s.leftTerms start stop nt = (s.allLeftTerms start stop nt).filter s.kept := by
  have same : ∀ r : BinaryRule, (s.kept ∘ fun b =>
      (⟨r.index, .inside b (start - 1) r.left, .outside b stop r.lhs⟩ : Term)) =
        fun b => s.mayCover r.left b (start - 1) := by
    intro r
    funext b
    exact Bool.and_true _
  simp only [Sentence.leftTerms, Sentence.allLeftTerms, RuleSet.withRight_eq formed,
    List.filter_flatMap, List.filter_map, filter_leftEnds, same]

theorem tokenRule_eq (start nt : Nat) :
    ((s.tokens[start]?).bind fun t => s.rules.rules.findIdx? (· == ⟨nt, .terminal t⟩)) =
      (s.tokens[start]?).bind (s.rules.terminalRule? nt) := by
  congr 1
  funext t
  apply Option.ext
  intro rule
  rw [RuleSet.terminalRule_eq_some_iff formed, Array.findIdx?_eq_some_iff_getElem]
  constructor
  · intro first
    rcases first with ⟨inside, equal, -⟩
    rw [Array.getElem?_eq_getElem inside, beq_iff_eq.mp equal]
  · intro found
    rcases Array.getElem?_eq_some_iff.mp found with ⟨inside, equal⟩
    refine ⟨inside, beq_iff_eq.mpr equal, ?_⟩
    intro other less other_equal
    have other_found := Array.getElem?_eq_getElem (Nat.lt_trans less inside)
    rw [beq_iff_eq.mp other_equal] at other_found
    have equal := formed.index_unique other_found found
    omega

end

section

variable {W : Type} [Weight W] {s : Sentence W}

/-- A cell is possible as soon as both cells of a term are. -/
theorem possible_of_term (formed : s.rules.WellFormed) {cell : Cell} {term : Term}
    (member : term ∈ (s.plainPlan cell).terms) (first : s.possible term.first = true)
    (second : s.possible term.second = true) : s.possible cell = true := by
  cases cell with
  | inside start stop nt =>
    rw [Sentence.plainPlan] at member
    split at member
    · rcases mem_allInsideTerms.mp member with ⟨r, present, rfl, m, -, -, rfl⟩
      exact mayCover_binary formed present first second
    · cases member
  | outside start stop nt =>
    rw [Sentence.plainPlan] at member
    split at member
    · cases member
    · rcases List.mem_append.mp member with member | member
      · rcases mem_allRightTerms.mp member with ⟨r, present, rfl, e, -, -, rfl⟩
        exact mayStand_left formed present second first
      · rcases mem_allLeftTerms.mp member with ⟨r, present, rfl, b, -, rfl⟩
        exact mayStand_right formed present second first

theorem tokenWeight_zero (formed : s.rules.WellFormed) {start nt : Nat}
    (impossible : s.mayCover nt start start = false) : s.tokenWeight start nt = 0 := by
  have none : (s.tokens[start]?).bind (s.rules.terminalRule? nt) = none := by
    rw [Option.bind_eq_none_iff]
    intro t token
    rw [Option.eq_none_iff_forall_ne_some]
    intro rule found
    have cover := mayCover_token formed ((RuleSet.terminalRule_eq_some_iff formed).mp found) token
    rw [impossible] at cover
    cases cover
  simp only [Sentence.tokenWeight, tokenRule_eq formed, none]

theorem plan_of_impossible {cell : Cell} (impossible : s.possible cell = false) :
    s.plan cell = ⟨0, true, []⟩ := by
  cases cell with
  | inside start stop nt =>
    have hidden : s.mayCover nt start stop = false := impossible
    simp only [Sentence.plan, hidden, Bool.not_false, if_true]
  | outside start stop nt =>
    have hidden : s.mayStand nt start stop = false := impossible
    have part : ¬ (start = 0 ∧ stop + 1 = s.tokens.size) := by
      intro full
      have stands : s.mayStand nt start stop = true := mayStand_iff.mpr ⟨.inl full.1, .inl full.2⟩
      rw [hidden] at stands
      cases stands
    simp only [Sentence.plan, if_neg part, hidden, Bool.not_false, if_true]

theorem plan_eq (formed : s.rules.WellFormed) {cell : Cell} (possible : s.possible cell = true) :
    (s.plan cell).terms = (s.plainPlan cell).terms.filter s.kept ∧
      (s.plan cell).base = (s.plainPlan cell).base := by
  cases cell with
  | inside start stop nt =>
    have cover : s.mayCover nt start stop = true := possible
    simp only [Sentence.plan, Sentence.plainPlan, cover, Bool.not_true, Bool.false_eq_true, if_false]
    by_cases order : start < stop
    · rw [if_pos order, if_pos order]
      exact ⟨insideTerms_eq formed order nt, rfl⟩
    · rw [if_neg order, if_neg order]
      simp only [Sentence.tokenWeight, tokenRule_eq formed]
      cases (s.tokens[start]?).bind (s.rules.terminalRule? nt) with
      | none => exact ⟨rfl, rfl⟩
      | some rule => exact ⟨rfl, rfl⟩
  | outside start stop nt =>
    have stand : s.mayStand nt start stop = true := possible
    simp only [Sentence.plan, Sentence.plainPlan, stand, Bool.not_true, Bool.false_eq_true, if_false]
    split
    · exact ⟨rfl, rfl⟩
    · refine ⟨?_, rfl⟩
      rw [rightTerms_eq formed, leftTerms_eq formed, List.filter_append]

variable [TameWeight W]

theorem foldl_add_zero {terms : List Term} {f : Term → W} {base : W} (unsigned : Unsigned base)
    (zero : ∀ term ∈ terms, (f term == 0) = true) :
    terms.foldl (fun total term => total + f term) base = base := by
  induction terms with
  | nil => rfl
  | cons term terms ih =>
    rw [List.foldl_cons, TameWeight.add_zero unsigned (zero term List.mem_cons_self)]
    exact ih fun other member => zero other (List.mem_cons_of_mem _ member)

theorem plain_impossible (formed : s.rules.WellFormed) {cell : Cell} (within : s.Within cell)
    (tame : s.Tame cell) (impossible : s.possible cell = false) : s.plain cell = 0 := by
  induction rank : cell.rank s.tokens.size using Nat.strongRecOn generalizing cell with
  | _ rank ih =>
    subst rank
    have base : (s.plainPlan cell).base = 0 := by
      cases cell with
      | inside start stop nt =>
        have hidden : s.mayCover nt start stop = false := impossible
        rw [Sentence.plainPlan]
        split
        · rfl
        · have single : stop = start := by
            have order := within.1
            omega
          rw [single] at hidden
          exact tokenWeight_zero formed hidden
      | outside start stop nt =>
        rw [Sentence.plainPlan]
        split
        · rename_i full
          have stands : s.mayStand nt start stop = true := mayStand_iff.mpr ⟨.inl full.1, .inl full.2⟩
          have hidden : s.mayStand nt start stop = false := impossible
          rw [hidden] at stands
          cases stands
        · rfl
    rw [plain_eq, base]
    apply foldl_add_zero unsigned_zero
    intro term member
    rcases plainPlan_rank formed within member with ⟨⟨first, firstLower⟩, second, secondLower⟩
    rcases tame_terms formed within tame member with ⟨firstTame, secondTame, zero⟩
    apply zero
    cases some : s.possible term.first with
    | false =>
      rw [ih _ firstLower first firstTame some rfl]
      exact .inl TameWeight.zero_beq
    | true =>
      cases other : s.possible term.second with
      | false =>
        rw [ih _ secondLower second secondTame other rfl]
        exact .inr TameWeight.zero_beq
      | true =>
        rw [possible_of_term formed member some other] at impossible
        cases impossible

theorem addKnown_unsigned {read : Cell → W × Bool} {cell : Cell} {total : W × Bool} {term : Term}
    (unsigned : total.2 = true → Unsigned total.1) (constant : (s.addKnown read cell total term).2 = true) :
    Unsigned (s.addKnown read cell total term).1 := by
  simp only [Sentence.addKnown] at constant ⊢
  split
  · rename_i skip
    rw [if_pos skip] at constant
    exact unsigned constant
  · rename_i use
    rw [if_neg use, Bool.and_eq_true] at constant
    exact TameWeight.unsigned_add (unsigned constant.1) _

theorem foldl_addKnown_unsigned {read : Cell → W × Bool} {cell : Cell} {terms : List Term}
    {total : W × Bool} (unsigned : total.2 = true → Unsigned total.1) :
    (terms.foldl (s.addKnown read cell) total).2 = true →
      Unsigned (terms.foldl (s.addKnown read cell) total).1 := by
  induction terms generalizing total with
  | nil => exact unsigned
  | cons term terms ih => exact ih (addKnown_unsigned unsigned)

/-- The sum over the terms that are kept, without those that have a constant zero, is that over all. -/
theorem foldl_addKnown_eq {read : Cell → W × Bool} {cell : Cell} {terms : List Term} {total : W × Bool}
    (unsigned : Unsigned total.1)
    (reads : ∀ term ∈ terms, (read term.first).1 = s.plain term.first ∧
      (read term.second).1 = s.plain term.second)
    (zero : ∀ term ∈ terms, (s.plain term.first == 0) = true ∨ (s.plain term.second == 0) = true →
      (s.product s.plain cell term == 0) = true)
    (dropped : ∀ term ∈ terms, s.kept term = false →
      (s.plain term.first == 0) = true ∨ (s.plain term.second == 0) = true) :
    ((terms.filter s.kept).foldl (s.addKnown read cell) total).1 =
      terms.foldl (fun sum term => sum + s.product s.plain cell term) total.1 := by
  induction terms generalizing total with
  | nil => rfl
  | cons term terms ih =>
    have tail : ∀ total' : W × Bool, Unsigned total'.1 →
        ((terms.filter s.kept).foldl (s.addKnown read cell) total').1 =
          terms.foldl (fun sum term => sum + s.product s.plain cell term) total'.1 := by
      intro total' unsigned'
      exact ih unsigned' (fun other member => reads other (List.mem_cons_of_mem _ member))
        (fun other member => zero other (List.mem_cons_of_mem _ member))
        (fun other member => dropped other (List.mem_cons_of_mem _ member))
    rcases reads term List.mem_cons_self with ⟨first, second⟩
    rw [List.foldl_cons]
    cases keep : s.kept term with
    | false =>
      have nothing := zero term List.mem_cons_self (dropped term List.mem_cons_self keep)
      rw [List.filter_cons_of_neg (by simp [keep]), TameWeight.add_zero unsigned nothing]
      exact tail total unsigned
    | true =>
      have here : (s.addKnown read cell total term).1 = total.1 + s.product s.plain cell term := by
        simp only [Sentence.addKnown, first, second]
        split
        · rename_i skip
          rw [Bool.or_eq_true, Bool.and_eq_true, Bool.and_eq_true] at skip
          have nothing := zero term List.mem_cons_self (skip.imp And.left And.left)
          exact (TameWeight.add_zero unsigned nothing).symm
        · rfl
      rw [List.filter_cons_of_pos keep, List.foldl_cons, tail, here]
      rw [here]
      exact TameWeight.unsigned_add unsigned _

theorem remembered_fst {value : W} {constant : Bool} (unsigned : constant = true → Unsigned value) :
    (remembered value constant).1 = value := by
  unfold remembered
  cases constant with
  | false => rfl
  | true =>
    simp only [Bool.true_and]
    split
    · rename_i zero
      exact (unsigned rfl zero).symm
    · split
      · rename_i one
        exact (TameWeight.eq_one one).symm
      · rfl

theorem plan_unsigned (certain : ∀ rule, s.certain rule = true → Unsigned (s.value rule)) (cell : Cell)
    (constant : (s.plan cell).constant = true) : Unsigned (s.plan cell).base := by
  cases cell with
  | inside start stop nt =>
    simp only [Sentence.plan] at constant ⊢
    split
    · exact unsigned_zero
    · rename_i cover
      rw [if_neg cover] at constant
      split
      · exact unsigned_zero
      · rename_i order
        rw [if_neg order] at constant
        split
        · rename_i rule found
          rw [found] at constant
          exact certain rule constant
        · exact unsigned_zero
  | outside start stop nt =>
    simp only [Sentence.plan]
    split
    · change Unsigned (if nt = s.rules.start then 1 else 0)
      split
      · exact unsigned_one
      · exact unsigned_zero
    · split
      · exact unsigned_zero
      · exact unsigned_zero

/-- Pruning and the skipping of constant zeros change no bit of a weight. -/
theorem settled_eq_plain (formed : s.rules.WellFormed)
    (certain : ∀ rule, s.certain rule = true → Unsigned (s.value rule)) {cell : Cell}
    (within : s.Within cell) (tame : s.Tame cell) : (s.settled cell).1 = s.plain cell := by
  induction rank : cell.rank s.tokens.size using Nat.strongRecOn generalizing cell with
  | _ rank ih =>
    subst rank
    have constant : (s.total s.settled cell).2 = true → Unsigned (s.total s.settled cell).1 :=
      foldl_addKnown_unsigned (plan_unsigned certain cell)
    rw [settled_eq within, remembered_fst constant]
    cases possible : s.possible cell with
    | false =>
      rw [plain_impossible formed within tame possible, Sentence.total, plan_of_impossible possible]
      rfl
    | true =>
      rcases plan_eq formed possible with ⟨terms, base⟩
      rw [Sentence.total, terms, base, plain_eq]
      rcases plainPlan_base (s := s) cell with none | zero
      · rw [none]
        rfl
      · have unsigned : Unsigned (s.plainPlan cell).base := by
          rw [zero]
          exact unsigned_zero
        apply foldl_addKnown_eq unsigned
        · intro term member
          rcases plainPlan_rank formed within member with ⟨⟨first, firstLower⟩, second, secondLower⟩
          rcases tame_terms formed within tame member with ⟨firstTame, secondTame, -⟩
          exact ⟨ih _ firstLower first firstTame rfl, ih _ secondLower second secondTame rfl⟩
        · intro term member
          exact (tame_terms formed within tame member).2.2
        · intro term member hidden
          rcases plainPlan_rank formed within member with ⟨⟨first, -⟩, second, -⟩
          rcases tame_terms formed within tame member with ⟨firstTame, secondTame, -⟩
          rcases Bool.and_eq_false_iff.mp hidden with hidden | hidden
          · rw [plain_impossible formed first firstTame (impossible_of_hidden hidden)]
            exact .inl TameWeight.zero_beq
          · rw [plain_impossible formed second secondTame (impossible_of_hidden hidden)]
            exact .inr TameWeight.zero_beq

end

end StochasticGrammar
