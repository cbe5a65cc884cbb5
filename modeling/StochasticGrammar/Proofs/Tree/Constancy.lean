import StochasticGrammar.Proofs.Double.Heights
import StochasticGrammar.Proofs.Tree.Surroundings

/-!
What a constant weight counts. The ways to a cell are the derivations of its span, or the surroundings
of it. A cell is constant when all rules of all its ways are certain; its weight is then the number of
the ways, as far as a double can tell: zero and one are exact, and anything more is at least two.
-/

namespace StochasticGrammar

namespace Double

/-- What the sum of `n` ones can be. -/
def Counts : Nat → Float → Prop
  | 0, x => x = 0.0
  | 1, x => x = 1.0
  | _ + 2, x => Nonnegative x ∧ 2 * unity ≤ height x

variable {n m : Nat} {x y : Float}

theorem number_two : number 2.0 = .finite .positive (2 ^ 52) (-51) (by decide) := by rfl

theorem two_pow_mul {a b c : Nat} (sum : a + b = c + 1) : 2 ^ a * 2 ^ b = 2 * 2 ^ c := by
  rw [← Nat.pow_add, sum, Nat.pow_succ']

theorem height_two : Nonnegative 2.0 ∧ height 2.0 = 2 * unity := by
  have lift : ((-51 : Int) + 1074).toNat = 1023 := by decide
  have units_eq : units (number 2.0) = 2 * unity := by
    rw [number_two, units, lift, unity]
    exact two_pow_mul rfl
  constructor
  · rw [Nonnegative, number_two]
    trivial
  · have cast : ((2 * unity : Nat) : ℕ∞) = 2 * unity := by push_cast; rfl
    rw [← cast, ← units_eq, height, number_two]
    rfl

theorem attained_two : attained (2 * unity * unity) = 2 * unity := by
  have two := attained_height height_two.1
  rwa [height_two.2] at two

theorem Counts.least (counts : Counts n x) (some : 0 < n) : Nonnegative x ∧ unity ≤ height x := by
  match n, counts with
  | 1, one =>
    subst one
    exact ⟨nonnegative_one, height_one.ge⟩
  | n + 2, many =>
    refine ⟨many.1, le_trans ?_ many.2⟩
    rw [two_mul]
    exact le_add_right (le_refl _)

/-- Two ways or more are told by the height. -/
theorem counts_many (many : 2 ≤ n) : Counts n x ↔ Nonnegative x ∧ 2 * unity ≤ height x := by
  match n, many with
  | n + 2, _ => exact Iff.rfl

theorem Counts.zero_iff (counts : Counts n x) : (x == 0.0) = true ↔ n = 0 := by
  constructor
  · intro zero
    by_contra some
    obtain ⟨sign, zero⟩ := beq_zero_iff.mp zero
    have least := (counts.least (Nat.pos_of_ne_zero some)).2
    have none : height x = 0 := by
      rw [height, zero]
      rfl
    rw [none] at least
    exact unity_ne_zero (le_antisymm least zero_le)
  · rintro rfl
    rw [counts]
    exact beq_zero_iff.mpr ⟨_, number_zero⟩

theorem Counts.eq_one (counts : Counts n 1.0) : n = 1 := by
  match n, counts with
  | 0, zero =>
    have same : number 0.0 = number 1.0 := congrArg number zero.symm
    rw [number_zero, number_one] at same
    cases same
  | 1, _ => rfl
  | n + 2, many =>
    have less : (unity : ℕ∞) < 2 * unity := by
      have less : unity < 2 * unity := by
        have some := unity_pos
        omega
      exact_mod_cast less
    have most := many.2
    rw [height_one] at most
    exact absurd less (not_lt_of_ge most)

theorem Counts.add (left : Counts n x) (some : 0 < m) (right : Counts m y) : Counts (n + m) (x + y) := by
  obtain ⟨sign, low⟩ := right.least some
  rcases Nat.eq_zero_or_pos n with rfl | positive
  · have zero : x = 0.0 := left
    subst zero
    rw [Nat.zero_add]
    by_cases one : m = 1
    · subst one
      have equal : y = 1.0 := right
      subst equal
      rfl
    · have many : 2 ≤ m := by omega
      have high := (counts_many many).mp right
      exact (counts_many many).mpr ⟨(height_add nonnegative_zero sign).1,
        le_trans high.2 (height_le_add nonnegative_zero sign).2⟩
  · obtain ⟨sign', low'⟩ := left.least positive
    obtain ⟨sum, height_eq⟩ := height_add sign' sign
    refine (counts_many (by omega)).mpr ⟨sum, ?_⟩
    calc (2 * unity : ℕ∞)
        = attained (2 * unity * unity) := attained_two.symm
      _ ≤ attained ((height x + height y) * unity) := by
        rw [two_mul]
        exact attained_mono (mul_le_mul_left (add_le_add low' low) _)
      _ = height (x + y) := height_eq.symm

theorem Counts.mul (left : Counts n x) (right : Counts m y) (some : 0 < n) (some' : 0 < m) :
    Counts (n * m) (x * y) := by
  obtain ⟨sign, low⟩ := left.least some
  obtain ⟨sign', low'⟩ := right.least some'
  by_cases single : n = 1 ∧ m = 1
  · rcases single with ⟨rfl, rfl⟩
    have first : x = 1.0 := left
    have second : y = 1.0 := right
    subst first
    subst second
    rfl
  · have many : 2 ≤ n * m := by
      rcases Nat.lt_or_ge 1 n with more | few
      · exact Nat.le_trans more (Nat.le_mul_of_pos_right n some')
      · have more : 2 ≤ m := by omega
        exact Nat.le_trans more (Nat.le_mul_of_pos_left m some)
    have large : (2 * unity * unity : ℕ∞) ≤ height x * height y := by
      rcases Nat.lt_or_ge 1 n with more | few
      · exact mul_le_mul' ((counts_many more).mp left).2 low'
      · have more : 2 ≤ m := by omega
        calc (2 * unity * unity : ℕ∞)
            = unity * (2 * unity) := by ring
          _ ≤ height x * height y := mul_le_mul' low ((counts_many more).mp right).2
    refine (counts_many many).mpr ?_
    rcases height_mul sign sign' with ⟨-, zero | zero⟩ | ⟨product, height_eq⟩
    · rw [zero] at low
      exact absurd (le_antisymm low zero_le) unity_ne_zero
    · rw [zero] at low'
      exact absurd (le_antisymm low' zero_le) unity_ne_zero
    · refine ⟨product, ?_⟩
      calc (2 * unity : ℕ∞)
          = attained (2 * unity * unity) := attained_two.symm
        _ ≤ attained (height x * height y) := attained_mono large
        _ = height (x * y) := height_eq.symm

end Double

namespace Sentence

section

variable {W : Type} (s : Sentence W)

/-- The rules of each way to a cell. -/
def ways : Cell → List (List Nat)
  | .inside start stop nt => (s.derivations start stop nt).map Derivation.rules
  | .outside start stop nt => (s.surroundings start stop nt).map Surrounding.rules

/-- The rules of each way that a term puts together. -/
def joinedWays (term : Term) : List (List Nat) :=
  (s.ways term.first).flatMap fun first =>
    (s.ways term.second).map fun second => term.rule :: (first ++ second)

def AllCertain (ways : List (List Nat)) : Prop := ∀ way ∈ ways, ∀ rule ∈ way, s.certain rule = true

/-- What terms are left out for. -/
def constantZero [Weight W] (answer : W × Bool) : Bool := answer.1 == 0 && answer.2

theorem addKnown_eq [Weight W] (read : Cell → W × Bool) (cell : Cell) (total : W × Bool) (term : Term) :
    s.addKnown read cell total term =
      if constantZero (read term.first) || constantZero (read term.second) then total
      else
        (total.1 + cell.product (s.value term.rule) (read term.first).1 (read term.second).1,
          total.2 && (s.certain term.rule && (read term.first).2 && (read term.second).2)) := rfl

end

/-- A weight that is constant when all rules of all ways are certain, and then counts the ways. -/
structure Tells (s : Sentence Float) (answer : Float × Bool) (ways : List (List Nat)) : Prop where
  flag : answer.2 = true ↔ s.AllCertain ways
  count : answer.2 = true → Double.Counts ways.length answer.1

end Sentence

section

variable {W : Type} {s : Sentence W} {start stop nt : Nat}

theorem ways_joined (term : Term) (inside : ∃ start stop nt, term.first = .inside start stop nt)
    (inside' : ∃ start stop nt, term.second = .inside start stop nt) :
    (s.joined term).map Derivation.rules = s.joinedWays term := by
  obtain ⟨rule, first, second⟩ := term
  obtain ⟨_, _, _, rfl⟩ := inside
  obtain ⟨_, _, _, rfl⟩ := inside'
  simp only [Sentence.joined, Sentence.joinedWays, Sentence.ways, Sentence.derivationsAt,
    List.map_flatMap, List.map_map, List.flatMap_map]
  rfl

theorem ways_framed {side : Nat → Derivation → Surrounding → Surrounding}
    (rules : ∀ {rule sibling above},
      (side rule sibling above).rules = rule :: (sibling.rules ++ above.rules)) (term : Term)
    (inside : ∃ start stop nt, term.first = .inside start stop nt)
    (outside : ∃ start stop nt, term.second = .outside start stop nt) :
    (s.framed side term).map Surrounding.rules = s.joinedWays term := by
  obtain ⟨rule, first, second⟩ := term
  obtain ⟨_, _, _, rfl⟩ := inside
  obtain ⟨_, _, _, rfl⟩ := outside
  simp only [Sentence.framed, Sentence.joinedWays, Sentence.ways, Sentence.derivationsAt,
    Sentence.surroundingsAt, List.map_flatMap, List.map_map, List.flatMap_map, Function.comp_def, rules]

theorem ways_inside (order : start < stop) :
    s.ways (.inside start stop nt) = (s.allInsideTerms start stop nt).flatMap s.joinedWays := by
  rw [Sentence.ways, derivations_of_lt order, List.map_flatMap]
  apply List.flatMap_congr
  intro term member
  rcases mem_allInsideTerms.mp member with ⟨r, -, -, m, -, -, rfl⟩
  exact ways_joined _ ⟨_, _, _, rfl⟩ ⟨_, _, _, rfl⟩

theorem ways_outside (part : ¬ (start = 0 ∧ stop + 1 = s.tokens.size)) :
    s.ways (.outside start stop nt) =
      (s.allRightTerms start stop nt ++ s.allLeftTerms start stop nt).flatMap s.joinedWays := by
  rw [Sentence.ways, surroundings_part part, List.map_append, List.map_flatMap, List.map_flatMap,
    List.flatMap_append]
  congr 1
  · apply List.flatMap_congr
    intro term member
    rcases mem_allRightTerms.mp member with ⟨r, -, -, e, -, -, rfl⟩
    exact ways_framed rfl _ ⟨_, _, _, rfl⟩ ⟨_, _, _, rfl⟩
  · apply List.flatMap_congr
    intro term member
    rcases mem_allLeftTerms.mp member with ⟨r, -, -, b, -, rfl⟩
    exact ways_framed rfl _ ⟨_, _, _, rfl⟩ ⟨_, _, _, rfl⟩

theorem length_joinedWays (term : Term) :
    (s.joinedWays term).length = (s.ways term.first).length * (s.ways term.second).length := by
  simp [Sentence.joinedWays, List.length_flatMap]

theorem joinedWays_eq_nil {term : Term} :
    s.joinedWays term = [] ↔ s.ways term.first = [] ∨ s.ways term.second = [] := by
  rw [← List.length_eq_zero_iff, length_joinedWays, Nat.mul_eq_zero, List.length_eq_zero_iff,
    List.length_eq_zero_iff]

/-- A cell with a way is one that the pruning tables let pass. -/
theorem possible_of_ways [Weight W] (formed : s.rules.WellFormed) {cell : Cell} (within : s.Within cell)
    (some : s.ways cell ≠ []) : s.possible cell = true := by
  induction rank : cell.rank s.tokens.size using Nat.strongRecOn generalizing cell with
  | _ rank ih =>
    subst rank
    have of_terms (same : s.ways cell = (s.plainPlan cell).terms.flatMap s.joinedWays) :
        s.possible cell = true := by
      rw [same, ne_eq, List.flatMap_eq_nil_iff, not_forall] at some
      obtain ⟨term, some⟩ := some
      rw [Classical.not_imp, joinedWays_eq_nil, not_or] at some
      obtain ⟨member, first, second⟩ := some
      obtain ⟨⟨within, lower⟩, within', lower'⟩ := plainPlan_rank formed ‹_› member
      exact possible_of_term formed member (ih _ lower within first rfl) (ih _ lower' within' second rfl)
    cases cell with
    | inside start stop nt =>
      rcases Nat.eq_or_lt_of_le within.1 with rfl | order
      · rw [Sentence.ways, ne_eq, List.map_eq_nil_iff] at some
        obtain ⟨tree, member⟩ := List.exists_mem_of_ne_nil _ some
        exact ((mem_derivations formed (Nat.le_refl _)).mp member).mayCover formed
      · apply of_terms
        rw [ways_inside order, Sentence.plainPlan, if_pos order]
    | outside start stop nt =>
      by_cases full : start = 0 ∧ stop + 1 = s.tokens.size
      · exact mayStand_iff.mpr ⟨.inl full.1, .inl full.2⟩
      · apply of_terms
        rw [ways_outside full, Sentence.plainPlan, if_neg full]

end

section

variable {s : Sentence Float} {answer total : Float × Bool} {ways : List (List Nat)}

theorem Sentence.Tells.constantZero_iff (tells : s.Tells answer ways) :
    Sentence.constantZero answer = true ↔ ways = [] := by
  rw [Sentence.constantZero, Bool.and_eq_true]
  constructor
  · intro zero
    exact List.length_eq_zero_iff.mp ((tells.count zero.2).zero_iff.mp zero.1)
  · rintro rfl
    have constant : answer.2 = true := tells.flag.mpr (by simp [Sentence.AllCertain])
    exact ⟨(tells.count constant).zero_iff.mpr rfl, constant⟩

/-- The tables represent such a weight as it is. -/
theorem Sentence.Tells.remembered (tells : s.Tells answer ways) :
    remembered answer.1 answer.2 = answer := by
  obtain ⟨value, constant⟩ := answer
  cases constant with
  | false => rfl
  | true =>
    have counts := tells.count rfl
    simp only [StochasticGrammar.remembered, Bool.true_and]
    split
    · rename_i zero
      rw [counts.zero_iff.mp zero] at counts
      exact congrArg (·, true) counts.symm
    · split
      · rename_i one
        exact congrArg (·, true) (Double.eq_one one).symm
      · rfl

theorem allCertain_append {ways' : List (List Nat)} :
    s.AllCertain (ways ++ ways') ↔ s.AllCertain ways ∧ s.AllCertain ways' := by
  simp only [Sentence.AllCertain, List.mem_append, or_imp, forall_and]

theorem allCertain_joinedWays {term : Term} (first : s.ways term.first ≠ [])
    (second : s.ways term.second ≠ []) : s.AllCertain (s.joinedWays term) ↔
      s.certain term.rule = true ∧ s.AllCertain (s.ways term.first) ∧
        s.AllCertain (s.ways term.second) := by
  obtain ⟨a, memberA⟩ := List.exists_mem_of_ne_nil _ first
  obtain ⟨b, memberB⟩ := List.exists_mem_of_ne_nil _ second
  have joined {a b : List Nat} (memberA : a ∈ s.ways term.first) (memberB : b ∈ s.ways term.second) :
      term.rule :: (a ++ b) ∈ s.joinedWays term :=
    List.mem_flatMap.mpr ⟨a, memberA, List.mem_map.mpr ⟨b, memberB, rfl⟩⟩
  constructor
  · intro all
    refine ⟨all _ (joined memberA memberB) _ List.mem_cons_self, ?_, ?_⟩
    · intro way member rule within
      exact all _ (joined member memberB) _ (List.mem_cons_of_mem _ (List.mem_append_left _ within))
    · intro way member rule within
      exact all _ (joined memberA member) _ (List.mem_cons_of_mem _ (List.mem_append_right _ within))
  · rintro ⟨certain, left, right⟩ way member rule within
    obtain ⟨a, memberA, made⟩ := List.mem_flatMap.mp member
    obtain ⟨b, memberB, rfl⟩ := List.mem_map.mp made
    rcases List.mem_cons.mp within with rfl | within
    · exact certain
    · rcases List.mem_append.mp within with inA | inB
      · exact left a memberA rule inA
      · exact right b memberB rule inB

variable (ones : ∀ rule < s.rules.rules.size, s.certain rule = true → s.value rule = 1.0)

include ones

/-- One more term: the step that the sum of a cell keeps to its ways. -/
theorem tells_addKnown {read : Cell → Float × Bool} {cell : Cell} {term : Term}
    (rule : term.rule < s.rules.rules.size) (tells : s.Tells total ways)
    (first : s.Tells (read term.first) (s.ways term.first))
    (second : s.Tells (read term.second) (s.ways term.second)) :
    s.Tells (s.addKnown read cell total term) (ways ++ s.joinedWays term) := by
  rw [Sentence.addKnown_eq]
  split
  · rename_i skip
    rw [Bool.or_eq_true, first.constantZero_iff, second.constantZero_iff] at skip
    rw [joinedWays_eq_nil.mpr skip, List.append_nil]
    exact tells
  · rename_i use
    rw [Bool.or_eq_true, first.constantZero_iff, second.constantZero_iff, not_or] at use
    refine ⟨?_, ?_⟩
    · rw [allCertain_append, allCertain_joinedWays use.1 use.2, ← tells.flag, ← first.flag, ← second.flag]
      simp only [Bool.and_eq_true, and_assoc]
    · intro all
      simp only [Bool.and_eq_true] at all
      obtain ⟨sum, ⟨certain, left⟩, right⟩ := all
      have one : Double.Counts 1 (s.value term.rule) := ones term.rule rule certain
      have left := first.count left
      have right := second.count right
      have some := List.length_pos_iff.mpr use.1
      have some' := List.length_pos_iff.mpr use.2
      have product : Double.Counts ((s.ways term.first).length * (s.ways term.second).length)
          (cell.product (s.value term.rule) (read term.first).1 (read term.second).1) := by
        cases cell with
        | inside start stop nt =>
          have both := (one.mul left Nat.one_pos some).mul right (by omega) some'
          rwa [Nat.one_mul] at both
        | outside start stop nt =>
          have both := (right.mul one some' Nat.one_pos).mul left (by omega) some
          rwa [Nat.mul_one, Nat.mul_comm] at both
      rw [List.length_append, length_joinedWays]
      exact (tells.count sum).add (Nat.mul_pos some some') product

theorem tells_foldl {read : Cell → Float × Bool} {cell : Cell} {terms : List Term}
    (rules : ∀ term ∈ terms, term.rule < s.rules.rules.size)
    (reads : ∀ term ∈ terms, s.Tells (read term.first) (s.ways term.first) ∧
      s.Tells (read term.second) (s.ways term.second)) (tells : s.Tells total ways) :
    s.Tells (terms.foldl (s.addKnown read cell) total) (ways ++ terms.flatMap s.joinedWays) := by
  induction terms generalizing total ways with
  | nil =>
    rw [List.flatMap_nil, List.append_nil]
    exact tells
  | cons term terms ih =>
    have here := List.mem_cons_self (a := term) (l := terms)
    rw [List.flatMap_cons, ← List.append_assoc]
    exact ih (fun other member => rules other (List.mem_cons_of_mem _ member))
      (fun other member => reads other (List.mem_cons_of_mem _ member))
      (tells_addKnown ones (rules term here) tells (reads term here).1 (reads term here).2)

end

section

variable {s : Sentence Float}

theorem rule_lt {cell : Cell} {term : Term} (member : term ∈ (s.plainPlan cell).terms) :
    term.rule < s.rules.rules.size := by
  have declared {r : BinaryRule} (present : r ∈ BinaryRule.all s.rules.rules) :
      r.index < s.rules.rules.size := (Array.getElem?_eq_some_iff.mp (mem_allBinary.mp present)).1
  cases cell with
  | inside start stop nt =>
    rw [Sentence.plainPlan] at member
    split at member
    · rcases mem_allInsideTerms.mp member with ⟨r, present, -, m, -, -, rfl⟩
      exact declared present
    · cases member
  | outside start stop nt =>
    rw [Sentence.plainPlan] at member
    split at member
    · cases member
    · rcases List.mem_append.mp member with member | member
      · rcases mem_allRightTerms.mp member with ⟨r, present, -, e, -, -, rfl⟩
        exact declared present
      · rcases mem_allLeftTerms.mp member with ⟨r, present, -, b, -, rfl⟩
        exact declared present

theorem tells_nil : s.Tells (0, true) [] where
  flag := by simp [Sentence.AllCertain]
  count _ := rfl

variable (formed : s.rules.WellFormed)

include formed

theorem ways_of_impossible {cell : Cell} (within : s.Within cell) (impossible : s.possible cell = false) :
    s.ways cell = [] := by
  by_contra some
  rw [possible_of_ways formed within some] at impossible
  cases impossible

/-- The terms that are left out have no ways. -/
theorem flatMap_kept {α : Type} {f : Term → List α} {cell : Cell} (within : s.Within cell)
    {terms : List Term} (all : ∀ term ∈ terms, term ∈ (s.plainPlan cell).terms)
    (empty : ∀ term ∈ terms, s.joinedWays term = [] → f term = []) :
    (terms.filter s.kept).flatMap f = terms.flatMap f := by
  induction terms with
  | nil => rfl
  | cons term terms ih =>
    have tail := ih (fun other member => all other (List.mem_cons_of_mem _ member))
      fun other member => empty other (List.mem_cons_of_mem _ member)
    rw [List.flatMap_cons, ← tail]
    cases keep : s.kept term with
    | true => rw [List.filter_cons_of_pos keep, List.flatMap_cons]
    | false =>
      obtain ⟨⟨first, -⟩, second, -⟩ := plainPlan_rank formed within (all term List.mem_cons_self)
      have none : f term = [] := by
        apply empty term List.mem_cons_self
        apply joinedWays_eq_nil.mpr
        exact (Bool.and_eq_false_iff.mp keep).imp
          (fun hidden => ways_of_impossible formed first (impossible_of_hidden hidden))
          fun hidden => ways_of_impossible formed second (impossible_of_hidden hidden)
      rw [List.filter_cons_of_neg (by simp [keep]), none, List.nil_append]

theorem tells_token (ones : ∀ rule < s.rules.rules.size, s.certain rule = true → s.value rule = 1.0)
    {start nt rule : Nat}
    (known : (s.tokens[start]?).bind (s.rules.terminalRule? nt) = some rule) :
    s.Tells (s.value rule, s.certain rule) [[rule]] where
  flag := by simp [Sentence.AllCertain]
  count certain := by
    obtain ⟨t, -, found⟩ := Option.bind_eq_some_iff.mp known
    have declared := (RuleSet.terminalRule_eq_some_iff formed).mp found
    exact ones rule (Array.getElem?_eq_some_iff.mp declared).1 certain

variable (ones : ∀ rule < s.rules.rules.size, s.certain rule = true → s.value rule = 1.0)

include ones

/-- The base of a sum tells of the ways that no term has. -/
theorem plan_tells {cell : Cell} (within : s.Within cell) :
    (∀ term ∈ (s.plan cell).terms, term ∈ (s.plainPlan cell).terms) ∧
      ∃ base, s.Tells ((s.plan cell).base, (s.plan cell).constant) base ∧
        s.ways cell = base ++ (s.plan cell).terms.flatMap s.joinedWays := by
  cases possible : s.possible cell with
  | false =>
    rw [plan_of_impossible possible, ways_of_impossible formed within possible]
    exact ⟨by simp, [], tells_nil, rfl⟩
  | true =>
    obtain ⟨terms, -⟩ := plan_eq formed possible
    have kept := flatMap_kept formed within (fun term member => member) (fun _ _ none => none)
    rw [← terms] at kept
    refine ⟨fun term member => List.mem_of_mem_filter (terms ▸ member), ?_⟩
    rw [kept]
    cases cell with
    | inside start stop nt =>
      have cover : s.mayCover nt start stop = true := possible
      simp only [Sentence.plan, Sentence.plainPlan, cover, Bool.not_true, Bool.false_eq_true, if_false]
      rcases Nat.eq_or_lt_of_le within.1 with rfl | order
      · rw [if_neg (Nat.lt_irrefl _), if_neg (Nat.lt_irrefl _), Sentence.ways, derivations_token formed]
        cases known : (s.tokens[start]?).bind (s.rules.terminalRule? nt) with
        | none => exact ⟨[], tells_nil, rfl⟩
        | some rule => exact ⟨[[rule]], tells_token formed ones known, rfl⟩
      · rw [if_pos order, if_pos order]
        exact ⟨[], tells_nil, ways_inside order⟩
    | outside start stop nt =>
      have stand : s.mayStand nt start stop = true := possible
      simp only [Sentence.plan, Sentence.plainPlan, stand, Bool.not_true, Bool.false_eq_true, if_false]
      by_cases full : start = 0 ∧ stop + 1 = s.tokens.size
      · rw [if_pos full, if_pos full, Sentence.ways, surroundings_full full]
        by_cases root : nt = s.rules.start
        · rw [if_pos root, if_pos root]
          refine ⟨[[]], ⟨by simp [Sentence.AllCertain], fun _ => rfl⟩, rfl⟩
        · rw [if_neg root, if_neg root]
          exact ⟨[], tells_nil, rfl⟩
      · rw [if_neg full, if_neg full]
        exact ⟨[], tells_nil, ways_outside full⟩

/-- The weight of every cell tells of its ways. -/
theorem settled_tells {cell : Cell} (within : s.Within cell) : s.Tells (s.settled cell) (s.ways cell) := by
  induction rank : cell.rank s.tokens.size using Nat.strongRecOn generalizing cell with
  | _ rank ih =>
    subst rank
    obtain ⟨terms, base, tells, ways_eq⟩ := plan_tells formed ones within
    have total : s.Tells (s.total s.settled cell) (s.ways cell) := by
      rw [ways_eq]
      apply tells_foldl ones
      · exact fun term member => rule_lt (terms term member)
      · intro term member
        obtain ⟨⟨first, lower⟩, second, lower'⟩ := plainPlan_rank formed within (terms term member)
        exact ⟨ih _ lower first rfl, ih _ lower' second rfl⟩
      · exact tells
    rw [settled_eq within, total.remembered]
    exact total

end

end StochasticGrammar
