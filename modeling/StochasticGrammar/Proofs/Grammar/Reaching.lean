import Mathlib
import StochasticGrammar.Grammar
import StochasticGrammar.Proofs.Grammar.RuleTables

/-!
The last two checks of a grammar. A non-terminal has no rules where its rows are empty. The search from
the start symbol ends with an empty queue, and what it has met then is all that there is to find: a
symbol that was met and does not wait has met the symbols of its rules.
-/

namespace StochasticGrammar

namespace Search

def Met (s : Search) (nt : Nat) : Prop := s.met[nt]? = some true

variable {s : Search} {nt other : Nat} {rules : List BinaryRule}

theorem met_or_unmet (inside : nt < s.met.size) : s.Met nt ∨ s.met[nt]? = some false := by
  rw [Met, Array.getElem?_eq_getElem inside]
  cases s.met[nt] <;> simp

@[simp] theorem size_meet (s : Search) (nt : Nat) : (s.meet nt).met.size = s.met.size := by
  unfold meet
  split
  · exact Array.size_setIfInBounds
  · rfl

theorem met_meet_iff (inside : nt < s.met.size) : (s.meet nt).Met other ↔ s.Met other ∨ other = nt := by
  unfold meet
  split
  · by_cases same : other = nt
    · subst same
      simp [Met, inside]
    · simp [Met, same, Ne.symm same]
  · rename_i met
    have here := (met_or_unmet inside).resolve_right met
    exact ⟨.inl, fun known => known.elim id fun same => same ▸ here⟩

/-- What is met newly waits in the queue. -/
theorem waits_meet : (s.meet nt).Met other → s.Met other ∨ other ∈ (s.meet nt).queue := by
  unfold meet
  split
  · intro known
    by_cases same : other = nt
    · exact .inr (by simp [same])
    · exact .inl (by simpa [Met, Array.getElem?_setIfInBounds, Ne.symm same] using known)
  · exact .inl

theorem mem_meet (waits : other ∈ (s.meet nt).queue) : other ∈ s.queue ∨ other = nt := by
  unfold meet at waits
  split at waits
  · simpa using waits
  · exact .inl waits

theorem queue_meet (waits : other ∈ s.queue) : other ∈ (s.meet nt).queue := by
  unfold meet
  split
  · exact List.mem_append_left _ waits
  · exact waits

/-- A symbol of one of the rules. -/
def Among (rules : List BinaryRule) (nt : Nat) : Prop := ∃ r ∈ rules, nt = r.left ∨ nt = r.right

/-- What looking at rules does: their symbols are met, and those that were not met before wait. -/
structure Expands (rules : List BinaryRule) (s next : Search) : Prop where
  size : next.met.size = s.met.size
  met_iff : ∀ nt, next.Met nt ↔ s.Met nt ∨ Among rules nt
  waits : ∀ nt, next.Met nt → s.Met nt ∨ nt ∈ next.queue
  keeps : ∀ nt ∈ s.queue, nt ∈ next.queue
  queue : ∀ nt ∈ next.queue, nt ∈ s.queue ∨ Among rules nt

theorem expands (range : ∀ r ∈ rules, r.left < s.met.size ∧ r.right < s.met.size) :
    Expands rules s (s.expand rules) := by
  induction rules generalizing s with
  | nil => exact ⟨rfl, by simp [expand, Among], fun _ => .inl, fun _ => id, fun _ => .inl⟩
  | cons r rest ih =>
    have inside := range r List.mem_cons_self
    have inside' : r.right < (s.meet r.left).met.size := by simpa using inside.2
    have later := ih (s := (s.meet r.left).meet r.right)
      (by simpa using fun r' member => range r' (List.mem_cons_of_mem _ member))
    have among {nt : Nat} : Among (r :: rest) nt ↔ (nt = r.left ∨ nt = r.right) ∨ Among rest nt := by
      simp [Among]
    change Expands (r :: rest) s (((s.meet r.left).meet r.right).expand rest)
    constructor
    · simpa using later.size
    · intro nt
      rw [later.met_iff, met_meet_iff inside', met_meet_iff inside.1, among, or_assoc, or_assoc, or_assoc]
    · intro nt known
      rcases later.waits nt known with known | waits
      · rcases waits_meet known with known | waits
        · exact (waits_meet known).imp_right fun waits => later.keeps nt (queue_meet waits)
        · exact .inr (later.keeps nt waits)
      · exact .inr waits
    · exact fun nt waits => later.keeps nt (queue_meet (queue_meet waits))
    · intro nt waits
      rw [among]
      rcases later.queue nt waits with waits | here
      · rcases mem_meet waits with waits | rfl
        · exact (mem_meet waits).imp_right fun same => .inl (.inl same)
        · exact .inr (.inl (.inr rfl))
      · exact .inr (.inr here)

end Search

namespace Declarations

open Search

/-- Some rule has the left side `nt`. -/
def HasRule (rules : Array Rule) (nt : Nat) : Prop := ∃ rule ∈ rules, rule.lhs = nt

inductive Reaches (rules : List BinaryRule) (start : Nat) : Nat → Prop where
  | start : Reaches rules start start
  | left {r} (member : r ∈ rules) (parent : Reaches rules start r.lhs) : Reaches rules start r.left
  | right {r} (member : r ∈ rules) (parent : Reaches rules start r.lhs) : Reaches rules start r.right

/-- The first number that passes a test is the least of which holds what is tested. -/
theorem isLeast_of_find {n nt : Nat} {test : Nat → Bool} {P : Nat → Prop}
    (tests : ∀ other < n, test other = true ↔ P other) (found : (List.range n).find? test = some nt) :
    IsLeast {other | other < n ∧ P other} nt := by
  obtain ⟨passed, member, before⟩ := List.find?_range_eq_some.mp found
  have inside := List.mem_range.mp member
  refine ⟨⟨inside, (tests nt inside).mp passed⟩, ?_⟩
  rintro other ⟨inside', holds⟩
  by_contra less
  have failed := before other (by omega)
  rw [(tests other inside').mpr holds] at failed
  cases failed

section

variable {rules : Array Rule} {n nt : Nat}

theorem rows_empty_iff (inside : nt < n) :
    (((RuleIndex.ofRules n rules).binariesOf nt).isEmpty &&
      ((RuleIndex.ofRules n rules).terminalsOf nt).isEmpty) = true ↔ ¬ HasRule rules nt := by
  rw [RuleIndex.binariesOf_ofRules inside, RuleIndex.terminalsOf_ofRules inside, Bool.and_eq_true,
    List.isEmpty_iff, List.isEmpty_iff, List.filter_eq_nil_iff, List.filter_eq_nil_iff]
  constructor
  · rintro ⟨binaries, terminals⟩ ⟨⟨lhs, production⟩, member, rfl⟩
    obtain ⟨number, found⟩ := Array.mem_iff_getElem?.mp member
    cases production with
    | terminal terminal => exact terminals ⟨number, lhs, terminal⟩ (mem_allTerminal.mpr found) (by simp)
    | binary left right => exact binaries ⟨number, lhs, left, right⟩ (mem_allBinary.mpr found) (by simp)
  · intro none
    constructor
    · intro r member same
      exact none ⟨_, Array.mem_of_getElem? (mem_allBinary.mp member), by simpa using same⟩
    · intro r member same
      exact none ⟨_, Array.mem_of_getElem? (mem_allTerminal.mp member), by simpa using same⟩

theorem ruleless_eq_none :
    ruleless? (.ofRules n rules) n = none ↔ ∀ nt < n, HasRule rules nt := by
  simp only [ruleless?, List.find?_eq_none, List.mem_range]
  exact forall₂_congr fun nt inside => by rw [rows_empty_iff inside, not_not]

theorem ruleless_eq_some (found : ruleless? (.ofRules n rules) n = some nt) :
    IsLeast {nt | nt < n ∧ ¬ HasRule rules nt} nt :=
  isLeast_of_find (fun _ inside => rows_empty_iff inside) found

end

section

variable {rules : Array Rule} {start n nt : Nat}

/-- Where a search stands. What was met is reached, and has met the symbols of its rules unless it
still waits. -/
structure Searching (n start : Nat) (rules : Array Rule) (s : Search) : Prop where
  size : s.met.size = n
  root : s.Met start
  met : ∀ nt, s.Met nt → Reaches (BinaryRule.all rules) start nt
  queue : ∀ nt ∈ s.queue, nt < n ∧ Reaches (BinaryRule.all rules) start nt
  closed : ∀ nt, s.Met nt → nt ∈ s.queue ∨
    ∀ r ∈ BinaryRule.all rules, r.lhs = nt → s.Met r.left ∧ s.Met r.right

theorem searching_ofStart (inside : start < n) : Searching n start rules (.ofStart n start) := by
  have only {nt : Nat} (known : (Search.ofStart n start).Met nt) : nt = start := by
    by_contra other
    simp [Met, ofStart, Ne.symm other, Array.getElem?_replicate] at known
  constructor
  · simp [ofStart]
  · simp [Met, ofStart, inside]
  · exact fun nt known => only known ▸ .start
  · intro nt waits
    obtain rfl := List.mem_singleton.mp waits
    exact ⟨inside, .start⟩
  · exact fun nt known => .inl (List.mem_singleton.mpr (only known))

variable (symbols : ∀ r ∈ BinaryRule.all rules, r.left < n ∧ r.right < n)

include symbols

theorem Searching.step {met : Array Bool} {queue : List Nat}
    (searching : Searching n start rules ⟨met, nt :: queue⟩) :
    Searching n start rules (expand ⟨met, queue⟩ ((RuleIndex.ofRules n rules).binariesOf nt)) := by
  obtain ⟨inside, reached⟩ := searching.queue nt List.mem_cons_self
  have size : met.size = n := searching.size
  rw [RuleIndex.binariesOf_ofRules inside]
  have mem_row {r : BinaryRule} :
      r ∈ (BinaryRule.all rules).filter (fun r => r.lhs == nt) ↔ r ∈ BinaryRule.all rules ∧ r.lhs = nt := by
    simp
  have row : Expands ((BinaryRule.all rules).filter fun r => r.lhs == nt) ⟨met, queue⟩ _ :=
    expands fun r member => size ▸ symbols r (mem_row.mp member).1
  have child {other : Nat} (among : Among ((BinaryRule.all rules).filter fun r => r.lhs == nt) other) :
      other < n ∧ Reaches (BinaryRule.all rules) start other := by
    obtain ⟨r, listed, same⟩ := among
    obtain ⟨member, rfl⟩ := mem_row.mp listed
    rcases same with rfl | rfl
    · exact ⟨(symbols r member).1, .left member reached⟩
    · exact ⟨(symbols r member).2, .right member reached⟩
  constructor
  · exact row.size.trans size
  · exact (row.met_iff start).mpr (.inl searching.root)
  · exact fun other known => ((row.met_iff other).mp known).elim (searching.met other) fun among => (child among).2
  · intro other waits
    exact (row.queue other waits).elim (fun waits => searching.queue other (List.mem_cons_of_mem _ waits)) child
  · intro other known
    rcases row.waits other known with known | waits
    · rcases searching.closed other known with waits | done
      · rcases List.mem_cons.mp waits with rfl | waits
        -- the symbol that has just been looked at
        · refine .inr fun r member same => ?_
          have listed := mem_row.mpr ⟨member, same⟩
          exact ⟨(row.met_iff _).mpr (.inr ⟨r, listed, .inl rfl⟩),
            (row.met_iff _).mpr (.inr ⟨r, listed, .inr rfl⟩)⟩
        · exact .inl (row.keeps other waits)
      · refine .inr fun r member same => ?_
        exact ⟨(row.met_iff _).mpr (.inl (done r member same).1),
          (row.met_iff _).mpr (.inl (done r member same).2)⟩
    · exact .inl waits

theorem Searching.run {s : Search} (searching : Searching n start rules s) :
    Searching n start rules ⟨s.run (.ofRules n rules), []⟩ := by
  fun_induction Search.run (RuleIndex.ofRules n rules) s with
  | case1 met => exact searching
  | case2 met nt queue ih => exact ih (searching.step symbols)

/-- The search meets just what is reached. -/
theorem reachable_iff (inside : start < n) :
    ((RuleIndex.ofRules n rules).reachable n start)[nt]? = some true ↔
      Reaches (BinaryRule.all rules) start nt := by
  have begun : Searching n start rules (.ofStart n start) := searching_ofStart inside
  have done := begun.run symbols
  refine ⟨done.met nt, fun reaches => ?_⟩
  have closed {r : BinaryRule} (member : r ∈ BinaryRule.all rules)
      (met : Met ⟨(Search.ofStart n start).run (.ofRules n rules), []⟩ r.lhs) :=
    (done.closed r.lhs met).resolve_left List.not_mem_nil r member rfl
  induction reaches with
  | start => exact done.root
  | left member parent ih => exact (closed member ih).1
  | right member parent ih => exact (closed member ih).2

theorem unreachable_eq_none (inside : start < n) :
    unreachable? (.ofRules n rules) n start = none ↔ ∀ nt < n, Reaches (BinaryRule.all rules) start nt := by
  simp only [unreachable?, List.find?_range_eq_none, Bool.not_eq_eq_eq_not, Bool.not_true, bne_eq_false_iff_eq,
    reachable_iff symbols inside]

theorem unreachable_eq_some (inside : start < n) (found : unreachable? (.ofRules n rules) n start = some nt) :
    IsLeast {nt | nt < n ∧ ¬ Reaches (BinaryRule.all rules) start nt} nt :=
  isLeast_of_find (fun _ _ => bne_iff_ne.trans (not_congr (reachable_iff symbols inside))) found

end

end Declarations

end StochasticGrammar
