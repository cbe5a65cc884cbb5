import StochasticGrammar.Proofs.Grammar.Additions
import StochasticGrammar.Proofs.Grammar.Reaching

/-!
What the declarations of a grammar have to satisfy, apart from any order of checking. The checks of
the single declarations and their additions succeed together just where the declarations are defined;
what they hand on has the symbols and the rules of the declarations.
-/

namespace StochasticGrammar.Declarations

/-- What is asked of the declarations before they are taken together as a grammar. -/
structure Defined (d : Declarations) : Prop where
  nonempty : d.terminalRules ≠ #[]
  start : 0 ≤ d.start
  terminal : ∀ rule ∈ d.terminalRules,
    0 ≤ rule.lhs ∧ rule.literal ≠ "" ∧ Formulated d.parameters rule.formula
  binary : ∀ rule ∈ d.binaryRules,
    0 ≤ rule.lhs ∧ 0 ≤ rule.left ∧ 0 ≤ rule.right ∧ Formulated d.parameters rule.formula
  prefixFree : ∀ rule ∈ d.terminalRules, ∀ other ∈ d.terminalRules,
    rule.literal.toList <+: other.literal.toList → rule.literal = other.literal
  terminalOnce : (d.terminalRules.toList.map fun rule => (rule.lhs, rule.literal)).Nodup
  binaryOnce : (d.binaryRules.toList.map fun rule => (rule.lhs, rule.left, rule.right)).Nodup

/-- The symbol occurs in a declaration. -/
def Mentioned (d : Declarations) (symbol : Int) : Prop :=
  symbol = d.start ∨ (∃ rule ∈ d.terminalRules, symbol = rule.lhs) ∨
    ∃ rule ∈ d.binaryRules, symbol = rule.lhs ∨ symbol = rule.left ∨ symbol = rule.right

/-- The non-terminals are all numbers up to the highest that occurs. -/
def Counted (d : Declarations) (nt : Nat) : Prop := ∃ symbol, d.Mentioned symbol ∧ (nt : Int) ≤ symbol

def Ruled (d : Declarations) (nt : Nat) : Prop :=
  (∃ rule ∈ d.terminalRules, rule.lhs = nt) ∨ ∃ rule ∈ d.binaryRules, rule.lhs = nt

inductive Reached (d : Declarations) : Int → Prop where
  | start : Reached d d.start
  | left {rule} (member : rule ∈ d.binaryRules) (parent : Reached d rule.lhs) : Reached d rule.left
  | right {rule} (member : rule ∈ d.binaryRules) (parent : Reached d rule.lhs) : Reached d rule.right

section

variable {ps : Parameters} {d : Declarations}

theorem pairwise_together_iff {rules : List TerminalDeclaration} : rules.Pairwise Together ↔
    (∀ rule ∈ rules, ∀ other ∈ rules, rule.literal.toList <+: other.literal.toList →
      rule.literal = other.literal) ∧ (rules.map fun rule => (rule.lhs, rule.literal)).Nodup := by
  rw [List.Nodup, List.pairwise_map]
  constructor
  · intro together
    refine ⟨fun rule member other member' => ?_, together.imp fun both => both.differ⟩
    have forth : rules.Pairwise fun rule other =>
        rule.literal.toList <+: other.literal.toList → rule.literal = other.literal :=
      together.imp fun both begins => both.apart (.inl begins)
    have back : rules.Pairwise (flip fun rule other =>
        rule.literal.toList <+: other.literal.toList → rule.literal = other.literal) :=
      together.imp fun both begins => (both.apart (.inr begins)).symm
    exact forth.forall_of_forall_of_flip (fun _ _ _ => rfl) back member member'
  · rintro ⟨prefixFree, once⟩
    refine List.Pairwise.imp_of_mem ?_ once
    intro rule other member member' differ
    refine ⟨?_, differ⟩
    rintro (begins | begins)
    · exact prefixFree _ member _ member' begins
    · exact (prefixFree _ member' _ member begins).symm

/-- What a draft has of its declarations. -/
structure Mirrored (d : Declarations) (b : Draft) : Prop where
  start : (b.start : Int) = d.start
  checked : ∃ terminal binary, b.checked = terminal ++ binary ∧
    List.Forall₂ (KeepsTerminal d.parameters) d.terminalRules.toList terminal ∧
    List.Forall₂ (KeepsBinary d.parameters) d.binaryRules.toList binary
  numbered : ∃ terminals, Entered d.terminalRules.toList terminals ∧
    Followed terminals.alphabet terminals.rules.toList d.binaryRules.toList b.numbered

theorem entered_empty : Entered [] {} := by
  refine ⟨Alphabet.exact_empty, ?_, .nil⟩
  intro literal
  simp

theorem followed_empty {numbered : Numbered} :
    Followed numbered.alphabet numbered.rules.toList [] numbered := by
  refine ⟨rfl, ?_⟩
  simp

theorem Entered.leaves {done : List TerminalDeclaration} {numbered : Numbered}
    (entered : Entered done numbered) (lhs left right : Nat) :
    ⟨lhs, .binary left right⟩ ∉ numbered.rules.toList := by
  intro member
  rcases forall₂_mem_right entered.rules member with ⟨rule, -, terminal, same, -⟩
  cases (Rule.mk.inj same).2

theorem defined_iff (filled : ¬ d.terminalRules.isEmpty = true) :
    0 ≤ d.start ∧ (∀ rule ∈ d.terminalRules.toList,
        0 ≤ rule.lhs ∧ rule.literal ≠ "" ∧ Formulated d.parameters rule.formula) ∧
      (∀ rule ∈ d.binaryRules.toList,
        0 ≤ rule.lhs ∧ 0 ≤ rule.left ∧ 0 ≤ rule.right ∧ Formulated d.parameters rule.formula) ∧
      d.terminalRules.toList.Pairwise Together ∧ d.binaryRules.toList.Pairwise Differ ↔ d.Defined := by
  have once : d.binaryRules.toList.Pairwise Differ ↔
      (d.binaryRules.toList.map fun rule => (rule.lhs, rule.left, rule.right)).Nodup := by
    rw [List.Nodup, List.pairwise_map]
    rfl
  simp only [pairwise_together_iff, once, Array.mem_toList_iff]
  constructor
  · rintro ⟨start, terminal, binary, ⟨prefixFree, terminalOnce⟩, binaryOnce⟩
    exact ⟨mt Array.isEmpty_iff.mpr filled, start, terminal, binary, prefixFree, terminalOnce, binaryOnce⟩
  · intro defined
    exact ⟨defined.start, defined.terminal, defined.binary, ⟨defined.prefixFree, defined.terminalOnce⟩,
      defined.binaryOnce⟩

/-- There is a draft of defined declarations only. -/
theorem draft_answers (d : Declarations) : Answers d.Defined d.Mirrored d.draft := by
  unfold draft
  by_cases empty : d.terminalRules.isEmpty = true
  · rw [if_pos empty]
    exact ⟨fun defined => defined.nonempty (Array.isEmpty_iff.mp empty), _, _, rfl⟩
  rw [if_neg empty, ← defined_iff empty]
  refine (nonTerminal_answers .startSymbol d.start).bind fun start sign same => ?_
  refine (checkAll_answers checkTerminal_answers 0 _).bind fun terminal proper kept => ?_
  refine (checkAll_answers checkBinary_answers 0 _).bind fun binary proper' kept' => ?_
  have addTerminals := addAll_adds (fun entered signs sign number => entered.addTerminal
    (fun other inside => (signs other inside).1) sign.1 sign.2.1 number) entered_empty proper .nil 0
  refine addTerminals.bind fun terminals together entered => ?_
  have signs : ∀ rule ∈ d.binaryRules.toList, Signless rule := fun rule inside =>
    have both := proper' rule inside
    ⟨both.1, both.2.1, both.2.2.1⟩
  have addBinaries := addAll_adds (fun followed signs sign number =>
    followed.addBinary entered.leaves signs sign number) followed_empty signs .nil 0
  refine addBinaries.map fun numbered followed => ?_
  refine ⟨?_, ⟨terminal, binary, rfl, kept, kept'⟩, ⟨terminals, entered, followed⟩⟩
  simp only [same]
  omega

theorem Passes.mirrored {b : Stages} (passes : d.Passes b) : d.Mirrored b.toDraft := by
  have answers := d.draft_answers
  rw [draft_eq_ok_iff.mpr ⟨passes.nonempty, passes.start, passes.checked, passes.numbered⟩] at answers
  exact answers.2

/-- The rules of accepted declarations, in the order of their declaration. -/
theorem Passes.rules {b : Stages} (passes : d.Passes b) :
    ∃ terminal, b.numbered.rules.toList = terminal ++ d.binaryRules.toList.map (fun rule =>
        ⟨rule.lhs.toNat, .binary rule.left.toNat rule.right.toNat⟩) ∧
      List.Forall₂ (Declares b.numbered.alphabet) d.terminalRules.toList terminal := by
  rcases passes.mirrored.numbered with ⟨terminals, entered, followed⟩
  refine ⟨terminals.rules.toList, followed.rules, ?_⟩
  rw [followed.alphabet]
  exact entered.rules

theorem lt_foldl_max_iff {numbers : List Nat} {start n : Nat} :
    n < numbers.foldl max start + 1 ↔ n ≤ start ∨ ∃ m ∈ numbers, n ≤ m := by
  induction numbers generalizing start with
  | nil => simp
  | cons first rest ih =>
    rw [List.foldl_cons, ih, le_max_iff, or_assoc]
    simp

variable {b : Draft} {nt lhs left right : Nat}

theorem Mirrored.mem_mentioned (mirrored : d.Mirrored b) {m : Nat} :
    m ∈ b.checked.flatMap (·.mentioned) ↔ (∃ rule ∈ d.terminalRules, m = rule.lhs.toNat) ∨
      ∃ rule ∈ d.binaryRules, m = rule.lhs.toNat ∨ m = rule.left.toNat ∨ m = rule.right.toNat := by
  rcases mirrored.checked with ⟨terminal, binary, shape, kept, kept'⟩
  rw [shape, List.flatMap_append, List.mem_append, List.mem_flatMap, List.mem_flatMap]
  refine or_congr ⟨?_, ?_⟩ ⟨?_, ?_⟩
  · rintro ⟨checked, member, inside⟩
    rcases forall₂_mem_right kept member with ⟨rule, member, mentioned, -⟩
    rw [mentioned, List.mem_singleton] at inside
    exact ⟨rule, Array.mem_toList_iff.mp member, inside⟩
  · rintro ⟨rule, member, rfl⟩
    rcases forall₂_mem_right kept.flip (Array.mem_toList_iff.mpr member) with
      ⟨checked, member, mentioned, -⟩
    exact ⟨checked, member, by simp [mentioned]⟩
  · rintro ⟨checked, member, inside⟩
    rcases forall₂_mem_right kept' member with ⟨rule, member, mentioned, -⟩
    rw [mentioned] at inside
    exact ⟨rule, Array.mem_toList_iff.mp member, by simpa using inside⟩
  · rintro ⟨rule, member, inside⟩
    rcases forall₂_mem_right kept'.flip (Array.mem_toList_iff.mpr member) with
      ⟨checked, member, mentioned, -⟩
    exact ⟨checked, member, by simpa [mentioned] using inside⟩

theorem Mirrored.counted_iff (defined : d.Defined) (mirrored : d.Mirrored b) :
    nt < b.nonTerminals ↔ d.Counted nt := by
  have start := mirrored.start
  rw [Draft.nonTerminals, lt_foldl_max_iff]
  simp only [mirrored.mem_mentioned]
  constructor
  · rintro (first | ⟨m, ⟨rule, inside, rfl⟩ | ⟨rule, inside, same⟩, order⟩)
    · exact ⟨d.start, .inl rfl, by omega⟩
    · have sign := (defined.terminal rule inside).1
      exact ⟨rule.lhs, .inr (.inl ⟨rule, inside, rfl⟩), by omega⟩
    · rcases defined.binary rule inside with ⟨sign, sign', sign'', -⟩
      rcases same with rfl | rfl | rfl
      · exact ⟨rule.lhs, .inr (.inr ⟨rule, inside, .inl rfl⟩), by omega⟩
      · exact ⟨rule.left, .inr (.inr ⟨rule, inside, .inr (.inl rfl)⟩), by omega⟩
      · exact ⟨rule.right, .inr (.inr ⟨rule, inside, .inr (.inr rfl)⟩), by omega⟩
  · rintro ⟨symbol, rfl | ⟨rule, inside, rfl⟩ | ⟨rule, inside, same⟩, order⟩
    · exact .inl (by omega)
    · exact .inr ⟨_, .inl ⟨rule, inside, rfl⟩, by omega⟩
    · refine .inr ⟨symbol.toNat, .inr ⟨rule, inside, ?_⟩, by omega⟩
      rcases same with rfl | rfl | rfl
      · exact .inl rfl
      · exact .inr (.inl rfl)
      · exact .inr (.inr rfl)

theorem Mirrored.mem_binary (mirrored : d.Mirrored b) :
    ⟨lhs, .binary left right⟩ ∈ b.numbered.rules ↔ ∃ rule ∈ d.binaryRules,
      lhs = rule.lhs.toNat ∧ left = rule.left.toNat ∧ right = rule.right.toNat := by
  rcases mirrored.numbered with ⟨terminals, entered, followed⟩
  rw [← Array.mem_toList_iff, followed.rules, List.mem_append, or_iff_right (entered.leaves _ _ _),
    List.mem_map]
  simp only [Rule.mk.injEq, Production.binary.injEq, Array.mem_toList_iff]
  exact exists_congr fun rule => and_congr_right fun _ => by tauto

theorem Mirrored.ruled_iff (defined : d.Defined) (mirrored : d.Mirrored b) :
    HasRule b.numbered.rules nt ↔ d.Ruled nt := by
  rcases mirrored.numbered with ⟨terminals, entered, followed⟩
  simp only [HasRule, ← @Array.mem_toList_iff _ _ b.numbered.rules, followed.rules, List.mem_append,
    List.mem_map, Array.mem_toList_iff]
  constructor
  · rintro ⟨rule, member | ⟨declaration, inside, rfl⟩, rfl⟩
    · rcases forall₂_mem_right entered.rules (Array.mem_toList_iff.mpr member) with
        ⟨declaration, inside, terminal, rfl, -⟩
      have inside := Array.mem_toList_iff.mp inside
      exact .inl ⟨declaration, inside, (Int.toNat_of_nonneg (defined.terminal _ inside).1).symm⟩
    · exact .inr ⟨declaration, inside, (Int.toNat_of_nonneg (defined.binary _ inside).1).symm⟩
  · rintro (⟨declaration, inside, same⟩ | ⟨declaration, inside, same⟩)
    · rcases forall₂_mem_right entered.rules.flip (Array.mem_toList_iff.mpr inside) with
        ⟨rule, member, terminal, rfl, -⟩
      exact ⟨_, .inl (Array.mem_toList_iff.mp member), by simp [same]⟩
    · exact ⟨_, .inr ⟨declaration, inside, rfl⟩, by simp [same]⟩

theorem Mirrored.mem_all (mirrored : d.Mirrored b) :
    (∃ r ∈ BinaryRule.all b.numbered.rules, r.lhs = lhs ∧ r.left = left ∧ r.right = right) ↔
      ∃ rule ∈ d.binaryRules,
        lhs = rule.lhs.toNat ∧ left = rule.left.toNat ∧ right = rule.right.toNat := by
  rw [← mirrored.mem_binary, Array.mem_iff_getElem?]
  constructor
  · rintro ⟨r, member, rfl, rfl, rfl⟩
    exact ⟨r.index, mem_allBinary.mp member⟩
  · rintro ⟨i, found⟩
    exact ⟨⟨i, lhs, left, right⟩, mem_allBinary.mpr found, rfl, rfl, rfl⟩

theorem Mirrored.reached_iff (defined : d.Defined) (mirrored : d.Mirrored b) :
    Reaches (BinaryRule.all b.numbered.rules) b.start nt ↔ d.Reached nt := by
  constructor
  · intro reaches
    induction reaches with
    | start =>
      rw [mirrored.start]
      exact .start
    | left member parent ih =>
      rcases mirrored.mem_all.mp ⟨_, member, rfl, rfl, rfl⟩ with ⟨rule, inside, same, same', -⟩
      rcases defined.binary rule inside with ⟨sign, sign', -, -⟩
      rw [same, Int.toNat_of_nonneg sign] at ih
      rw [same', Int.toNat_of_nonneg sign']
      exact .left inside ih
    | right member parent ih =>
      rcases mirrored.mem_all.mp ⟨_, member, rfl, rfl, rfl⟩ with ⟨rule, inside, same, -, same'⟩
      rcases defined.binary rule inside with ⟨sign, -, sign', -⟩
      rw [same, Int.toNat_of_nonneg sign] at ih
      rw [same', Int.toNat_of_nonneg sign']
      exact .right inside ih
  · suffices all : ∀ symbol, d.Reached symbol →
        Reaches (BinaryRule.all b.numbered.rules) b.start symbol.toNat from fun reached => all nt reached
    intro symbol reached
    induction reached with
    | start =>
      rw [← mirrored.start, Int.toNat_natCast]
      exact .start
    | left inside parent ih =>
      rcases mirrored.mem_all.mpr ⟨_, inside, rfl, rfl, rfl⟩ with ⟨r, member, lhs, left, -⟩
      rw [← lhs] at ih
      rw [← left]
      exact .left member ih
    | right inside parent ih =>
      rcases mirrored.mem_all.mpr ⟨_, inside, rfl, rfl, rfl⟩ with ⟨r, member, lhs, -, right⟩
      rw [← lhs] at ih
      rw [← right]
      exact .right member ih

end

end StochasticGrammar.Declarations
