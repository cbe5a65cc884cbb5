import StochasticGrammar.Proofs.Grammar.Checks
import StochasticGrammar.Proofs.Lexicon.Insertion

/-!
Which declarations may stand together. Rules are added one after the other; each is compared with the
rules before it through the lexicon and the numbers given out so far. What comes of this is that no
literal begins with a different one and no rule is declared twice, whatever the order.
-/

namespace StochasticGrammar

theorem forall₂_mem_right {α β : Type} {R : α → β → Prop} {l : List α} {l' : List β}
    (all : List.Forall₂ R l l') {b : β} (member : b ∈ l') : ∃ a ∈ l, R a b := by
  induction all with
  | nil => cases member
  | cons here rest ih =>
    rcases List.mem_cons.mp member with rfl | member
    · exact ⟨_, List.mem_cons_self, here⟩
    · rcases ih member with ⟨a, inside, related⟩
      exact ⟨a, List.mem_cons_of_mem _ inside, related⟩

/-- One of the two begins with the other. -/
def Comparable (literal literal' : String) : Prop :=
  literal.toList <+: literal'.toList ∨ literal'.toList <+: literal.toList

/-- The forest has just the literals, under the numbers of their places. -/
structure Alphabet.Exact (alphabet : Alphabet) : Prop where
  sound : alphabet.lexicon.forest.Sound
  size : alphabet.literals.size = alphabet.lexicon.size
  numbers : ∀ (i : Nat) (literal : String), alphabet.literals[i]? = some literal ↔
    alphabet.lexicon.forest.find? literal.toList = some i

namespace Alphabet

variable {alphabet : Alphabet} {literal other : String}

theorem exact_empty : ({} : Alphabet).Exact := by
  refine ⟨trivial, rfl, ?_⟩
  intro i literal
  refine iff_of_false (by simp) ?_
  intro found
  exact Forest.not_nil_has (Option.isSome_iff_exists.mpr ⟨i, found⟩)

theorem Exact.mem_iff (exact : alphabet.Exact) :
    literal ∈ alphabet.literals ↔ alphabet.lexicon.forest.Has literal.toList := by
  rw [Forest.Has, Option.isSome_iff_exists, Array.mem_iff_getElem?]
  exact exists_congr fun i => exact.numbers i literal

theorem Exact.number_unique (exact : alphabet.Exact) {i j : Nat}
    (first : alphabet.literals[i]? = some literal) (second : alphabet.literals[j]? = some literal) :
    i = j := by
  rw [exact.numbers] at first second
  exact Option.some.inj (first.symm.trans second)

theorem Exact.prefixFree (exact : alphabet.Exact) (member : literal ∈ alphabet.literals)
    (member' : other ∈ alphabet.literals) (comparable : Comparable literal other) : literal = other := by
  have has := exact.mem_iff.mp member
  have has' := exact.mem_iff.mp member'
  rcases comparable with begins | begins
  · exact String.toList_injective (exact.sound.prefixFree has has' begins)
  · exact (String.toList_injective (exact.sound.prefixFree has' has begins)).symm

/-- A new literal takes the next number. -/
theorem Exact.added (exact : alphabet.Exact) (new : literal ∉ alphabet.literals) {forest : Forest}
    (sound : forest.Sound) (found : ∀ u, forest.find? u =
      if u = literal.toList then some alphabet.lexicon.size else alphabet.lexicon.forest.find? u) :
    Exact ⟨⟨forest, alphabet.lexicon.size + 1⟩, alphabet.literals.push literal⟩ := by
  refine ⟨sound, by simp [exact.size], ?_⟩
  intro i other
  rw [found, ← exact.size, Array.getElem?_push]
  by_cases same : other = literal
  · subst same
    rw [if_pos rfl]
    split
    · rename_i last
      exact iff_of_true rfl (congrArg Option.some last.symm)
    · rename_i before
      exact iff_of_false (fun old => new (Array.mem_of_getElem? old)) fun last => before (Option.some.inj last).symm
  · rw [if_neg fun equal => same (String.toList_injective equal), ← exact.numbers]
    split
    · rename_i last
      rw [last, Array.getElem?_eq_none (Nat.le_refl _)]
      simp [Ne.symm same]
    · rfl

/-- What the lexicon answers to a literal. -/
def Inserted (alphabet : Alphabet) (literal : String) : Except InsertFault (Insertion × Lexicon) → Prop
  | .ok (.added terminal, lexicon) => terminal = alphabet.literals.size ∧
      Exact ⟨lexicon, alphabet.literals.push literal⟩ ∧
      ∀ other ∈ alphabet.literals, ¬ Comparable other literal
  | .ok (.existing terminal, lexicon) => lexicon = alphabet.lexicon ∧
      alphabet.literals[terminal]? = some literal
  | .error _ => ∃ other ∈ alphabet.literals, Comparable other literal ∧ other ≠ literal

theorem Exact.insert (exact : alphabet.Exact) (filled : literal ≠ "") :
    alphabet.Inserted literal (alphabet.lexicon.insert literal) := by
  cases shape : literal.toList with
  | nil => exact absurd (String.toList_eq_nil_iff.mp shape) filled
  | cons c word =>
    have outcome := Forest.insert_outcome exact.sound alphabet.lexicon.size c word
    rw [← shape] at outcome
    have member {u : List Char} (has : alphabet.lexicon.forest.Has u) :
        String.ofList u ∈ alphabet.literals := by
      rw [exact.mem_iff, String.toList_ofList]
      exact has
    have different {u : List Char} (other : u ≠ literal.toList) : String.ofList u ≠ literal := by
      rintro rfl
      exact other String.toList_ofList.symm
    simp only [Lexicon.insert, shape]
    cases result : alphabet.lexicon.forest.insert alphabet.lexicon.size c word with
    | ok forest =>
      rw [result] at outcome
      rcases outcome with ⟨sound, apart, found⟩
      have unlike : ∀ other ∈ alphabet.literals, ¬ Comparable other literal := by
        rintro other inside (begins | begins)
        · exact (apart _ (exact.mem_iff.mp inside)).1 begins
        · exact (apart _ (exact.mem_iff.mp inside)).2 begins
      have new : literal ∉ alphabet.literals := fun inside => unlike _ inside (.inl (List.prefix_refl _))
      exact ⟨exact.size.symm, exact.added new sound found, unlike⟩
    | error clash =>
      rw [result] at outcome
      cases clash with
      | present i => exact ⟨rfl, (exact.numbers i literal).mpr outcome⟩
      | extendsLiteral =>
        rcases outcome with ⟨u, has, begins, other⟩
        refine ⟨String.ofList u, member has, .inl ?_, different other⟩
        rwa [String.toList_ofList]
      | startsLiteral =>
        rcases outcome with ⟨u, has, begins, other⟩
        refine ⟨String.ofList u, member has, .inr ?_, different other⟩
        rwa [String.toList_ofList]

end Alphabet

namespace Declarations

/-- The literals of the first stay those of the second. -/
def Extends (alphabet longer : Alphabet) : Prop :=
  ∀ (i : Nat) (literal : String), alphabet.literals[i]? = some literal → longer.literals[i]? = some literal

theorem extends_push (alphabet : Alphabet) (lexicon : Lexicon) (literal : String) :
    Extends alphabet ⟨lexicon, alphabet.literals.push literal⟩ := by
  intro i literal found
  have inside := (Array.getElem?_eq_some_iff.mp found).1
  rw [Array.getElem?_push, if_neg (Nat.ne_of_lt inside)]
  exact found

/-- A terminal rule and the declaration that it is made of. -/
def Declares (alphabet : Alphabet) (declaration : TerminalDeclaration) (rule : Rule) : Prop :=
  ∃ terminal, rule = ⟨declaration.lhs.toNat, .terminal terminal⟩ ∧
    alphabet.literals[terminal]? = some declaration.literal

/-- Neither literal begins with the other if they differ, and the rules differ. -/
structure Together (rule rule' : TerminalDeclaration) : Prop where
  apart : Comparable rule.literal rule'.literal → rule.literal = rule'.literal
  differ : (rule.lhs, rule.literal) ≠ (rule'.lhs, rule'.literal)

/-- What is there after the terminal rules `done`. -/
structure Entered (done : List TerminalDeclaration) (numbered : Numbered) : Prop where
  exact : numbered.alphabet.Exact
  literals : ∀ literal, literal ∈ numbered.alphabet.literals ↔ ∃ rule ∈ done, rule.literal = literal
  rules : List.Forall₂ (Declares numbered.alphabet) done numbered.rules.toList

section

variable {done rest : List TerminalDeclaration} {numbered next : Numbered} {number : Nat}
  {rule : TerminalDeclaration}

theorem Entered.contains_iff (entered : Entered done numbered) (signs : ∀ rule ∈ done, 0 ≤ rule.lhs)
    (sign : 0 ≤ rule.lhs) {terminal : Nat}
    (literal : numbered.alphabet.literals[terminal]? = some rule.literal) :
    numbered.rules.contains ⟨rule.lhs.toNat, .terminal terminal⟩ = true ↔
      ∃ other ∈ done, (other.lhs, other.literal) = (rule.lhs, rule.literal) := by
  rw [Array.contains_iff_mem, ← Array.mem_toList_iff]
  constructor
  · intro member
    rcases forall₂_mem_right entered.rules member with ⟨other, inside, terminal', same, literal'⟩
    rcases Rule.mk.inj same with ⟨lhs, production⟩
    cases production
    rw [literal] at literal'
    have signs := signs other inside
    exact ⟨other, inside, Prod.ext (by omega) (Option.some.inj literal').symm⟩
  · rintro ⟨other, inside, same⟩
    rcases Prod.mk.inj same with ⟨lhs, literal'⟩
    rcases forall₂_mem_right entered.rules.flip inside with ⟨added, member, terminal', rfl, number⟩
    rw [literal'] at number
    rw [← lhs, entered.exact.number_unique literal number]
    exact member

/-- No rule has a number that is not given out. -/
theorem Entered.not_contains (entered : Entered done numbered) (lhs : Nat) :
    ¬ numbered.rules.contains ⟨lhs, .terminal numbered.alphabet.literals.size⟩ := by
  rw [Array.contains_iff_mem, ← Array.mem_toList_iff]
  intro member
  rcases forall₂_mem_right entered.rules member with ⟨other, inside, terminal, same, found⟩
  cases (Rule.mk.inj same).2
  simp at found

theorem Entered.push (entered : Entered done numbered) {alphabet : Alphabet} {terminal : Nat}
    (exact' : alphabet.Exact) (kept : Extends numbered.alphabet alphabet)
    (literal : alphabet.literals[terminal]? = some rule.literal)
    (members : ∀ other, other ∈ alphabet.literals ↔ other ∈ numbered.alphabet.literals ∨ other = rule.literal) :
    Entered (done ++ [rule]) ⟨alphabet, numbered.rules.push ⟨rule.lhs.toNat, .terminal terminal⟩⟩ := by
  refine ⟨exact', ?_, ?_⟩
  · intro other
    rw [members, entered.literals]
    simp [or_and_right, exists_or, eq_comm]
  · rw [Array.toList_push]
    refine List.rel_append ?_ (.cons ⟨terminal, rfl, literal⟩ .nil)
    exact entered.rules.imp fun _ _ declares => declares.imp fun _ => And.imp_right (kept _ _)

theorem Entered.addTerminal (entered : Entered done numbered) (signs : ∀ rule ∈ done, 0 ≤ rule.lhs)
    (sign : 0 ≤ rule.lhs) (filled : rule.literal ≠ "") (number : Nat) :
    Answers (∀ other ∈ done, Together other rule) (Entered (done ++ [rule]))
      (addTerminal numbered number rule) := by
  have inserted := entered.exact.insert filled
  unfold Declarations.addTerminal
  simp only
  split
  · rename_i fault clash
    rw [clash] at inserted
    rcases inserted with ⟨literal, member, comparable, different⟩
    rcases (entered.literals literal).mp member with ⟨other, inside, rfl⟩
    exact ⟨fun together => different ((together other inside).apart comparable), _, _, rfl⟩
  · rename_i insertion lexicon entry
    rw [entry] at inserted
    have among {other : TerminalDeclaration} (inside : other ∈ done) :
        other.literal ∈ numbered.alphabet.literals := (entered.literals _).mpr ⟨other, inside, rfl⟩
    cases insertion with
    | added terminal =>
      rcases inserted with ⟨rfl, exact', apart⟩
      simp only [if_neg (entered.not_contains _)]
      have here : (numbered.alphabet.literals.push rule.literal)[numbered.alphabet.literals.size]? =
          some rule.literal := by simp
      have pushed := entered.push exact' (extends_push _ _ _) here fun other => Array.mem_push
      refine ⟨fun other inside => ⟨?_, ?_⟩, pushed⟩
      · exact fun comparable => absurd comparable (apart _ (among inside))
      · intro same
        apply apart _ (among inside)
        rw [(Prod.mk.inj same).2]
        exact .inl (List.prefix_refl _)
    | existing terminal =>
      rcases inserted with ⟨rfl, literal⟩
      have present := entered.contains_iff signs sign literal
      simp only
      split
      · rename_i duplicate
        rcases present.mp duplicate with ⟨other, inside, same⟩
        exact ⟨fun together => (together other inside).differ same, _, _, rfl⟩
      · rename_i new
        have member := Array.mem_of_getElem? literal
        refine ⟨fun other inside => ⟨?_, ?_⟩, entered.push entered.exact (fun _ _ found => found) literal ?_⟩
        · exact entered.exact.prefixFree (among inside) member
        · exact fun same => new (present.mpr ⟨other, inside, same⟩)
        · intro other
          refine ⟨.inl, ?_⟩
          rintro (old | rfl)
          · exact old
          · exact member

end

section

variable {done rest : List BinaryDeclaration} {numbered : Numbered} {terminal : List Rule}
  {rule : BinaryDeclaration}

def Differ (rule rule' : BinaryDeclaration) : Prop :=
  (rule.lhs, rule.left, rule.right) ≠ (rule'.lhs, rule'.left, rule'.right)

/-- No symbol is negative. -/
def Signless (rule : BinaryDeclaration) : Prop := 0 ≤ rule.lhs ∧ 0 ≤ rule.left ∧ 0 ≤ rule.right

/-- What is there after the binary rules `done`, over the alphabet and the rules of the others. -/
structure Followed (alphabet : Alphabet) (terminal : List Rule) (done : List BinaryDeclaration)
    (numbered : Numbered) : Prop where
  alphabet : numbered.alphabet = alphabet
  rules : numbered.rules.toList = terminal ++ done.map fun rule =>
    ⟨rule.lhs.toNat, .binary rule.left.toNat rule.right.toNat⟩

theorem Followed.addBinary {alphabet : Alphabet} (followed : Followed alphabet terminal done numbered)
    (leaves : ∀ lhs left right, ⟨lhs, .binary left right⟩ ∉ terminal)
    (signs : ∀ rule ∈ done, Signless rule) (sign : Signless rule) (number : Nat) :
    Answers (∀ other ∈ done, Differ other rule) (Followed alphabet terminal (done ++ [rule]))
      (addBinary numbered number rule) := by
  have present : numbered.rules.contains ⟨rule.lhs.toNat, .binary rule.left.toNat rule.right.toNat⟩ ↔
      ∃ other ∈ done, ¬ Differ other rule := by
    rw [Array.contains_iff_mem, ← Array.mem_toList_iff, followed.rules, List.mem_append,
      or_iff_right (leaves _ _ _), List.mem_map]
    refine exists_congr fun other => and_congr_right fun inside => ?_
    rcases signs other inside with ⟨lhs, left, right⟩
    rcases sign with ⟨lhs', left', right'⟩
    simp only [Differ, ne_eq, not_not, Rule.mk.injEq, Production.binary.injEq, Prod.mk.injEq]
    omega
  unfold Declarations.addBinary
  simp only
  split
  · rename_i duplicate
    rcases present.mp duplicate with ⟨other, inside, same⟩
    exact ⟨fun differ => same (differ other inside), _, _, rfl⟩
  · rename_i new
    refine ⟨fun other inside => ?_, followed.alphabet, ?_⟩
    · exact Classical.not_not.mp fun same => new (present.mpr ⟨other, inside, same⟩)
    · simp [followed.rules]

end

section

variable {α : Type} {add : Numbered → Nat → α → Except Error Numbered} {R : α → α → Prop}
  {proper : α → Prop} {After : List α → Numbered → Prop}

/-- All is added when each two items may stand together. -/
theorem addAll_adds
    (step : ∀ {done item numbered}, After done numbered → (∀ other ∈ done, proper other) → proper item →
      ∀ number, Answers (∀ other ∈ done, R other item) (After (done ++ [item])) (add numbered number item))
    {done rest : List α} {numbered : Numbered} (after : After done numbered)
    (all : ∀ item ∈ done ++ rest, proper item) (before : done.Pairwise R) (number : Nat) :
    Answers ((done ++ rest).Pairwise R) (After (done ++ rest)) (addAll add number numbered rest) := by
  induction rest generalizing done numbered number with
  | nil =>
    rw [List.append_nil]
    exact ⟨before, after⟩
  | cons item rest ih =>
    have here := step after (fun other inside => all other (List.mem_append_left _ inside))
      (all item (by simp)) number
    have shape : done ++ item :: rest = done ++ [item] ++ rest := by simp
    have split : (∀ other ∈ done, R other item) ∧ (done ++ [item] ++ rest).Pairwise R ↔
        (done ++ [item] ++ rest).Pairwise R := by
      rw [and_iff_right_iff_imp, ← shape]
      exact fun pairs other inside =>
        (List.pairwise_append.mp pairs).2.2 other inside item List.mem_cons_self
    rw [shape, ← split]
    refine here.bind fun next first after' => ih after' (by simpa using all) ?_ (number + 1)
    rw [List.pairwise_append]
    refine ⟨before, List.pairwise_singleton _ _, ?_⟩
    intro other inside last single
    rw [List.mem_singleton.mp single]
    exact first other inside

end

end Declarations

end StochasticGrammar
