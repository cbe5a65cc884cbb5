import StochasticGrammar.Proofs.Grammar.Acceptance
import StochasticGrammar.Proofs.Grammar.RuleTables

/-!
The numbers that a grammar hands out. Terminals have numbers below that of the literals, and
non-terminals below that of the non-terminals; no rule is added twice, so that the rules of every
grammar are well-formed.
-/

namespace StochasticGrammar

namespace Forest

/-- All literals have numbers below `n`. -/
def Below (n : Nat) : Forest → Prop
  | nil => True
  | tree _ terminal below beside => (∀ i ∈ terminal, i < n) ∧ below.Below n ∧ beside.Below n

theorem Below.mono {n m : Nat} {f : Forest} (all : f.Below n) (order : n ≤ m) : f.Below m := by
  induction f with
  | nil => trivial
  | tree char terminal below beside ihBelow ihBeside =>
    rcases all with ⟨here, under, next⟩
    exact ⟨fun i found => Nat.lt_of_lt_of_le (here i found) order, ihBelow under, ihBeside next⟩

theorem below_chain {n m : Nat} (order : n < m) (c : Char) (rest : List Char) {beside : Forest}
    (next : beside.Below m) : (chain n c rest beside).Below m := by
  induction rest generalizing c beside with
  | nil => exact ⟨by simpa using order, trivial, next⟩
  | cons d rest ih => exact ⟨by simp, ih d trivial, next⟩

/-- What an insertion of the literal number `n` makes of a forest with numbers below. -/
def Inserted (n : Nat) : Except Clash Forest → Prop
  | .ok f => f.Below (n + 1)
  | .error (.present i) => i < n
  | .error _ => True

theorem Below.insert {n : Nat} {f : Forest} (all : f.Below n) (d : Char) (rest : List Char) :
    Inserted n (f.insert n d rest) := by
  induction f generalizing d rest with
  | nil => exact below_chain (Nat.lt_succ_self n) d rest trivial
  | tree c terminal below beside ihBelow ihBeside =>
    rcases all with ⟨here, under, next⟩
    have order : n ≤ n + 1 := Nat.le_succ n
    have here' : ∀ i ∈ terminal, i < n + 1 := fun i found => Nat.lt_succ_of_lt (here i found)
    unfold Forest.insert
    by_cases same : d = c
    · rw [if_pos same]
      cases rest with
      | nil =>
        cases terminal with
        | some i => exact here i rfl
        | none =>
          simp only
          split
          · exact ⟨by simp, under.mono order, next.mono order⟩
          · trivial
      | cons e rest =>
        have inserted := ihBelow under e rest
        simp only
        split
        · trivial
        · cases result : below.insert n e rest with
          | error clash =>
            rw [result] at inserted
            exact inserted
          | ok below' =>
            rw [result] at inserted
            exact ⟨here', inserted, next.mono order⟩
    · rw [if_neg same]
      have inserted := ihBeside next d rest
      cases result : beside.insert n d rest with
      | error clash =>
        rw [result] at inserted
        exact inserted
      | ok beside' =>
        rw [result] at inserted
        exact ⟨here', under.mono order, inserted⟩

end Forest

/-- A literal gets the next number unless it has one. -/
theorem insert_lexicon {lexicon next : Lexicon} {literal : String} {insertion : Insertion}
    (all : lexicon.forest.Below lexicon.size)
    (inserted : lexicon.insert literal = .ok (insertion, next)) :
    next.forest.Below next.size ∧
      (insertion = .added lexicon.size ∧ next.size = lexicon.size + 1 ∨
        ∃ i < lexicon.size, insertion = .existing i ∧ next = lexicon) := by
  unfold Lexicon.insert at inserted
  split at inserted
  · cases inserted
  · rename_i c rest _
    have result := all.insert c rest
    split at inserted
    · rename_i forest made
      rw [made] at result
      cases inserted
      exact ⟨result, .inl ⟨rfl, rfl⟩⟩
    · rename_i number present
      rw [present] at result
      cases inserted
      exact ⟨all, .inr ⟨number, result, rfl, rfl⟩⟩
    · cases inserted
    · cases inserted

/-- What holds of the numbered rules when all symbols are among `nonTerminals`. -/
structure Numbered.WellFormed (nonTerminals : Nat) (numbered : Numbered) : Prop where
  numbers : numbered.alphabet.lexicon.forest.Below numbered.alphabet.lexicon.size
  literals : numbered.alphabet.literals.size = numbered.alphabet.lexicon.size
  distinct : numbered.rules.toList.Nodup
  terminal : ∀ {lhs terminal : Nat}, ⟨lhs, .terminal terminal⟩ ∈ numbered.rules →
    lhs < nonTerminals ∧ terminal < numbered.alphabet.literals.size
  binary : ∀ {lhs left right : Nat}, ⟨lhs, .binary left right⟩ ∈ numbered.rules →
    lhs < nonTerminals ∧ left < nonTerminals ∧ right < nonTerminals

namespace Declarations

theorem nodup_push {rules : Array Rule} {rule : Rule} (distinct : rules.toList.Nodup)
    (new : rule ∉ rules) : (rules.push rule).toList.Nodup := by
  rw [Array.toList_push, List.nodup_append]
  refine ⟨distinct, by simp, ?_⟩
  intro old member other single same
  apply new
  rw [List.mem_singleton] at single
  rw [← single, ← same]
  exact Array.mem_toList_iff.mp member

variable {nonTerminals : Nat} {numbered next : Numbered}

/-- One more rule, over an alphabet that may have grown. -/
theorem push_wellFormed (formed : numbered.WellFormed nonTerminals) {alphabet : Alphabet}
    (numbers : alphabet.lexicon.forest.Below alphabet.lexicon.size)
    (literals : alphabet.literals.size = alphabet.lexicon.size)
    (grown : numbered.alphabet.literals.size ≤ alphabet.literals.size) {rule : Rule}
    (new : rule ∉ numbered.rules)
    (terminal : ∀ t, rule.production = .terminal t → rule.lhs < nonTerminals ∧ t < alphabet.literals.size)
    (binary : ∀ a b, rule.production = .binary a b →
      rule.lhs < nonTerminals ∧ a < nonTerminals ∧ b < nonTerminals) :
    (⟨alphabet, numbered.rules.push rule⟩ : Numbered).WellFormed nonTerminals := by
  refine ⟨numbers, literals, nodup_push formed.distinct new, ?_, ?_⟩
  · intro lhs t member
    rcases Array.mem_push.mp member with old | fresh
    · have range := formed.terminal old
      exact ⟨range.1, Nat.lt_of_lt_of_le range.2 grown⟩
    · subst fresh
      exact terminal t rfl
  · intro lhs a b member
    rcases Array.mem_push.mp member with old | fresh
    · exact formed.binary old
    · subst fresh
      exact binary a b rfl

theorem addBinary_wellFormed (formed : numbered.WellFormed nonTerminals) {number : Nat}
    {rule : BinaryDeclaration} (lhs : rule.lhs.toNat < nonTerminals)
    (left : rule.left.toNat < nonTerminals) (right : rule.right.toNat < nonTerminals)
    (added : addBinary numbered number rule = .ok next) : next.WellFormed nonTerminals := by
  unfold addBinary at added
  simp only at added
  split at added
  · cases added
  · rename_i new
    cases added
    apply push_wellFormed formed formed.numbers formed.literals (Nat.le_refl _)
    · exact mt Array.contains_iff_mem.mpr new
    · intro t same
      cases same
    · intro a b same
      cases same
      exact ⟨lhs, left, right⟩

theorem addTerminal_wellFormed (formed : numbered.WellFormed nonTerminals) {number : Nat}
    {rule : TerminalDeclaration} (lhs : rule.lhs.toNat < nonTerminals)
    (added : addTerminal numbered number rule = .ok next) : next.WellFormed nonTerminals := by
  have literals := formed.literals
  unfold addTerminal at added
  cases inserted : numbered.alphabet.lexicon.insert rule.literal with
  | error fault =>
    rw [inserted] at added
    cases added
  | ok result =>
    rcases result with ⟨insertion, lexicon⟩
    rcases insert_lexicon formed.numbers inserted with ⟨numbers, kinds⟩
    rw [inserted] at added
    rcases kinds with ⟨rfl, size⟩ | ⟨i, inside, rfl, rfl⟩
    · simp only at added
      split at added
      · cases added
      · rename_i new
        cases added
        apply push_wellFormed formed numbers
        · rw [Array.size_push, literals, size]
        · rw [Array.size_push]
          exact Nat.le_succ _
        · exact mt Array.contains_iff_mem.mpr new
        · intro t same
          cases same
          rw [Array.size_push, literals]
          exact ⟨lhs, Nat.lt_succ_self _⟩
        · intro a b same
          cases same
    · simp only at added
      split at added
      · cases added
      · rename_i new
        cases added
        apply push_wellFormed formed numbers literals (Nat.le_refl _)
        · exact mt Array.contains_iff_mem.mpr new
        · intro t same
          cases same
          rw [literals]
          exact ⟨lhs, inside⟩
        · intro a b same
          cases same

theorem addAll_invariant {α : Type} {add : Numbered → Nat → α → Except Error Numbered}
    {P : Numbered → Prop} {items : List α}
    (kept : ∀ item ∈ items, ∀ numbered number next, P numbered → add numbered number item = .ok next →
      P next) {number : Nat} (start : P numbered) (added : addAll add number numbered items = .ok next) :
    P next := by
  induction items generalizing number numbered with
  | nil =>
    cases added
    exact start
  | cons item rest ih =>
    simp only [addAll, bind_eq_ok] at added
    rcases added with ⟨middle, first, later⟩
    have here := kept item List.mem_cons_self numbered number middle start first
    exact ih (fun other member => kept other (List.mem_cons_of_mem _ member)) here later

theorem checkAll_eq_ok {α β : Type} {check : Nat → α → Except Error β} {number : Nat} {items : List α}
    {results : List β} (checked : checkAll check number items = .ok results) :
    ∀ item ∈ items, ∃ n, ∃ result ∈ results, check n item = .ok result := by
  induction items generalizing number results with
  | nil => simp
  | cons item rest ih =>
    simp only [checkAll, bind_eq_ok] at checked
    rcases checked with ⟨result, here, others, later, made⟩
    cases made
    intro other member
    rcases List.mem_cons.mp member with rfl | member
    · exact ⟨number, result, List.mem_cons_self, here⟩
    · rcases ih later other member with ⟨n, found, inside, checked⟩
      exact ⟨n, found, List.mem_cons_of_mem _ inside, checked⟩

theorem checkAll_length {α β : Type} {check : Nat → α → Except Error β} {number : Nat} {items : List α}
    {results : List β} (checked : checkAll check number items = .ok results) :
    results.length = items.length := by
  induction items generalizing number results with
  | nil =>
    cases checked
    rfl
  | cons item rest ih =>
    simp only [checkAll, bind_eq_ok] at checked
    rcases checked with ⟨result, -, others, later, made⟩
    cases made
    rw [List.length_cons, List.length_cons, ih later]

/-- Every declaration adds one rule. -/
theorem addAll_size {α : Type} {add : Numbered → Nat → α → Except Error Numbered}
    (one : ∀ {numbered number item next}, add numbered number item = .ok next →
      next.rules.size = numbered.rules.size + 1) {number : Nat} {items : List α}
    (added : addAll add number numbered items = .ok next) :
    next.rules.size = numbered.rules.size + items.length := by
  induction items generalizing number numbered with
  | nil =>
    cases added
    rfl
  | cons item rest ih =>
    simp only [addAll, bind_eq_ok] at added
    rcases added with ⟨middle, first, later⟩
    rw [ih later, one first, List.length_cons]
    omega

theorem addTerminal_size {number : Nat} {rule : TerminalDeclaration}
    (added : addTerminal numbered number rule = .ok next) :
    next.rules.size = numbered.rules.size + 1 := by
  unfold addTerminal at added
  simp only at added
  split at added
  · cases added
  · split at added
    all_goals
      simp only at added
      split at added
      · cases added
      · cases added
        exact Array.size_push _

theorem addBinary_size {number : Nat} {rule : BinaryDeclaration}
    (added : addBinary numbered number rule = .ok next) :
    next.rules.size = numbered.rules.size + 1 := by
  unfold addBinary at added
  simp only at added
  split at added
  · cases added
  · cases added
    exact Array.size_push _

theorem Passes.checked_length {d : Declarations} {b : Stages} (passes : d.Passes b) :
    b.checked.length = b.numbered.rules.size := by
  rcases passes.checked with ⟨terminal, binary, leaves, nodes, checked⟩
  rcases passes.numbered with ⟨middle, first, second⟩
  have start : ({} : Numbered).rules.size = 0 := rfl
  rw [checked, List.length_append, checkAll_length leaves, checkAll_length nodes,
    addAll_size addBinary_size second, addAll_size addTerminal_size first, start, Nat.zero_add]

theorem nonTerminal_eq_ok {label : DeclarationLabel} {index : Int} {nt : Nat}
    (known : nonTerminal label index = .ok nt) : nt = index.toNat := by
  unfold nonTerminal at known
  split at known
  · cases known
    rfl
  · cases known

theorem checkTerminal_mentioned {ps : Parameters} {number : Nat} {rule : TerminalDeclaration}
    {checked : Checked} (passed : checkTerminal ps number rule = .ok checked) :
    checked.mentioned = [rule.lhs.toNat] := by
  simp only [checkTerminal, bind_eq_ok] at passed
  rcases passed with ⟨lhs, known, passed⟩
  split at passed
  · cases passed
  · rcases bind_eq_ok.mp passed with ⟨source, -, made⟩
    cases made
    rw [nonTerminal_eq_ok known]

theorem checkBinary_mentioned {ps : Parameters} {number : Nat} {rule : BinaryDeclaration}
    {checked : Checked} (passed : checkBinary ps number rule = .ok checked) :
    checked.mentioned = [rule.lhs.toNat, rule.left.toNat, rule.right.toNat] := by
  simp only [checkBinary, bind_eq_ok] at passed
  rcases passed with ⟨lhs, first, left, second, right, third, source, -, made⟩
  cases made
  rw [nonTerminal_eq_ok first, nonTerminal_eq_ok second, nonTerminal_eq_ok third]

theorem le_foldl_max (numbers : List Nat) (start : Nat) :
    start ≤ numbers.foldl max start ∧ ∀ n ∈ numbers, n ≤ numbers.foldl max start := by
  induction numbers generalizing start with
  | nil => simp
  | cons first rest ih =>
    rcases ih (max start first) with ⟨least, others⟩
    refine ⟨Nat.le_trans (Nat.le_max_left _ _) least, ?_⟩
    intro n member
    rcases List.mem_cons.mp member with rfl | member
    · exact Nat.le_trans (Nat.le_max_right _ _) least
    · exact others n member

theorem Stages.mentioned_lt {b : Stages} {checked : Checked} (member : checked ∈ b.checked) {nt : Nat}
    (mentioned : nt ∈ checked.mentioned) : nt < b.nonTerminals := by
  have present : nt ∈ b.checked.flatMap (·.mentioned) :=
    List.mem_flatMap.mpr ⟨checked, member, mentioned⟩
  exact Nat.lt_succ_of_le ((le_foldl_max _ b.start).2 nt present)

theorem Passes.numbered_wellFormed {d : Declarations} {b : Stages} (passes : d.Passes b) :
    b.numbered.WellFormed b.nonTerminals := by
  rcases passes.checked with ⟨terminal, binary, leaves, nodes, checked⟩
  rcases passes.numbered with ⟨middle, first, second⟩
  have empty : ({} : Numbered).WellFormed b.nonTerminals := by
    refine ⟨trivial, rfl, List.nodup_nil, ?_, ?_⟩
    · intro a t member
      simp at member
    · intro a l r member
      simp at member
  have start : middle.WellFormed b.nonTerminals := by
    refine addAll_invariant ?_ empty first
    intro rule member numbered number next formed added
    rcases checkAll_eq_ok leaves rule member with ⟨n, result, inside, passed⟩
    have present : result ∈ b.checked := checked ▸ List.mem_append_left _ inside
    have mentioned := checkTerminal_mentioned passed
    exact addTerminal_wellFormed formed (Stages.mentioned_lt present (by simp [mentioned])) added
  refine addAll_invariant ?_ start second
  intro rule member numbered number next formed added
  rcases checkAll_eq_ok nodes rule member with ⟨n, result, inside, passed⟩
  have present : result ∈ b.checked := checked ▸ List.mem_append_right _ inside
  have mentioned := checkBinary_mentioned passed
  have range {nt : Nat} (among : nt ∈ result.mentioned) := Stages.mentioned_lt present among
  exact addBinary_wellFormed formed (range (by simp [mentioned])) (range (by simp [mentioned]))
    (range (by simp [mentioned])) added

end Declarations

namespace Grammar

theorem rules_wellFormed {d : Declarations} {g : Grammar} (built : d.grammar = .ok g) :
    g.rules.WellFormed := by
  rcases Declarations.grammar_eq_ok_iff.mp built with ⟨b, passes, rfl⟩
  have formed := passes.numbered_wellFormed
  refine ⟨formed.distinct, ?_, formed.terminal, formed.binary⟩
  exact Nat.lt_succ_of_le (Declarations.le_foldl_max _ b.start).1

end Grammar

end StochasticGrammar
