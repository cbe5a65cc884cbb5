import StochasticGrammar.Proofs.GrammarText.Words
import StochasticGrammar.Proofs.Grammar.Additions
import StochasticGrammar.Proofs.Tree.Growth

/-!
The text of a tree in brackets. It can be read in one way only as long as no literal that is shown as it is
begins with a quote: a quoted literal ends with the quote that no backslash stands before, and any other
with the bracket that closes its leaf.
-/

namespace StochasticGrammar

/-- What stands before a mark that it does not have in it. -/
theorem append_mark_inj {α : Type} {mark : α} {front front' rest rest' : List α} (none : mark ∉ front)
    (none' : mark ∉ front') (same : front ++ mark :: rest = front' ++ mark :: rest') :
    front = front' ∧ rest = rest' := by
  induction front generalizing front' with
  | nil =>
    cases front' with
    | nil => exact ⟨rfl, (List.cons.inj same).2⟩
    | cons c front' => exact absurd (List.mem_cons.mpr (.inl (List.cons.inj same).1)) none'
  | cons c front ih =>
    cases front' with
    | nil => exact absurd (List.mem_cons.mpr (.inl (List.cons.inj same).1.symm)) none
    | cons c' front' =>
      obtain ⟨rfl, later⟩ := List.cons.inj same
      rw [List.mem_cons, not_or] at none none'
      obtain ⟨rfl, equal⟩ := ih none.2 none'.2 later
      exact ⟨rfl, equal⟩

theorem toDigits_inj {m n : Nat} (same : Nat.toDigits 10 m = Nat.toDigits 10 n) : m = n := by
  rw [← Decimal.digitsValue_toDigits m, same, Decimal.digitsValue_toDigits]

theorem blank_not_mem_digits (n : Nat) : ' ' ∉ Nat.toDigits 10 n := by
  intro member
  have digit := Decimal.isDigit_toDigits n ' ' member
  cases digit

namespace Grammar

/-- A literal that is shown as it is and begins like a quoted one. -/
def Misleading (literal : String) : Prop :=
  shownLiteral literal = literal ∧ literal.toList.head? = some '"'

instance (literal : String) : Decidable (Misleading literal) := instDecidableAnd

def leafLiteral? (g : Grammar) (rule : Nat) : Option String :=
  match g.rules.production? rule with
  | some (.terminal terminal) => g.literal? terminal
  | _ => none

/-- No leaf of the tree shows a literal that is misleading. -/
def Legible (g : Grammar) (tree : Derivation) : Prop :=
  ∀ rule ∈ tree.rules, ∀ literal ∈ g.leafLiteral? rule, ¬ Misleading literal

instance (g : Grammar) (tree : Derivation) : Decidable (g.Legible tree) :=
  inferInstanceAs (Decidable (∀ rule ∈ tree.rules, ∀ literal ∈ g.leafLiteral? rule, ¬ Misleading literal))

/-- A literal is quoted, or it has neither blanks nor brackets. -/
theorem shownLiteral_cases (literal : String) :
    (shownLiteral literal).toList = Text.literalChars literal.toList ∨
      shownLiteral literal = literal ∧ '(' ∉ literal.toList ∧ ')' ∉ literal.toList := by
  unfold shownLiteral
  split
  · exact .inl String.toList_ofList
  · rename_i plain
    rw [List.any_eq_true] at plain
    refine .inr ⟨rfl, fun member => plain ⟨_, member, by decide⟩, fun member => plain ⟨_, member, by decide⟩⟩

/-- What is shown of a literal ends with the bracket behind it. -/
theorem shownLiteral_inj {literal literal' : String} {rest rest' : List Char} (clear : ¬ Misleading literal)
    (clear' : ¬ Misleading literal')
    (same : (shownLiteral literal).toList ++ ')' :: rest = (shownLiteral literal').toList ++ ')' :: rest') :
    literal = literal' ∧ rest = rest' := by
  -- What begins with a quote is quoted.
  have apart {literal literal' : String} {rest rest' : List Char} (clear' : ¬ Misleading literal')
      (raw : shownLiteral literal' = literal') :
      Text.literalChars literal.toList ++ ')' :: rest ≠ literal'.toList ++ ')' :: rest' := by
    intro same
    cases shape : literal'.toList with
    | nil =>
      rw [shape] at same
      exact absurd (List.cons.inj same).1 (by decide)
    | cons c text =>
      rw [shape] at same
      obtain ⟨rfl, -⟩ := List.cons.inj same
      exact clear' ⟨raw, by rw [shape]; rfl⟩
  rcases shownLiteral_cases literal with quoted | ⟨raw, -, plain⟩ <;>
    rcases shownLiteral_cases literal' with quoted' | ⟨raw', -, plain'⟩
  · rw [quoted, quoted'] at same
    have read := GrammarText.literal_literal literal.toList (')' :: rest)
    rw [same, GrammarText.literal_literal, String.ofList_toList, String.ofList_toList] at read
    obtain ⟨text, behind⟩ := Prod.mk.inj (Option.some.inj read)
    exact ⟨text.symm, (List.cons.inj behind).2.symm⟩
  · rw [quoted, raw'] at same
    exact absurd same (apart clear' raw')
  · rw [raw, quoted'] at same
    exact absurd same.symm (apart clear raw)
  · rw [raw, raw'] at same
    obtain ⟨text, behind⟩ := append_mark_inj plain plain' same
    exact ⟨String.toList_injective text, behind⟩

variable {g : Grammar}

theorem bracketed_leaf (rule : Nat) : (g.bracketed (.leaf rule)).toList =
    '(' :: (Nat.toDigits 10 (g.lhs rule) ++ ' ' :: ((g.leafText rule).toList ++ [')'])) := by
  simp [bracketed, String.toList_append, Nat.toList_repr, toString]

theorem bracketed_node (rule : Nat) (left right : Derivation) : (g.bracketed (.node rule left right)).toList =
    '(' :: (Nat.toDigits 10 (g.lhs rule) ++ ' ' :: ((g.bracketed left).toList ++
      ' ' :: ((g.bracketed right).toList ++ [')']))) := by
  simp [bracketed, String.toList_append, Nat.toList_repr, toString]

theorem bracketed_head (tree : Derivation) : ∃ rest, (g.bracketed tree).toList = '(' :: rest := by
  cases tree with
  | leaf rule => exact ⟨_, bracketed_leaf rule⟩
  | node rule left right => exact ⟨_, bracketed_node rule left right⟩

theorem lhs_eq {rule nt : Nat} {production : Production} (found : g.rules.rules[rule]? = some ⟨nt, production⟩) :
    g.lhs rule = nt := by
  simp [lhs, RuleSet.lhs?, RuleSet.rule?, found]

theorem Legible.children {rule : Nat} {left right : Derivation} (legible : g.Legible (.node rule left right)) :
    g.Legible left ∧ g.Legible right :=
  (Derivation.forall_mem_rules_node.mp legible).2

/-- No literal shown begins with the bracket of a node. -/
theorem shownLiteral_head (literal : String) (rest : List Char) :
    ((shownLiteral literal).toList ++ ')' :: rest).head? ≠ some '(' := by
  rcases shownLiteral_cases literal with quoted | ⟨raw, plain, -⟩
  · rw [quoted, Text.literalChars]
    intro same
    cases same
  · rw [raw]
    cases shape : literal.toList with
    | nil =>
      intro same
      cases same
    | cons c text =>
      intro same
      obtain rfl : c = '(' := Option.some.inj same
      rw [shape] at plain
      exact plain List.mem_cons_self

variable (formed : g.rules.WellFormed) (exact : g.alphabet.Exact)
  (terminals : g.rules.terminals = g.alphabet.literals.size)

include formed terminals

theorem leafText_eq {rule nt terminal : Nat} (found : g.rules.rules[rule]? = some ⟨nt, .terminal terminal⟩) :
    ∃ literal, g.literal? terminal = some literal ∧ g.leafLiteral? rule = some literal ∧
      g.leafText rule = shownLiteral literal := by
  have inside : terminal < g.alphabet.literals.size := by
    rw [← terminals]
    exact (formed.terminal (Array.mem_of_getElem? found)).2
  have literal : g.literal? terminal = some g.alphabet.literals[terminal] := Array.getElem?_eq_getElem inside
  have production := RuleSet.production_eq_some_iff.mpr ⟨nt, found⟩
  refine ⟨_, literal, ?_, ?_⟩
  · simp only [leafLiteral?, production, literal]
  · simp only [leafText, production, literal, Option.getD_some]

include exact

/-- Trees that can be read from the same text are the same. -/
theorem bracketed_unique {tree tree' : Derivation} {nt nt' : Nat} {rest rest' : List Char}
    (rooted : g.rules.Rooted tree nt) (rooted' : g.rules.Rooted tree' nt') (legible : g.Legible tree)
    (legible' : g.Legible tree') (same : (g.bracketed tree).toList ++ rest = (g.bracketed tree').toList ++ rest') :
    tree = tree' ∧ nt = nt' ∧ rest = rest' := by
  induction rooted generalizing tree' nt' rest rest' with
  | @leaf rule nt terminal found =>
    obtain ⟨literal, known, read, shown⟩ := leafText_eq formed terminals found
    cases rooted' with
    | @leaf rule' _ terminal' found' =>
      obtain ⟨literal', known', read', shown'⟩ := leafText_eq formed terminals found'
      rw [bracketed_leaf, bracketed_leaf, lhs_eq found, lhs_eq found', shown, shown'] at same
      simp only [List.cons_append, List.append_assoc, List.nil_append, List.cons.injEq, true_and] at same
      obtain ⟨digits, same⟩ := append_mark_inj (blank_not_mem_digits nt) (blank_not_mem_digits nt') same
      have clear : ¬ Misleading literal := legible rule (List.mem_singleton_self _) literal read
      have clear' : ¬ Misleading literal' := legible' rule' (List.mem_singleton_self _) literal' read'
      obtain ⟨rfl, behind⟩ := shownLiteral_inj clear clear' same
      obtain rfl : nt = nt' := toDigits_inj digits
      obtain rfl : terminal = terminal' := exact.number_unique known known'
      exact ⟨congrArg Derivation.leaf (formed.index_unique found found'), rfl, behind⟩
    | @node rule' _ a b left right found' first second =>
      rw [bracketed_leaf, bracketed_node, lhs_eq found, lhs_eq found', shown] at same
      simp only [List.cons_append, List.append_assoc, List.nil_append, List.cons.injEq, true_and] at same
      obtain ⟨-, same⟩ := append_mark_inj (blank_not_mem_digits nt) (blank_not_mem_digits nt') same
      obtain ⟨text, head⟩ := bracketed_head left
      rw [head] at same
      exact absurd (congrArg List.head? same) (shownLiteral_head literal rest)
  | @node rule nt a b left right found first second firstIh secondIh =>
    cases rooted' with
    | @leaf rule' _ terminal' found' =>
      obtain ⟨literal', -, -, shown'⟩ := leafText_eq formed terminals found'
      rw [bracketed_node, bracketed_leaf, lhs_eq found, lhs_eq found', shown'] at same
      simp only [List.cons_append, List.append_assoc, List.nil_append, List.cons.injEq, true_and] at same
      obtain ⟨-, same⟩ := append_mark_inj (blank_not_mem_digits nt) (blank_not_mem_digits nt') same
      obtain ⟨text, head⟩ := bracketed_head left
      rw [head] at same
      exact absurd (congrArg List.head? same.symm) (shownLiteral_head literal' rest')
    | @node rule' _ a' b' left' right' found' first' second' =>
      rw [bracketed_node, bracketed_node, lhs_eq found, lhs_eq found'] at same
      simp only [List.cons_append, List.append_assoc, List.nil_append, List.cons.injEq, true_and] at same
      obtain ⟨digits, same⟩ := append_mark_inj (blank_not_mem_digits nt) (blank_not_mem_digits nt') same
      obtain ⟨rfl, rfl, afterLeft⟩ := firstIh first' legible.children.1 legible'.children.1 same
      obtain ⟨rfl, rfl, afterRight⟩ :=
        secondIh second' legible.children.2 legible'.children.2 (List.cons.inj afterLeft).2
      obtain rfl : nt = nt' := toDigits_inj digits
      obtain rfl := formed.index_unique found found'
      exact ⟨rfl, rfl, (List.cons.inj afterRight).2⟩

end Grammar

end StochasticGrammar
