import StochasticGrammar.Pruning

/-!
Numbered rules over numbered symbols, with the tables that the charts look up. Every table is fixed
by the rules; the set carries the tables with the proof that they are those of its rules.
-/

namespace StochasticGrammar

structure RuleIndex where
  terminal : Array (List TerminalRule)
  binary : Array (List BinaryRule)
  asLeft : Array (List BinaryRule)
  asRight : Array (List BinaryRule)
  deriving Inhabited

/-- Puts an item at the end of a row. -/
def pushAt {α : Type} (rows : Array (List α)) (n : Nat) (item : α) : Array (List α) :=
  rows.modify n (· ++ [item])

namespace RuleIndex

def empty (nonTerminals : Nat) : RuleIndex where
  terminal := .replicate nonTerminals []
  binary := .replicate nonTerminals []
  asLeft := .replicate nonTerminals []
  asRight := .replicate nonTerminals []

def add (index : RuleIndex) (rule : Rule) (number : Nat) : RuleIndex :=
  match rule.production with
  | .terminal terminal =>
    { index with terminal := pushAt index.terminal rule.lhs ⟨number, rule.lhs, terminal⟩ }
  | .binary left right =>
    let r : BinaryRule := ⟨number, rule.lhs, left, right⟩
    { index with
      binary := pushAt index.binary rule.lhs r
      asLeft := pushAt index.asLeft left r
      asRight := pushAt index.asRight right r }

def ofRules (nonTerminals : Nat) (rules : Array Rule) : RuleIndex :=
  rules.toList.zipIdx.foldl (fun index rule => index.add rule.1 rule.2) (empty nonTerminals)

def terminalsOf (index : RuleIndex) (nt : Nat) : List TerminalRule := index.terminal[nt]?.getD []

def binariesOf (index : RuleIndex) (nt : Nat) : List BinaryRule := index.binary[nt]?.getD []

end RuleIndex

/-- No vector has more bytes than this. -/
def vectorBytes : Nat := 9223372036854775807

/-- The tables can be set up. A row takes 24 bytes, and the lookup of terminal rules 16 bytes for each
terminal of each non-terminal. -/
def TablesFit (nonTerminals terminals : Nat) : Prop :=
  nonTerminals * 24 ≤ vectorBytes ∧ nonTerminals * terminals * 16 ≤ vectorBytes

instance (nonTerminals terminals : Nat) : Decidable (TablesFit nonTerminals terminals) :=
  inferInstanceAs (Decidable (_ ∧ _))

structure RuleSet where
  rules : Array Rule
  start : Nat
  nonTerminals : Nat
  terminals : Nat
  index : RuleIndex := .ofRules nonTerminals rules
  index_eq : index = .ofRules nonTerminals rules := by rfl
  pruning : Pruning := .ofRules nonTerminals terminals rules
  pruning_eq : pruning = .ofRules nonTerminals terminals rules := by rfl

namespace RuleSet

def size (g : RuleSet) : Nat := g.rules.size

def rule? (g : RuleSet) (index : Nat) : Option Rule := g.rules[index]?

def lhs? (g : RuleSet) (index : Nat) : Option Nat := (g.rule? index).map Rule.lhs

def production? (g : RuleSet) (index : Nat) : Option Production := (g.rule? index).map Rule.production

def terminalsOf (g : RuleSet) (nt : Nat) : List TerminalRule := g.index.terminalsOf nt

def binariesOf (g : RuleSet) (nt : Nat) : List BinaryRule := g.index.binariesOf nt

/-- The binary rules with `nt` as the left of their two symbols. -/
def withLeft (g : RuleSet) (nt : Nat) : List BinaryRule := g.index.asLeft[nt]?.getD []

def withRight (g : RuleSet) (nt : Nat) : List BinaryRule := g.index.asRight[nt]?.getD []

/-- The rules of `nt` in their order: terminal rules are numbered before all others. -/
def rulesOf (g : RuleSet) (nt : Nat) : List Nat :=
  (g.terminalsOf nt).map (·.index) ++ (g.binariesOf nt).map (·.index)

def terminalRule? (g : RuleSet) (nt terminal : Nat) : Option Nat :=
  ((g.terminalsOf nt).find? (·.terminal == terminal)).map (·.index)

/-- A non-terminal without binary rules stands for one token only. -/
def isSingle (g : RuleSet) (nt : Nat) : Bool := (g.binariesOf nt).isEmpty

end RuleSet

end StochasticGrammar
