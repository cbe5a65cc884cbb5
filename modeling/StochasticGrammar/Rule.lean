/-!
Rules in binary form: a non-terminal stands for one terminal or for two non-terminals. Both kinds of
symbol are numbered.
-/

namespace StochasticGrammar

inductive Production where
  | terminal (terminal : Nat)
  | binary (left right : Nat)
  deriving DecidableEq, Repr, Inhabited

structure Rule where
  lhs : Nat
  production : Production
  deriving DecidableEq, Repr, Inhabited

structure TerminalRule where
  index : Nat
  lhs : Nat
  terminal : Nat
  deriving DecidableEq, Repr

structure BinaryRule where
  index : Nat
  lhs : Nat
  left : Nat
  right : Nat
  deriving DecidableEq, Repr

def TerminalRule.all (rules : Array Rule) : List TerminalRule :=
  rules.toList.zipIdx.filterMap fun (rule, index) =>
    match rule.production with
    | .terminal terminal => some ⟨index, rule.lhs, terminal⟩
    | .binary .. => none

def BinaryRule.all (rules : Array Rule) : List BinaryRule :=
  rules.toList.zipIdx.filterMap fun (rule, index) =>
    match rule.production with
    | .terminal _ => none
    | .binary left right => some ⟨index, rule.lhs, left, right⟩

end StochasticGrammar
