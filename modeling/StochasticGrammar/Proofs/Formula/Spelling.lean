import StochasticGrammar.Proofs.Formula.Reading

/-!
What is asked of the names and numbers of a formula that is read: names are names, and numbers have
no sign, for a minus sign before a number is an operator. Such a formula is read again from its own
text when none of its numbers is infinite.
-/

namespace StochasticGrammar.Formula

open Decimal

def constants : Formula → List Float
  | constant value => [value]
  | parameter _ => []
  | negate inner => inner.constants
  | binary _ left right => left.constants ++ right.constants

/-- Names are names, and numbers are without a sign. -/
def Spelled : Formula → Prop
  | constant value => Double.Unmarked (Double.number value)
  | parameter name => IsName name
  | negate inner => inner.Spelled
  | binary _ left right => left.Spelled ∧ right.Spelled

theorem Spelled.readable {f : Formula} (spelled : f.Spelled)
    (bounded : ∀ value ∈ f.constants, value.isInf = false) : f.Readable := by
  induction f with
  | constant value => exact ⟨spelled.isFinite (bounded value List.mem_cons_self), spelled⟩
  | parameter name => exact spelled
  | negate inner ih => exact ih spelled bounded
  | binary op left right ihLeft ihRight =>
    have both := List.forall_mem_append.mp bounded
    exact ⟨ihLeft spelled.1 both.1, ihRight spelled.2 both.2⟩

theorem isName_of_name {input rest : List Char} {name : String} (word : name? input = some (name, rest)) :
    IsName name := by
  unfold name? at word
  split at word
  · rename_i c tail
    split at word
    · rename_i first
      cases word
      exact ⟨c, _, String.toList_ofList, first, fun d inside => (List.mem_takeWhile_imp inside)⟩
    · cases word
  · cases word

theorem unmarked_scan {input rest : List Char} {value : Float}
    (scanned : Decimal.scan input = .number value rest) (other : input.head? ≠ some '-') :
    Double.Unmarked (Double.number value) := by
  have plus : (splitSign input).1 = false := by
    unfold splitSign
    split
    · exact absurd rfl other
    · rfl
    · rfl
  simp only [Decimal.scan, plus] at scanned
  split at scanned
  · cases scanned
  · split at scanned
    · cases scanned
    · cases scanned
      exact unmarked_nearest _ _

end StochasticGrammar.Formula
