import StochasticGrammar.Proofs.Double.Bounds
import StochasticGrammar.Proofs.Formula.Derivations

/-!
A formula that is read, written and read again. Its text can always be read, and it stands for the same
formula when no number is infinite. A numeral beyond all doubles reads as infinity; the text of infinity
is a word, and words are names of parameters.
-/

namespace StochasticGrammar.Formula

open Decimal Double Float.Model Float.Model.UnpackedFloat

/-- What the text of a formula stands for. -/
def reread : Formula → Formula
  | constant value => if value.isInf then parameter "inf" else constant value
  | parameter name => parameter name
  | negate inner => negate inner.reread
  | binary op left right => binary op left.reread right.reread

/-- None of its numbers is infinite. -/
def Bounded (f : Formula) : Prop := ∀ value ∈ f.constants, value.isInf = false

theorem bounded_constant {value : Float} : (constant value).Bounded ↔ value.isInf = false := by
  simp [Bounded, constants]

theorem bounded_binary {op : BinaryOp} {left right : Formula} :
    (binary op left right).Bounded ↔ left.Bounded ∧ right.Bounded := List.forall_mem_append

theorem text_of_isInf {value : Float} (unmarked : Unmarked (number value)) (infinite : value.isInf = true) :
    Decimal.text value = "inf" := by
  have infinite : (number value).isInf = true := infinite
  rw [Decimal.text, Layout.write, ofFloat_eq]
  cases shape : number value with
  | infinity sign =>
    rw [shape] at unmarked
    cases unmarked
    rfl
  | zero sign | finite sign m e positive => simp [shape, UnpackedFloat.isInf] at infinite
  | notANumber => simp [shape, UnpackedFloat.isInf] at infinite

section

variable {f : Formula} (spelled : f.Spelled)

include spelled

/-- Both formulas have the same text in every place. -/
theorem write_reread (parent : Nat) (onRight : Bool) (rest : List Char) :
    f.reread.write parent onRight rest = f.write parent onRight rest := by
  induction f generalizing parent onRight rest with
  | constant value =>
    rw [reread]
    split
    · rename_i infinite
      rw [write, write, text_of_isInf spelled infinite]
    · rfl
  | parameter name => rfl
  | negate inner ih => rw [reread, write, write, ih spelled]
  | binary op left right ihLeft ihRight =>
    simp only [reread, write, ihLeft spelled.1, ihRight spelled.2]

theorem text_reread : f.reread.text = f.text := congrArg String.ofList (write_reread spelled 0 false [])

theorem readable_reread : f.reread.Readable := by
  induction f with
  | constant value =>
    rw [reread]
    split
    · exact ⟨'i', ['n', 'f'], rfl, rfl, List.all_eq_true.mp rfl⟩
    · rename_i bounded
      exact ⟨spelled.isFinite (Bool.eq_false_iff.mpr bounded), spelled⟩
  | parameter name => exact spelled
  | negate inner ih => exact ih spelled
  | binary op left right ihLeft ihRight => exact ⟨ihLeft spelled.1, ihRight spelled.2⟩

/-- Numbers that are read equal themselves, as `==` goes by their order. -/
theorem beq_self : (f == f) = true := by
  induction f with
  | constant value =>
    have defined : value.isNaN = false := (nonnegative_iff.mpr (zero_le_of_unmarked spelled)).isNaN
    exact (beq_iff_rank defined defined).mpr rfl
  | parameter name => exact beq_self_eq_true name
  | negate inner ih => exact ih spelled
  | binary op left right ihLeft ihRight =>
    change (op == op && (left == left && right == right)) = true
    rw [ihLeft spelled.1, ihRight spelled.2, beq_self_eq_true]
    rfl

theorem reread_beq_iff : (f.reread == f) = true ↔ f.Bounded := by
  induction f with
  | constant value =>
    rw [bounded_constant, reread]
    split
    · rename_i infinite
      exact iff_of_false Bool.false_ne_true (by simp [infinite])
    · rename_i bounded
      exact iff_of_true (beq_self spelled) (Bool.eq_false_iff.mpr bounded)
  | parameter name => exact iff_of_true (beq_self spelled) fun _ inside => nomatch inside
  | negate inner ih => exact ih spelled
  | binary op left right ihLeft ihRight =>
    rw [bounded_binary, ← ihLeft spelled.1, ← ihRight spelled.2, ← Bool.and_eq_true]
    change (op == op && (left.reread == left && right.reread == right)) = true ↔ _
    rw [beq_self_eq_true, Bool.true_and]

end

theorem reread_eq {f : Formula} (bounded : f.Bounded) : f.reread = f := by
  induction f with
  | constant value => rw [reread, bounded_constant.mp bounded, if_neg Bool.false_ne_true]
  | parameter name => rfl
  | negate inner ih => rw [reread, ih bounded]
  | binary op left right ihLeft ihRight =>
    rcases bounded_binary.mp bounded with ⟨first, second⟩
    rw [reread, ihLeft first, ihRight second]

/-- The text of a formula that was read can be read. It stands for an equal formula just when no number
of the formula is infinite, and then for the very same one. -/
theorem parse_text_of_parse {text : String} {f : Formula} (read : parse text = .ok f) :
    parse f.text = .ok f.reread ∧ ((f.reread == f) = true ↔ f.Bounded) ∧ (f.Bounded → f.reread = f) := by
  rcases denotes_of_parse read with ⟨⟨before, inner, after, -, -, -, denotes⟩, unsigned⟩
  have spelled := denotes.spelled unsigned
  refine ⟨?_, reread_beq_iff spelled, reread_eq⟩
  rw [← text_reread spelled]
  exact parse_text (readable_reread spelled)

/-- A sign before brackets, around a name and a number. -/
theorem sample_parse_text :
    let f : Formula := .negate (.binary .sub (.parameter "a") (.constant 0.5))
    parse "- (a-.5)" = .ok f ∧ f.Bounded ∧ parse f.text = .ok f := by
  intro f
  have none : Gap [] := fun _ inside => nomatch inside
  have name : Denotes .atom "a".toList (.parameter "a") := .name ⟨'a', [], rfl, rfl, by simp⟩
  have number : Denotes .atom ".5".toList (.constant 0.5) := by
    obtain ⟨text, numeral, shape⟩ := numeral_of_scan (rfl : scan ".5".toList = .number 0.5 [])
    rw [shape, List.append_nil]
    exact .number numeral
  have difference : Denotes .expression "a-.5".toList (.binary .sub (.parameter "a") (.constant 0.5)) :=
    .sum (.term (.factor (.atom name))) (.inr rfl) none none (.factor (.atom number))
  have whole : Denotes .factor "- (a-.5)".toList f :=
    .minus (List.all_eq_true.mp rfl : Gap [' ']) (.atom (.bracket none difference none))
  have unsigned : f.Unsigned := by
    intro value inside
    rw [List.mem_singleton.mp inside]
    exact unmarked_scientific (by decide) true 1
  have read : parse "- (a-.5)" = .ok f :=
    parse_of_denotes ⟨[], _, [], none, none, (List.append_nil _).symm, .term (.factor whole)⟩ unsigned
  have bounded : f.Bounded := by
    intro value inside
    rw [List.mem_singleton.mp inside]
    decide +kernel
  obtain ⟨again, -, same⟩ := parse_text_of_parse read
  exact ⟨read, bounded, same bounded ▸ again⟩

/-- A number of four hundred digits comes back as a parameter. -/
theorem infinite_constant_rereads :
    let f : Formula := .constant (1.0 / 0.0)
    parse "1e400" = .ok f ∧ f.text = "inf" ∧ parse f.text = .ok (.parameter "inf") ∧
      (Formula.parameter "inf" == f) = false := by
  intro f
  have scanned : Decimal.scan "1e400".toList = .number (1.0 / 0.0) [] := rfl
  have read : parse "1e400" = .ok f := by
    apply parse_of_yields
    apply yields_expression (yields_term _ (yields_products_stop rfl)) (yields_sums_stop rfl)
    rw [factor_atom]
    · exact yields_number rfl scanned
    · decide
  have shown : f.text = "inf" := by decide +kernel
  refine ⟨read, shown, ?_, rfl⟩
  rw [shown]
  cbv

end StochasticGrammar.Formula
