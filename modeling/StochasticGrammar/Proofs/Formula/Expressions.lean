import StochasticGrammar.Proofs.Decimal.Numerals
import StochasticGrammar.Proofs.Formula.Spelling

/-!
The grammar of expressions, and that a text is read just when this grammar derives it. Each category
says with the text what formula it stands for, so that products bind before sums and a minus sign
before both, and operators of one kind group to the left. A minus sign before a number is its sign to
the grammar, which is thus ambiguous; to the reader it is an operator.
-/

namespace StochasticGrammar.Formula

open Decimal

def Gap (text : List Char) : Prop := ∀ c ∈ text, isSpace c = true

inductive Category where
  | expression
  | term
  | factor
  | atom
  deriving DecidableEq, Repr

inductive Denotes : Category → List Char → Formula → Prop where
  | term {text f} (inner : Denotes .term text f) : Denotes .expression text f
  | sum {text before after text' f g} {op : BinaryOp} (left : Denotes .expression text f)
      (kind : op = .add ∨ op = .sub) (gap : Gap before) (gap' : Gap after)
      (right : Denotes .term text' g) :
      Denotes .expression (text ++ (before ++ op.symbol :: (after ++ text'))) (.binary op f g)
  | factor {text f} (inner : Denotes .factor text f) : Denotes .term text f
  | product {text before after text' f g} {op : BinaryOp} (left : Denotes .term text f)
      (kind : op = .mul ∨ op = .div) (gap : Gap before) (gap' : Gap after)
      (right : Denotes .factor text' g) :
      Denotes .term (text ++ (before ++ op.symbol :: (after ++ text'))) (.binary op f g)
  | minus {after text f} (gap : Gap after) (inner : Denotes .factor text f) :
      Denotes .factor ('-' :: (after ++ text)) (.negate f)
  | atom {text f} (inner : Denotes .atom text f) : Denotes .factor text f
  | name {name} (word : IsName name) : Denotes .atom name.toList (.parameter name)
  | number {text value} (numeral : Numeral text value) : Denotes .atom text (.constant value)
  | bracket {before text after f} (gap : Gap before) (inner : Denotes .expression text f)
      (gap' : Gap after) : Denotes .atom ('(' :: (before ++ (text ++ (after ++ [')'])))) f

/-- The whole text is an expression, but for blanks around it. -/
def DenotesWhole (text : String) (f : Formula) : Prop :=
  ∃ before inner after, Gap before ∧ Gap after ∧ text.toList = before ++ (inner ++ after) ∧
    Denotes .expression inner f

/-- No number has a minus sign of its own. -/
def Unsigned (f : Formula) : Prop := ∀ value ∈ f.constants, Double.Unmarked (Double.number value)

/-- What may follow an expression or a part of one. -/
def Follows (rest : List Char) : Prop :=
  ∀ c ∈ rest.head?, isSpace c = true ∨ c = '+' ∨ c = '-' ∨ c = '*' ∨ c = '/' ∨ c = ')'

section

variable {gap text rest : List Char} {f g : Formula} {category : Category} {value : Float}

theorem follows_nil : Follows [] := by
  intro c first
  cases first

theorem follows_gap (blank : Gap gap) (follows : Follows rest) : Follows (gap ++ rest) := by
  cases gap with
  | nil => exact follows
  | cons d gap =>
    intro c first
    cases first
    exact .inl (blank d List.mem_cons_self)

theorem follows_symbol (op : BinaryOp) (rest : List Char) : Follows (op.symbol :: rest) := by
  intro c first
  cases first
  cases op <;> simp [BinaryOp.symbol]

theorem follows_close (rest : List Char) : Follows (')' :: rest) := by
  intro c first
  cases first
  simp

theorem Follows.cases (follows : Follows rest) {c : Char} (first : c ∈ rest.head?) :
    c = ' ' ∨ c = '\t' ∨ c = '\r' ∨ c = '\n' ∨ c = '+' ∨ c = '-' ∨ c = '*' ∨ c = '/' ∨ c = ')' := by
  have cases := follows c first
  simpa only [isSpace, Bool.or_eq_true, beq_iff_eq, or_assoc] using cases

theorem Follows.endsNumber (follows : Follows rest) : EndsNumber rest := by
  intro c first
  rcases follows.cases first with rfl | rfl | rfl | rfl | rfl | rfl | rfl | rfl | rfl <;> decide

theorem Follows.endsName (follows : Follows rest) : ∀ c ∈ rest.head?, continuesName c = false := by
  intro c first
  rcases follows.cases first with rfl | rfl | rfl | rfl | rfl | rfl | rfl | rfl | rfl <;> decide

theorem skipSpace_gap (blank : Gap gap) (stop : ∀ c ∈ text.head?, isSpace c = false) :
    skipSpace (gap ++ text) = text := by
  have ended : text.dropWhile isSpace = text := by
    cases text with
    | nil => rfl
    | cons c text =>
      have other : isSpace c = false := stop c rfl
      simp [other]
  rw [skipSpace, List.dropWhile_append_of_pos blank, ended]

/-- No category derives a text that begins with a blank. -/
theorem Denotes.head (denotes : Denotes category text f) :
    ∃ c tail, text = c :: tail ∧ isSpace c = false := by
  have extend {text : List Char} (more : List Char)
      (some : ∃ c tail, text = c :: tail ∧ isSpace c = false) :
      ∃ c tail, text ++ more = c :: tail ∧ isSpace c = false := by
    rcases some with ⟨c, tail, rfl, ink⟩
    exact ⟨c, tail ++ more, rfl, ink⟩
  induction denotes with
  | term inner ih => exact ih
  | sum left kind gap gap' right ihLeft ihRight => exact extend _ ihLeft
  | factor inner ih => exact ih
  | product left kind gap gap' right ihLeft ihRight => exact extend _ ihLeft
  | minus gap inner ih => exact ⟨'-', _, rfl, by decide⟩
  | atom inner ih => exact ih
  | name word =>
    rcases word with ⟨c, tail, shape, first, -⟩
    have range := Text.startsName_toNat first
    exact ⟨c, tail, shape, Text.isSpace_of_isBlank (Text.inked_of_toNat (by omega) (by omega)).blank⟩
  | number numeral =>
    rcases numeral.head with ⟨c, tail, shape, first⟩
    refine ⟨c, tail, shape, ?_⟩
    rcases first with digit | rfl | rfl | rfl
    · have range := Text.isDigit_toNat digit
      exact Text.isSpace_of_isBlank (Text.inked_of_toNat (by omega) (by omega)).blank
    · decide
    · decide
    · decide
  | bracket gap inner gap' ih => exact ⟨'(', _, rfl, by decide⟩

theorem Denotes.skipSpace (denotes : Denotes category text f) (blank : Gap gap) (rest : List Char) :
    skipSpace (gap ++ (text ++ rest)) = text ++ rest := by
  apply skipSpace_gap blank
  rcases denotes.head with ⟨c, tail, rfl, ink⟩
  intro d first
  cases first
  exact ink

end

/-- What the reader of a category makes of a text of it, whatever may follow. The readers of sums and
products go on with the chain of operators. -/
def Category.Reads : Category → List Char → Formula → Prop
  | .atom, text, f => ∀ ⦃rest⦄, Follows rest → Yields (Formula.atom (text ++ rest)) f rest
  | .factor, text, f => ∀ ⦃rest⦄, Follows rest → Yields (Formula.factor (text ++ rest)) f rest
  | .term, text, f => ∀ ⦃rest whole last⦄, Follows rest → Yields (products f rest) whole last →
      Yields (Formula.term (text ++ rest)) whole last
  | .expression, text, f => ∀ ⦃rest whole last⦄, Follows rest → productOp? (skipSpace rest) = none →
      Yields (sums f rest) whole last → Yields (Formula.expression (text ++ rest)) whole last

section

variable {category : Category} {text before after text' rest whole last : List Char} {f g : Formula}
  {op : BinaryOp}

theorem name_of_digit {c : Char} (first : c.isDigit = true ∨ c = '.' ∨ c = '+' ∨ c = '-')
    (rest : List Char) : name? (c :: rest) = none := by
  have other : startsName c = false := by
    rcases first with digit | rfl | rfl | rfl
    · exact Text.startsName_of_isDigit digit
    · decide
    · decide
    · decide
  simp [name?, other]

theorem reads_numeral {value : Float} (numeral : Numeral text value) :
    Category.atom.Reads text (.constant value) := by
  intro rest follows
  rcases numeral.head with ⟨c, tail, shape, first⟩
  apply yields_number
  · rw [shape]
    exact name_of_digit first _
  · exact scan_numeral numeral follows.endsNumber

/-- A text without a minus sign is no factor of another kind. -/
theorem head_of_atom (denotes : Denotes .atom text f) (unsigned : f.Unsigned) :
    text.head? ≠ some '-' := by
  cases denotes with
  | name word =>
    rcases word with ⟨c, tail, shape, first, -⟩
    rw [shape]
    rintro same
    cases same
    exact absurd first (by decide)
  | number numeral => exact numeral.head_of_unmarked (unsigned _ List.mem_cons_self)
  | bracket gap inner gap' => exact fun same => nomatch same

theorem reads_bracket (gap : Gap before) (inner : Denotes .expression text f) (gap' : Gap after)
    (reads : Category.expression.Reads text f) :
    Category.atom.Reads ('(' :: (before ++ (text ++ (after ++ [')'])))) f := by
  intro rest follows
  have closed : skipSpace (after ++ ')' :: rest) = ')' :: rest := by
    apply skipSpace_gap gap'
    intro c first
    cases first
    decide
  have inside : Yields (expression (text ++ (after ++ ')' :: rest))) f (after ++ ')' :: rest) := by
    apply reads (follows_gap gap' (follows_close rest))
    · rw [closed]
      rfl
    · apply yields_sums_stop
      rw [closed]
      rfl
  have shape : '(' :: (before ++ (text ++ (after ++ [')']))) ++ rest =
      '(' :: (before ++ (text ++ (after ++ ')' :: rest))) := by simp
  rw [shape]
  apply yields_bracket _ closed
  rw [inner.skipSpace gap]
  exact inside

theorem reads_product (kind : op = .mul ∨ op = .div) (gap : Gap before) (gap' : Gap after)
    (right : Denotes .factor text' g) (reads : Category.term.Reads text f)
    (reads' : Category.factor.Reads text' g) :
    Category.term.Reads (text ++ (before ++ op.symbol :: (after ++ text'))) (.binary op f g) := by
  intro rest whole last follows chain
  have symbol : productOp? (skipSpace (before ++ op.symbol :: (after ++ (text' ++ rest)))) =
      some (op, after ++ (text' ++ rest)) := by
    rw [skipSpace_gap gap]
    · rcases kind with rfl | rfl <;> rfl
    · intro c first
      cases first
      rcases kind with rfl | rfl <;> decide
  have shape : text ++ (before ++ op.symbol :: (after ++ text')) ++ rest =
      text ++ (before ++ op.symbol :: (after ++ (text' ++ rest))) := by simp
  rw [shape]
  apply reads (follows_gap gap (follows_symbol op _))
  apply yields_products symbol _ chain
  rw [right.skipSpace gap']
  exact reads' follows

theorem reads_sum (kind : op = .add ∨ op = .sub) (gap : Gap before) (gap' : Gap after)
    (right : Denotes .term text' g) (reads : Category.expression.Reads text f)
    (reads' : Category.term.Reads text' g) :
    Category.expression.Reads (text ++ (before ++ op.symbol :: (after ++ text'))) (.binary op f g) := by
  intro rest whole last follows stop chain
  have skipped : skipSpace (before ++ op.symbol :: (after ++ (text' ++ rest))) =
      op.symbol :: (after ++ (text' ++ rest)) := by
    apply skipSpace_gap gap
    intro c first
    cases first
    rcases kind with rfl | rfl <;> decide
  have shape : text ++ (before ++ op.symbol :: (after ++ text')) ++ rest =
      text ++ (before ++ op.symbol :: (after ++ (text' ++ rest))) := by simp
  rw [shape]
  apply reads (follows_gap gap (follows_symbol op _))
  · rw [skipped]
    rcases kind with rfl | rfl <;> rfl
  · have symbol : sumOp? (op.symbol :: (after ++ (text' ++ rest))) = some (op, after ++ (text' ++ rest)) := by
      rcases kind with rfl | rfl <;> rfl
    apply yields_sums (skipped ▸ symbol) _ chain
    rw [right.skipSpace gap']
    exact reads' follows (yields_products_stop stop)

/-- What the grammar derives without signs in numbers is read as what it stands for. -/
theorem Denotes.reads (denotes : Denotes category text f) (unsigned : f.Unsigned) :
    category.Reads text f := by
  induction denotes with
  | term inner ih =>
    intro rest whole last follows stop chain
    exact yields_expression (ih unsigned follows (yields_products_stop stop)) chain
  | sum left kind gap gap' right ihLeft ihRight =>
    have both := List.forall_mem_append.mp unsigned
    exact reads_sum kind gap gap' right (ihLeft both.1) (ihRight both.2)
  | factor inner ih =>
    intro rest whole last follows chain
    exact yields_term (ih unsigned follows) chain
  | product left kind gap gap' right ihLeft ihRight =>
    have both := List.forall_mem_append.mp unsigned
    exact reads_product kind gap gap' right (ihLeft both.1) (ihRight both.2)
  | minus gap inner ih =>
    intro rest follows
    rw [List.cons_append, List.append_assoc]
    apply yields_minus
    rw [inner.skipSpace gap]
    exact ih unsigned follows
  | atom inner ih =>
    intro rest follows
    have other := head_of_atom inner unsigned
    rcases inner.head with ⟨c, tail, rfl, -⟩
    rw [factor_atom (by simpa using other)]
    exact ih unsigned follows
  | name word =>
    intro rest follows
    exact yields_name (name_append word follows.endsName)
  | number numeral => exact reads_numeral numeral
  | bracket gap inner gap' ih => exact reads_bracket gap inner gap' (ih unsigned)

end

end StochasticGrammar.Formula
