import StochasticGrammar.Formula.Parser
import StochasticGrammar.Proofs.Decimal.Text
import StochasticGrammar.Proofs.Text.Characters

/-!
The text of a formula reads as this formula. How tightly a text binds tells which of the readers takes
it in whole: a chain of sums, a chain of products or a single factor. Chains are followed through
their left operand, so that what is read of the rest is handed down with it.
-/

namespace StochasticGrammar.Formula

open Decimal

/-- A text that is read as one name. -/
def IsName (name : String) : Prop :=
  ∃ c rest, name.toList = c :: rest ∧ startsName c = true ∧ ∀ d ∈ rest, continuesName d = true

/-- The formulas that can be read: names are names, and numbers are finite and without a sign. -/
def Readable : Formula → Prop
  | constant value => value.isFinite = true ∧ Double.Unmarked (Double.number value)
  | parameter name => IsName name
  | negate inner => inner.Readable
  | binary _ left right => left.Readable ∧ right.Readable

/-- How tightly the text of a formula binds in its place. -/
def strength (f : Formula) (parent : Nat) (onRight : Bool) : Nat :=
  match f with
  | binary op _ _ => if needsBrackets op.precedence parent onRight then 3 else op.precedence
  | _ => 3

theorem strength_three (f : Formula) (onRight : Bool) : f.strength 3 onRight = 3 := by
  cases f with
  | binary op left right => cases op <;> rfl
  | _ => rfl

theorem strength_two_right (f : Formula) : f.strength 2 true = 3 := by
  cases f with
  | binary op left right => cases op <;> rfl
  | _ => rfl

theorem strength_two_left (f : Formula) : 2 ≤ f.strength 2 false := by
  cases f with
  | binary op left right => cases op <;> simp [strength, needsBrackets, BinaryOp.precedence]
  | _ => exact Nat.le_succ 2

theorem strength_one_right (f : Formula) : 2 ≤ f.strength 1 true := by
  cases f with
  | binary op left right => cases op <;> simp [strength, needsBrackets, BinaryOp.precedence]
  | _ => exact Nat.le_succ 2

/-- A reader takes in a formula and leaves the rest. -/
def Yields {p : List Char → Prop} (result : Except Stop (Formula × { rest : List Char // p rest }))
    (f : Formula) (rest : List Char) : Prop :=
  ∃ h, result = .ok (f, ⟨rest, h⟩)

section

variable {f g whole : Formula} {op : BinaryOp} {input rest next last : List Char}

theorem yields_term (first : Yields (factor input) f rest) (chain : Yields (products f rest) whole last) :
    Yields (term input) whole last := by
  obtain ⟨h, first⟩ := first
  obtain ⟨h', chain⟩ := chain
  refine ⟨Nat.lt_of_le_of_lt h' h, ?_⟩
  rw [term, first]
  simp only [chain]

theorem yields_expression (first : Yields (term input) f rest)
    (chain : Yields (sums f rest) whole last) : Yields (expression input) whole last := by
  obtain ⟨h, first⟩ := first
  obtain ⟨h', chain⟩ := chain
  refine ⟨Nat.lt_of_le_of_lt h' h, ?_⟩
  rw [expression, first]
  simp only [chain]

theorem yields_products (symbol : productOp? (skipSpace input) = some (op, rest))
    (second : Yields (factor (skipSpace rest)) g next)
    (chain : Yields (products (.binary op f g) next) whole last) :
    Yields (products f input) whole last := by
  obtain ⟨h, second⟩ := second
  obtain ⟨h', chain⟩ := chain
  have shorter := productOp_shortens symbol
  have skipped := skipSpace_length rest
  have skipped' := skipSpace_length input
  refine ⟨by omega, ?_⟩
  rw [products]
  split
  · simp_all
  · rename_i op' rest' symbol'
    cases symbol.symm.trans symbol'
    rw [second]
    simp only [chain]

theorem yields_products_stop (stop : productOp? (skipSpace input) = none) :
    Yields (products f input) f input := by
  refine ⟨Nat.le_refl _, ?_⟩
  rw [products]
  split
  · rfl
  · simp_all

theorem yields_sums (symbol : sumOp? (skipSpace input) = some (op, rest))
    (second : Yields (term (skipSpace rest)) g next)
    (chain : Yields (sums (.binary op f g) next) whole last) :
    Yields (sums f input) whole last := by
  obtain ⟨h, second⟩ := second
  obtain ⟨h', chain⟩ := chain
  have shorter := sumOp_shortens symbol
  have skipped := skipSpace_length rest
  have skipped' := skipSpace_length input
  refine ⟨by omega, ?_⟩
  rw [sums]
  split
  · simp_all
  · rename_i op' rest' symbol'
    cases symbol.symm.trans symbol'
    rw [second]
    simp only [chain]

theorem yields_sums_stop (stop : sumOp? (skipSpace input) = none) : Yields (sums f input) f input := by
  refine ⟨Nat.le_refl _, ?_⟩
  rw [sums]
  split
  · rfl
  · simp_all

theorem yields_minus (inner : Yields (factor (skipSpace rest)) f next) :
    Yields (factor ('-' :: rest)) (.negate f) next := by
  obtain ⟨h, inner⟩ := inner
  have skipped := skipSpace_length rest
  refine ⟨by simp only [List.length_cons]; omega, ?_⟩
  rw [factor, inner]

theorem factor_atom (other : input.head? ≠ some '-') : factor input = atom input := by
  rw [factor.eq_def]
  split
  · exact absurd rfl other
  · rfl

theorem yields_name {name : String} (word : name? input = some (name, rest)) :
    Yields (atom input) (.parameter name) rest := by
  refine ⟨name_shortens word, ?_⟩
  rw [atom]
  split
  · rename_i name' rest' word'
    cases word.symm.trans word'
    rfl
  · simp_all

theorem yields_number {value : Float} (none : name? input = none)
    (scanned : Decimal.scan input = .number value rest) :
    Yields (atom input) (.constant value) rest := by
  refine ⟨Decimal.scan_shortens scanned, ?_⟩
  rw [atom]
  split
  · simp_all
  · split
    · rename_i scanned'
      cases scanned.symm.trans scanned'
      rfl
    · simp_all
    · simp_all

theorem yields_bracket (inner : Yields (expression (skipSpace rest)) f next)
    (close : skipSpace next = ')' :: last) : Yields (atom ('(' :: rest)) f last := by
  obtain ⟨h, inner⟩ := inner
  have inside : next.length < (skipSpace rest).length := h
  have name : name? ('(' :: rest) = none := by simp [name?, startsName, Char.isAlpha, Char.isUpper, Char.isLower]
  have number : Decimal.scan ('(' :: rest) = .absent := by
    simp [Decimal.scan, splitSign, splitDigits, splitFraction, Char.isDigit]
  have shorter := skipSpace_length rest
  have shorter' := skipSpace_length next
  rw [close] at shorter'
  refine ⟨by simp only [List.length_cons] at *; omega, ?_⟩
  rw [atom]
  split
  · simp_all
  · split
    · simp_all
    · simp_all
    · split
      · rename_i opened
        cases opened
        rw [inner]
        simp only
        split
        · rename_i last' close'
          cases close.symm.trans close'
          rfl
        · simp_all
      · simp_all [opened?]

end

/-- What the readers make of the text of a formula, in every place that it can have. -/
structure Reads (f : Formula) : Prop where
  factor : ∀ {parent onRight rest}, f.strength parent onRight = 3 → Separated rest →
    Yields (factor (f.write parent onRight rest)) f rest
  term : ∀ {parent onRight rest whole last}, 2 ≤ f.strength parent onRight → Separated rest →
    Yields (products f rest) whole last → Yields (term (f.write parent onRight rest)) whole last
  expression : ∀ {parent onRight rest whole last}, Separated rest →
    productOp? (skipSpace rest) = none → Yields (sums f rest) whole last →
    Yields (expression (f.write parent onRight rest)) whole last

theorem reads_of_factor {f : Formula} (tight : ∀ parent onRight rest, Separated rest →
    Yields (factor (f.write parent onRight rest)) f rest) : Reads f where
  factor := fun _ separated => tight _ _ _ separated
  term := fun _ separated chain => yields_term (tight _ _ _ separated) chain
  expression := fun separated stop chain =>
    yields_expression (yields_term (tight _ _ _ separated) (yields_products_stop stop)) chain

theorem name_append {name : String} {rest : List Char} (word : IsName name)
    (stop : ∀ c ∈ rest.head?, continuesName c = false) :
    name? (name.toList ++ rest) = some (name, rest) := by
  obtain ⟨c, tail, shape, first, later⟩ := word
  have ended : rest.takeWhile continuesName = [] ∧ rest.dropWhile continuesName = rest := by
    cases rest with
    | nil => exact ⟨rfl, rfl⟩
    | cons d rest =>
      have other : continuesName d = false := stop d rfl
      simp [other]
  rw [shape, List.cons_append, name?, if_pos first, List.takeWhile_append_of_pos later,
    List.dropWhile_append_of_pos later, ended.1, ended.2, List.append_nil, ← shape, String.ofList_toList]

theorem reads_constant {value : Float} (finite : value.isFinite = true)
    (unmarked : Double.Unmarked (Double.number value)) : Reads (.constant value) := by
  apply reads_of_factor
  intro parent onRight rest separated
  have scanned := scan_text finite separated
  obtain ⟨c, tail, shape, digit⟩ := text_head finite unmarked
  rw [write]
  rw [shape, List.cons_append] at scanned ⊢
  have none : name? (c :: (tail ++ rest)) = none := by
    simp [name?, Text.startsName_of_isDigit digit]
  rw [factor_atom]
  · exact yields_number none scanned
  · rintro minus
    cases minus
    exact absurd digit (by decide)

theorem reads_parameter {name : String} (word : IsName name) : Reads (.parameter name) := by
  apply reads_of_factor
  intro parent onRight rest separated
  have stop : ∀ c ∈ rest.head?, continuesName c = false := by
    intro c first
    rcases separated c first with rfl | rfl | rfl | rfl <;> decide
  have found := name_append word stop
  rw [write, factor_atom]
  · exact yields_name found
  · obtain ⟨c, tail, shape, first, -⟩ := word
    rw [shape]
    rintro minus
    cases minus
    exact absurd first (by decide)

/-- The first character of a formula leaves a mark. -/
theorem write_head {f : Formula} (readable : f.Readable) (parent : Nat) (onRight : Bool) (rest : List Char) :
    ∃ c tail, f.write parent onRight rest = c :: tail ∧ Text.Inked c := by
  induction f generalizing parent onRight rest with
  | constant value =>
    obtain ⟨c, tail, shape, digit⟩ := text_head readable.1 readable.2
    have range := Text.isDigit_toNat digit
    refine ⟨c, tail ++ rest, ?_, Text.inked_of_toNat (by omega) (by omega)⟩
    rw [write, shape, List.cons_append]
  | parameter name =>
    obtain ⟨c, tail, shape, first, -⟩ := readable
    have range := Text.startsName_toNat first
    refine ⟨c, tail ++ rest, ?_, Text.inked_of_toNat (by omega) (by omega)⟩
    rw [write, shape, List.cons_append]
  | negate inner ih => exact ⟨'-', _, rfl, Text.inked_of_toNat (by decide) (by decide)⟩
  | binary op left right ihLeft ihRight =>
    rw [write]
    simp only
    split
    · exact ⟨'(', _, rfl, Text.inked_of_toNat (by decide) (by decide)⟩
    · exact ihLeft readable.1 _ _ _

/-- The text of a formula of two operands, without brackets around it. -/
def writeOperands (op : BinaryOp) (left right : Formula) (rest : List Char) : List Char :=
  left.write op.precedence false (' ' :: op.symbol :: ' ' :: right.write op.precedence true rest)

theorem write_binary (op : BinaryOp) (left right : Formula) (parent : Nat) (onRight : Bool)
    (rest : List Char) : (binary op left right).write parent onRight rest =
      if needsBrackets op.precedence parent onRight then '(' :: writeOperands op left right (')' :: rest)
      else writeOperands op left right rest := rfl

theorem inked_text {value : Float} (finite : value.isFinite = true) :
    ∀ c ∈ (Decimal.text value).toList, Text.Inked c := by
  intro c inside
  rcases text_chars finite c inside with digit | rfl | rfl
  · have range := Text.isDigit_toNat digit
    exact Text.inked_of_toNat (by omega) (by omega)
  · exact Text.inked_of_toNat (by decide) (by decide)
  · exact Text.inked_of_toNat (by decide) (by decide)

theorem inked_name {name : String} (word : IsName name) : ∀ c ∈ name.toList, Text.Inked c := by
  obtain ⟨c, tail, shape, first, later⟩ := word
  rw [shape]
  intro d inside
  rcases List.mem_cons.mp inside with rfl | tail
  · have range := Text.startsName_toNat first
    exact Text.inked_of_toNat (by omega) (by omega)
  · have range := Text.continuesName_toNat (later d tail)
    exact Text.inked_of_toNat (by omega) (by omega)

/-- A text of marks and spaces whose last character is a mark, before `rest`. -/
def EndsInked (text rest : List Char) : Prop :=
  ∃ front c, text = front ++ c :: rest ∧ Text.Inked c ∧ ∀ d ∈ front, Text.Inked d ∨ d = ' '

theorem endsInked_of_inked {word : List Char} (some : word ≠ []) (inked : ∀ c ∈ word, Text.Inked c)
    (rest : List Char) : EndsInked (word ++ rest) rest := by
  refine ⟨word.dropLast, word.getLast some, ?_, inked _ (List.getLast_mem some), ?_⟩
  · rw [List.append_cons, List.dropLast_append_getLast some]
  · intro d inside
    exact .inl (inked d (List.dropLast_subset word inside))

theorem EndsInked.append {text middle rest : List Char} {c : Char} (first : EndsInked text (c :: middle))
    (mark : Text.Inked c ∨ c = ' ') (second : EndsInked middle rest) : EndsInked text rest := by
  obtain ⟨front, d, rfl, inked, all⟩ := first
  obtain ⟨front', e, rfl, inked', all'⟩ := second
  refine ⟨front ++ d :: c :: front', e, by simp, inked', ?_⟩
  intro x inside
  simp only [List.mem_append, List.mem_cons] at inside
  rcases inside with before | rfl | rfl | after
  · exact all x before
  · exact .inl inked
  · exact mark
  · exact all' x after

theorem EndsInked.cons {text rest : List Char} {c : Char} (mark : Text.Inked c ∨ c = ' ')
    (ends : EndsInked text rest) : EndsInked (c :: text) rest := by
  obtain ⟨front, d, rfl, inked, all⟩ := ends
  exact ⟨c :: front, d, rfl, inked, List.forall_mem_cons.mpr ⟨mark, all⟩⟩

theorem endsInked_write {f : Formula} (readable : f.Readable) (parent : Nat) (onRight : Bool)
    (rest : List Char) : EndsInked (f.write parent onRight rest) rest := by
  induction f generalizing parent onRight rest with
  | constant value =>
    apply endsInked_of_inked _ (inked_text readable.1)
    obtain ⟨c, tail, shape, -⟩ := text_head readable.1 readable.2
    rw [shape]
    exact List.cons_ne_nil c tail
  | parameter name =>
    apply endsInked_of_inked _ (inked_name readable)
    obtain ⟨c, tail, shape, -⟩ := readable
    rw [shape]
    exact List.cons_ne_nil c tail
  | negate inner ih => exact (ih readable 3 false rest).cons (.inl (Text.inked_of_toNat (by decide) (by decide)))
  | binary op left right ihLeft ihRight =>
    have symbol : Text.Inked op.symbol := by
      cases op <;> exact Text.inked_of_toNat (by decide) (by decide)
    have operands (rest : List Char) : EndsInked (writeOperands op left right rest) rest := by
      have second := (ihRight readable.2 op.precedence true rest).cons (.inr rfl)
      exact (ihLeft readable.1 op.precedence false _).append (.inr rfl) (second.cons (.inl symbol))
    have bracket : Text.Inked '(' ∧ Text.Inked ')' :=
      ⟨Text.inked_of_toNat (by decide) (by decide), Text.inked_of_toNat (by decide) (by decide)⟩
    rw [write_binary]
    split
    · obtain ⟨front, c, shape, inked, all⟩ := (operands (')' :: rest)).cons (.inl bracket.1)
      refine ⟨front ++ [c], ')', by rw [shape]; simp, bracket.2, ?_⟩
      exact List.forall_mem_append.mpr ⟨all, by simpa using Or.inl inked⟩
    · exact operands rest

theorem skipSpace_write {f : Formula} (readable : f.Readable) (parent : Nat) (onRight : Bool)
    (rest : List Char) : skipSpace (f.write parent onRight rest) = f.write parent onRight rest := by
  obtain ⟨c, tail, shape, inked⟩ := write_head readable parent onRight rest
  rw [shape, skipSpace, List.dropWhile_cons_of_neg]
  rw [Text.isSpace_of_isBlank inked.blank]
  exact Bool.false_ne_true

theorem reads_negate {inner : Formula} (readable : inner.Readable) (reads : Reads inner) :
    Reads (.negate inner) := by
  apply reads_of_factor
  intro parent onRight rest separated
  apply yields_minus
  rw [skipSpace_write readable]
  exact reads.factor (strength_three inner false) separated

section

variable {op : BinaryOp} {left right whole : Formula} {rest last : List Char}

theorem term_operands (first : Reads left) (second : Reads right) (readable : right.Readable)
    (product : op.precedence = 2) (separated : Separated rest)
    (chain : Yields (products (.binary op left right) rest) whole last) :
    Yields (term (writeOperands op left right rest)) whole last := by
  have symbol : productOp? (skipSpace (' ' :: op.symbol :: ' ' :: right.write 2 true rest)) =
      some (op, ' ' :: right.write 2 true rest) := by
    cases op with
    | add => cases product
    | sub => cases product
    | mul => rfl
    | div => rfl
  have skipped : skipSpace (' ' :: right.write 2 true rest) = right.write 2 true rest :=
    skipSpace_write readable 2 true rest
  rw [writeOperands, product]
  apply first.term (strength_two_left left) (separated_cons (.inl rfl) _)
  apply yields_products symbol _ chain
  rw [skipped]
  exact second.factor (strength_two_right right) separated

theorem expression_operands (first : Reads left) (second : Reads right) (readable : right.Readable)
    (separated : Separated rest) (stop : productOp? (skipSpace rest) = none)
    (chain : Yields (sums (.binary op left right) rest) whole last) :
    Yields (expression (writeOperands op left right rest)) whole last := by
  by_cases product : op.precedence = 2
  · exact yields_expression
      (term_operands first second readable product separated (yields_products_stop stop)) chain
  · have symbol : productOp? (skipSpace (' ' :: op.symbol :: ' ' :: right.write 1 true rest)) = none ∧
        sumOp? (skipSpace (' ' :: op.symbol :: ' ' :: right.write 1 true rest)) =
          some (op, ' ' :: right.write 1 true rest) := by
      cases op with
      | add => exact ⟨rfl, rfl⟩
      | sub => exact ⟨rfl, rfl⟩
      | mul => exact absurd rfl product
      | div => exact absurd rfl product
    have sum : op.precedence = 1 := by
      cases op with
      | add => rfl
      | sub => rfl
      | mul => exact absurd rfl product
      | div => exact absurd rfl product
    have skipped : skipSpace (' ' :: right.write 1 true rest) = right.write 1 true rest :=
      skipSpace_write readable 1 true rest
    rw [writeOperands, sum]
    apply first.expression (separated_cons (.inl rfl) _) symbol.1
    apply yields_sums symbol.2 _ chain
    rw [skipped]
    exact second.term (strength_one_right right) separated (yields_products_stop stop)

theorem factor_brackets (first : Reads left) (second : Reads right)
    (readable : (binary op left right).Readable) :
    Yields (factor ('(' :: writeOperands op left right (')' :: rest))) (.binary op left right) rest := by
  have skipped : skipSpace (writeOperands op left right (')' :: rest)) =
      writeOperands op left right (')' :: rest) := skipSpace_write readable.1 _ _ _
  have inside : Yields (expression (writeOperands op left right (')' :: rest))) (.binary op left right)
      (')' :: rest) :=
    expression_operands first second readable.2 (separated_cons (.inr (.inl rfl)) rest) rfl
      (yields_sums_stop rfl)
  rw [← skipped] at inside
  rw [factor_atom (by simp)]
  exact yields_bracket inside rfl

theorem reads_binary (first : Reads left) (second : Reads right)
    (readable : (binary op left right).Readable) : Reads (.binary op left right) where
  factor := by
    intro parent onRight rest tight separated
    have brackets : needsBrackets op.precedence parent onRight = true := by
      by_contra none
      rw [strength, if_neg none] at tight
      cases op <;> cases tight
    rw [write_binary, if_pos brackets]
    exact factor_brackets first second readable
  term := by
    intro parent onRight rest whole last level separated chain
    by_cases brackets : needsBrackets op.precedence parent onRight = true
    · rw [write_binary, if_pos brackets]
      exact yields_term (factor_brackets first second readable) chain
    · rw [strength, if_neg brackets] at level
      rw [write_binary, if_neg brackets]
      have product : op.precedence = 2 := by
        cases op <;> first | rfl | exact absurd level (by decide)
      exact term_operands first second readable.2 product separated chain
  expression := by
    intro parent onRight rest whole last separated stop chain
    by_cases brackets : needsBrackets op.precedence parent onRight = true
    · rw [write_binary, if_pos brackets]
      exact yields_expression
        (yields_term (factor_brackets first second readable) (yields_products_stop stop)) chain
    · rw [write_binary, if_neg brackets]
      exact expression_operands first second readable.2 separated stop chain

end

theorem reads {f : Formula} (readable : f.Readable) : Reads f := by
  induction f with
  | constant value => exact reads_constant readable.1 readable.2
  | parameter name => exact reads_parameter readable
  | negate inner ih => exact reads_negate readable (ih readable)
  | binary op left right ihLeft ihRight => exact reads_binary (ihLeft readable.1) (ihRight readable.2) readable

theorem parse_of_yields {text : String} {f : Formula}
    (read : Yields (expression (skipSpace text.toList)) f []) : parse text = .ok f := by
  obtain ⟨h, read⟩ := read
  unfold parse
  rw [read]
  rfl

/-- The text of a formula reads as this formula. -/
theorem parse_text {f : Formula} (readable : f.Readable) : parse f.text = .ok f := by
  apply parse_of_yields
  rw [text, String.toList_ofList, skipSpace_write readable]
  exact (reads readable).expression separated_nil rfl (yields_sums_stop rfl)

end StochasticGrammar.Formula
