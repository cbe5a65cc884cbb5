import StochasticGrammar.Proofs.Double.Order
import StochasticGrammar.Proofs.Formula.Expressions

/-!
What a reader takes in is derived by the grammar, so that reading and deriving come to the same. Every
derivation has another one of the same text in which minus signs are operators, and this is the one
that the reader finds.
-/

namespace StochasticGrammar.Formula

open Decimal

section

variable {f g whole : Formula} {op : BinaryOp} {input rest next last : List Char}

theorem expression_cases (read : Yields (expression input) whole last) :
    ∃ f rest, Yields (term input) f rest ∧ Yields (sums f rest) whole last := by
  rcases read with ⟨less, read⟩
  rw [expression] at read
  split at read
  · cases read
  · rename_i f rest less' first
    simp only at read
    split at read
    · cases read
    · rename_i whole' last' less'' chain
      cases read
      exact ⟨f, rest, ⟨less', first⟩, ⟨less'', chain⟩⟩

theorem term_cases (read : Yields (term input) whole last) :
    ∃ f rest, Yields (factor input) f rest ∧ Yields (products f rest) whole last := by
  rcases read with ⟨less, read⟩
  rw [term] at read
  split at read
  · cases read
  · rename_i f rest less' first
    simp only at read
    split at read
    · cases read
    · rename_i whole' last' less'' chain
      cases read
      exact ⟨f, rest, ⟨less', first⟩, ⟨less'', chain⟩⟩

/-- A chain ends, or it goes on with an operator and an operand. -/
theorem sums_cases (read : Yields (sums f input) whole last) :
    whole = f ∧ last = input ∨
      ∃ op rest g next, sumOp? (skipSpace input) = some (op, rest) ∧
        Yields (term (skipSpace rest)) g next ∧ Yields (sums (.binary op f g) next) whole last := by
  rcases read with ⟨less, read⟩
  rw [sums] at read
  split at read
  · cases read
    exact .inl ⟨rfl, rfl⟩
  · rename_i op rest symbol
    simp only at read
    split at read
    · split at read
      · cases read
      · cases read
        exact .inl ⟨rfl, rfl⟩
    · rename_i g next less' second
      split at read
      · cases read
      · rename_i whole' last' less'' chain
        cases read
        exact .inr ⟨op, rest, g, next, symbol, ⟨less', second⟩, ⟨less'', chain⟩⟩

theorem products_cases (read : Yields (products f input) whole last) :
    whole = f ∧ last = input ∨
      ∃ op rest g next, productOp? (skipSpace input) = some (op, rest) ∧
        Yields (factor (skipSpace rest)) g next ∧ Yields (products (.binary op f g) next) whole last := by
  rcases read with ⟨less, read⟩
  rw [products] at read
  split at read
  · cases read
    exact .inl ⟨rfl, rfl⟩
  · rename_i op rest symbol
    simp only at read
    split at read
    · split at read
      · cases read
      · cases read
        exact .inl ⟨rfl, rfl⟩
    · rename_i g next less' second
      split at read
      · cases read
      · rename_i whole' last' less'' chain
        cases read
        exact .inr ⟨op, rest, g, next, symbol, ⟨less', second⟩, ⟨less'', chain⟩⟩

theorem factor_cases (read : Yields (factor input) f last) :
    (∃ rest g, input = '-' :: rest ∧ f = .negate g ∧ Yields (factor (skipSpace rest)) g last) ∨
      input.head? ≠ some '-' ∧ Yields (atom input) f last := by
  by_cases minus : input.head? = some '-'
  · rcases List.head?_eq_some_iff.mp minus with ⟨rest, rfl⟩
    rcases read with ⟨less, read⟩
    rw [factor] at read
    split at read
    · split at read <;> cases read
    · rename_i g last' less' inner
      cases read
      exact .inl ⟨rest, g, rfl, rfl, ⟨less', inner⟩⟩
  · rw [factor_atom minus] at read
    exact .inr ⟨minus, read⟩

theorem atom_cases (read : Yields (atom input) f last) :
    (∃ name, f = .parameter name ∧ name? input = some (name, last)) ∨
      (∃ value, f = .constant value ∧ Decimal.scan input = .number value last) ∨
      ∃ rest next, opened? input = some rest ∧ Yields (expression (skipSpace rest)) f next ∧
        skipSpace next = ')' :: last := by
  rcases read with ⟨less, read⟩
  rw [atom] at read
  split at read
  · rename_i name rest word
    cases read
    exact .inl ⟨name, rfl, word⟩
  · split at read
    · rename_i value rest scanned
      cases read
      exact .inr (.inl ⟨value, rfl, scanned⟩)
    · cases read
    · split at read
      · rename_i rest opened
        split at read
        · cases read
        · rename_i f' next less' inner
          simp only at read
          split at read
          · rename_i last' close
            cases read
            exact .inr (.inr ⟨rest, next, opened, ⟨less', inner⟩, close⟩)
          · cases read
      · cases read

end

theorem split_name {input rest : List Char} {name : String} (word : name? input = some (name, rest)) :
    input = name.toList ++ rest := by
  unfold name? at word
  split at word
  · rename_i c tail
    split at word
    · cases word
      rw [String.toList_ofList, List.cons_append, List.takeWhile_append_dropWhile]
    · cases word
  · cases word

theorem split_space (input : List Char) : ∃ gap, Gap gap ∧ input = gap ++ skipSpace input :=
  ⟨input.takeWhile isSpace, fun _ inside => List.mem_takeWhile_imp inside,
    List.takeWhile_append_dropWhile.symm⟩

theorem split_productOp {input rest : List Char} {op : BinaryOp} (symbol : productOp? input = some (op, rest)) :
    (op = .mul ∨ op = .div) ∧ input = op.symbol :: rest := by
  unfold productOp? at symbol
  split at symbol
  · cases symbol
    exact ⟨.inl rfl, rfl⟩
  · cases symbol
    exact ⟨.inr rfl, rfl⟩
  · cases symbol

theorem split_sumOp {input rest : List Char} {op : BinaryOp} (symbol : sumOp? input = some (op, rest)) :
    (op = .add ∨ op = .sub) ∧ input = op.symbol :: rest := by
  unfold sumOp? at symbol
  split at symbol
  · cases symbol
    exact ⟨.inl rfl, rfl⟩
  · cases symbol
    exact ⟨.inr rfl, rfl⟩
  · cases symbol

theorem split_opened {input rest : List Char} (opened : opened? input = some rest) : input = '(' :: rest := by
  unfold opened? at opened
  split at opened
  · cases opened
    rfl
  · cases opened

/-- After a text, more of the input makes it a text of the category without signs in numbers. -/
def Extends (category : Category) (text input : List Char) (f : Formula) (rest : List Char) : Prop :=
  ∃ more, input = more ++ rest ∧ Denotes category (text ++ more) f ∧ f.Unsigned

/-- The input begins with a text of the category without signs in numbers. -/
abbrev Begins (category : Category) (input : List Char) (f : Formula) (rest : List Char) : Prop :=
  Extends category [] input f rest

section

variable {input text rest last : List Char} {f whole : Formula}

theorem atom_begins (read : Yields (atom input) f last) (other : input.head? ≠ some '-')
    (shorter : ∀ {middle f rest}, middle.length < input.length → Yields (expression middle) f rest →
      Begins .expression middle f rest) : Begins .atom input f last := by
  rcases atom_cases read with ⟨name, rfl, word⟩ | ⟨value, rfl, scanned⟩ | ⟨rest, next, opened, inner, close⟩
  · exact ⟨name.toList, split_name word, .name (isName_of_name word), fun _ inside => nomatch inside⟩
  · rcases numeral_of_scan scanned with ⟨text, numeral, shape⟩
    refine ⟨text, shape, .number numeral, ?_⟩
    intro value' inside
    rw [List.mem_singleton.mp inside]
    exact unmarked_scan scanned other
  · have less := Nat.lt_of_le_of_lt (skipSpace_length rest) (opened_shortens opened)
    rcases shorter less inner with ⟨text, shape, denotes, unsigned⟩
    rcases split_space rest with ⟨gap, blank, before⟩
    rcases split_space next with ⟨gap', blank', after⟩
    refine ⟨'(' :: (gap ++ (text ++ (gap' ++ [')']))), ?_, .bracket blank denotes blank', unsigned⟩
    calc input
        = '(' :: rest := split_opened opened
      _ = '(' :: (gap ++ (text ++ next)) := by rw [← shape, ← before]
      _ = '(' :: (gap ++ (text ++ (gap' ++ ')' :: last))) := by rw [← close, ← after]
      _ = '(' :: (gap ++ (text ++ (gap' ++ [')']))) ++ last := by simp

theorem factor_begins (read : Yields (factor input) f last)
    (shorter : ∀ {middle f rest}, middle.length < input.length → Yields (factor middle) f rest →
      Begins .factor middle f rest)
    (shorter' : ∀ {middle f rest}, middle.length < input.length → Yields (expression middle) f rest →
      Begins .expression middle f rest) : Begins .factor input f last := by
  rcases factor_cases read with ⟨rest, g, rfl, rfl, inner⟩ | ⟨other, read⟩
  · rcases shorter (Nat.lt_succ_of_le (skipSpace_length rest)) inner with ⟨text, shape, denotes, unsigned⟩
    rcases split_space rest with ⟨gap, blank, before⟩
    refine ⟨'-' :: (gap ++ text), ?_, .minus blank denotes, unsigned⟩
    calc '-' :: rest
        = '-' :: (gap ++ (text ++ last)) := by rw [← shape, ← before]
      _ = '-' :: (gap ++ text) ++ last := by simp
  · rcases atom_begins read other shorter' with ⟨text, shape, denotes, unsigned⟩
    exact ⟨text, shape, .atom denotes, unsigned⟩

/-- One more operand of a chain, with the gaps around its operator. -/
theorem split_operand {op : BinaryOp} {middle next text' : List Char}
    (symbol : skipSpace input = op.symbol :: middle) (operand : skipSpace middle = text' ++ next) :
    ∃ before after, Gap before ∧ Gap after ∧ input = before ++ op.symbol :: (after ++ text') ++ next := by
  rcases split_space input with ⟨before, blank, shape⟩
  rcases split_space middle with ⟨after, blank', shape'⟩
  refine ⟨before, after, blank, blank', ?_⟩
  calc input
      = before ++ op.symbol :: middle := by rw [← symbol, ← shape]
    _ = before ++ op.symbol :: (after ++ (text' ++ next)) := by rw [← operand, ← shape']
    _ = before ++ op.symbol :: (after ++ text') ++ next := by simp

theorem products_extend (denotes : Denotes .term text f) (unsigned : f.Unsigned)
    (read : Yields (products f input) whole last)
    (shorter : ∀ {middle f rest}, middle.length < input.length → Yields (factor middle) f rest →
      Begins .factor middle f rest) : Extends .term text input whole last := by
  obtain ⟨n, size⟩ : ∃ n, input.length = n := ⟨_, rfl⟩
  induction n using Nat.strong_induction_on generalizing f input text with
  | _ n ih =>
    rcases products_cases read with ⟨rfl, rfl⟩ | ⟨op, rest, g, next, symbol, second, chain⟩
    · exact ⟨[], rfl, by rwa [List.append_nil], unsigned⟩
    · have less := Nat.lt_of_le_of_lt (skipSpace_length rest)
        (Nat.lt_of_lt_of_le (productOp_shortens symbol) (skipSpace_length input))
      have less' : next.length < (skipSpace rest).length := second.1
      rcases shorter less second with ⟨text', shape, denotes', unsigned'⟩
      rcases split_productOp symbol with ⟨kind, symbol⟩
      rcases split_operand symbol shape with ⟨before, after, blank, blank', shape'⟩
      have product := Denotes.product denotes kind blank blank' denotes'
      have both : (binary op f g).Unsigned := List.forall_mem_append.mpr ⟨unsigned, unsigned'⟩
      rcases ih next.length (by omega) product both chain (fun less' => shorter (by omega)) rfl with
        ⟨more, shape'', whole, unsigned''⟩
      refine ⟨before ++ op.symbol :: (after ++ text') ++ more, ?_, ?_, unsigned''⟩
      · rw [shape', shape'', List.append_assoc _ more]
      · rw [← List.append_assoc]
        exact whole

theorem term_begins (read : Yields (term input) whole last)
    (factors : ∀ {middle f rest}, middle.length ≤ input.length → Yields (factor middle) f rest →
      Begins .factor middle f rest) : Begins .term input whole last := by
  rcases term_cases read with ⟨f, rest, first, chain⟩
  have less : rest.length < input.length := first.1
  rcases factors (Nat.le_refl _) first with ⟨text, shape, denotes, unsigned⟩
  rcases products_extend (.factor denotes) unsigned chain (fun less' => factors (by omega)) with
    ⟨more, shape', denotes', unsigned'⟩
  exact ⟨text ++ more, by rw [List.append_assoc, ← shape', ← shape], denotes', unsigned'⟩

theorem sums_extend (denotes : Denotes .expression text f) (unsigned : f.Unsigned)
    (read : Yields (sums f input) whole last)
    (shorter : ∀ {middle f rest}, middle.length < input.length → Yields (term middle) f rest →
      Begins .term middle f rest) : Extends .expression text input whole last := by
  obtain ⟨n, size⟩ : ∃ n, input.length = n := ⟨_, rfl⟩
  induction n using Nat.strong_induction_on generalizing f input text with
  | _ n ih =>
    rcases sums_cases read with ⟨rfl, rfl⟩ | ⟨op, rest, g, next, symbol, second, chain⟩
    · exact ⟨[], rfl, by rwa [List.append_nil], unsigned⟩
    · have less := Nat.lt_of_le_of_lt (skipSpace_length rest)
        (Nat.lt_of_lt_of_le (sumOp_shortens symbol) (skipSpace_length input))
      have less' : next.length < (skipSpace rest).length := second.1
      rcases shorter less second with ⟨text', shape, denotes', unsigned'⟩
      rcases split_sumOp symbol with ⟨kind, symbol⟩
      rcases split_operand symbol shape with ⟨before, after, blank, blank', shape'⟩
      have sum := Denotes.sum denotes kind blank blank' denotes'
      have both : (binary op f g).Unsigned := List.forall_mem_append.mpr ⟨unsigned, unsigned'⟩
      rcases ih next.length (by omega) sum both chain (fun less' => shorter (by omega)) rfl with
        ⟨more, shape'', whole, unsigned''⟩
      refine ⟨before ++ op.symbol :: (after ++ text') ++ more, ?_, ?_, unsigned''⟩
      · rw [shape', shape'', List.append_assoc _ more]
      · rw [← List.append_assoc]
        exact whole

theorem expression_begins (read : Yields (expression input) whole last)
    (terms : ∀ {middle f rest}, middle.length ≤ input.length → Yields (term middle) f rest →
      Begins .term middle f rest) : Begins .expression input whole last := by
  rcases expression_cases read with ⟨f, rest, first, chain⟩
  have less : rest.length < input.length := first.1
  rcases terms (Nat.le_refl _) first with ⟨text, shape, denotes, unsigned⟩
  rcases sums_extend (.term denotes) unsigned chain (fun less' => terms (by omega)) with
    ⟨more, shape', denotes', unsigned'⟩
  exact ⟨text ++ more, by rw [List.append_assoc, ← shape', ← shape], denotes', unsigned'⟩

/-- By induction on the length of the input: brackets and minus signs lead back to shorter inputs. -/
theorem begins_of_read (n : Nat) :
    (∀ {input f rest}, input.length ≤ n → Yields (factor input) f rest → Begins .factor input f rest) ∧
      ∀ {input f rest}, input.length ≤ n → Yields (expression input) f rest →
        Begins .expression input f rest := by
  induction n with
  | zero =>
    constructor
    · intro input f rest none read
      have less : rest.length < input.length := read.1
      omega
    · intro input f rest none read
      have less : rest.length < input.length := read.1
      omega
  | succ n ih =>
    have factors {input : List Char} {f : Formula} {rest : List Char} (size : input.length ≤ n + 1)
        (read : Yields (factor input) f rest) : Begins .factor input f rest :=
      factor_begins read (fun less => ih.1 (by omega)) (fun less => ih.2 (by omega))
    refine ⟨factors, ?_⟩
    intro input f rest size read
    exact expression_begins read fun less read' =>
      term_begins read' fun less' => factors (by omega)

end

/-- A minus sign before a number is read as an operator. -/
theorem Denotes.unsigned {category : Category} {text : List Char} {f : Formula}
    (denotes : Denotes category text f) :
    ∃ g, Denotes (if category = .atom then .factor else category) text g ∧ g.Unsigned := by
  induction denotes with
  | term inner ih =>
    rcases ih with ⟨g, denotes, unsigned⟩
    exact ⟨g, .term denotes, unsigned⟩
  | sum left kind gap gap' right ihLeft ihRight =>
    rcases ihLeft with ⟨f', denotes, unsigned⟩
    rcases ihRight with ⟨g', denotes', unsigned'⟩
    exact ⟨_, .sum denotes kind gap gap' denotes', List.forall_mem_append.mpr ⟨unsigned, unsigned'⟩⟩
  | factor inner ih =>
    rcases ih with ⟨g, denotes, unsigned⟩
    exact ⟨g, .factor denotes, unsigned⟩
  | product left kind gap gap' right ihLeft ihRight =>
    rcases ihLeft with ⟨f', denotes, unsigned⟩
    rcases ihRight with ⟨g', denotes', unsigned'⟩
    exact ⟨_, .product denotes kind gap gap' denotes', List.forall_mem_append.mpr ⟨unsigned, unsigned'⟩⟩
  | minus gap inner ih =>
    rcases ih with ⟨g, denotes, unsigned⟩
    exact ⟨.negate g, .minus gap denotes, unsigned⟩
  | atom inner ih => exact ih
  | name word => exact ⟨_, .atom (.name word), fun _ inside => nomatch inside⟩
  | number numeral =>
    rcases numeral.unsigned with ⟨value, unmarked, same | ⟨rest, rfl, numeral'⟩⟩
    · exact ⟨.constant value, .atom (.number same), by simpa [Unsigned, constants] using unmarked⟩
    · have gap : Gap [] := fun _ inside => nomatch inside
      have minus := Denotes.minus gap (.atom (.number numeral'))
      exact ⟨_, minus, by simpa [Unsigned, constants] using unmarked⟩
  | bracket gap inner gap' ih =>
    rcases ih with ⟨g, denotes, unsigned⟩
    exact ⟨g, .atom (.bracket gap denotes gap'), unsigned⟩

theorem parse_eq_ok {text : String} {f : Formula} (read : parse text = .ok f) :
    ∃ rest, Yields (expression (skipSpace text.toList)) f rest ∧ skipSpace rest = [] := by
  unfold parse at read
  split at read
  · cases read
  · rename_i whole rest less inside
    split at read
    · rename_i blank
      cases read
      exact ⟨rest, ⟨less, inside⟩, blank⟩
    · cases read

theorem denotes_of_parse {text : String} {f : Formula} (read : parse text = .ok f) :
    DenotesWhole text f ∧ f.Unsigned := by
  rcases parse_eq_ok read with ⟨rest, read, blank⟩
  rcases (begins_of_read _).2 (Nat.le_refl _) read with ⟨inner, shape, denotes, unsigned⟩
  rcases split_space text.toList with ⟨before, gap, shape'⟩
  rcases split_space rest with ⟨after, gap', shape''⟩
  rw [blank, List.append_nil] at shape''
  exact ⟨⟨before, inner, after, gap, gap', by rw [← shape'', ← shape, ← shape'], denotes⟩, unsigned⟩

theorem Denotes.spelled {category : Category} {text : List Char} {f : Formula}
    (denotes : Denotes category text f) (unsigned : f.Unsigned) : f.Spelled := by
  induction denotes with
  | name word => exact word
  | number numeral => exact unsigned _ List.mem_cons_self
  | sum left kind gap gap' right ihLeft ihRight | product left kind gap gap' right ihLeft ihRight =>
    have both := List.forall_mem_append.mp unsigned
    exact ⟨ihLeft both.1, ihRight both.2⟩
  | minus gap inner ih => exact ih unsigned
  | term inner ih | factor inner ih | atom inner ih => exact ih unsigned
  | bracket gap inner gap' ih => exact ih unsigned

/-- A formula that is read is read again from its own text, when none of its numbers is infinite. -/
theorem readable_of_parse {text : String} {f : Formula} (read : parse text = .ok f)
    (bounded : ∀ value ∈ f.constants, value.isInf = false) : f.Readable := by
  rcases denotes_of_parse read with ⟨⟨before, inner, after, -, -, -, denotes⟩, unsigned⟩
  exact (denotes.spelled unsigned).readable bounded

theorem parse_of_denotes {text : String} {f : Formula} (denotes : DenotesWhole text f)
    (unsigned : f.Unsigned) : parse text = .ok f := by
  rcases denotes with ⟨before, inner, after, gap, gap', shape, denotes⟩
  have blank : skipSpace after = [] := by
    have skipped : skipSpace (after ++ []) = [] := skipSpace_gap gap' fun c first => nomatch first
    rwa [List.append_nil] at skipped
  have follows : Follows after := by
    have ended := follows_gap gap' follows_nil
    rwa [List.append_nil] at ended
  have read : Yields (expression (inner ++ after)) f after := by
    apply denotes.reads unsigned follows
    · rw [blank]
      rfl
    · apply yields_sums_stop
      rw [blank]
      rfl
  rw [← denotes.skipSpace gap, ← shape] at read
  rcases read with ⟨less, read⟩
  unfold parse
  rw [read]
  simp only [blank]

/-- A text is read just when the grammar derives it, and as the formula that it stands for when minus
signs are operators, so that no number has a sign. -/
theorem parse_iff_denotes (text : String) :
    ((∃ f, parse text = .ok f) ↔ ∃ f, DenotesWhole text f) ∧
      (∀ f, parse text = .ok f ↔ DenotesWhole text f ∧ f.Unsigned) ∧
      ∀ f, parse text = .ok f → ∀ value ∈ f.constants, 0.0 ≤ value := by
  have exact_tree (f : Formula) : parse text = .ok f ↔ DenotesWhole text f ∧ f.Unsigned :=
    ⟨denotes_of_parse, fun whole => parse_of_denotes whole.1 whole.2⟩
  refine ⟨⟨?_, ?_⟩, exact_tree, ?_⟩
  · rintro ⟨f, read⟩
    exact ⟨f, (denotes_of_parse read).1⟩
  · rintro ⟨f, before, inner, after, gap, gap', shape, denotes⟩
    rcases denotes.unsigned with ⟨g, denotes', unsigned⟩
    exact ⟨g, parse_of_denotes ⟨before, inner, after, gap, gap', shape, denotes'⟩ unsigned⟩
  · intro f read value inside
    exact Double.zero_le_of_unmarked ((denotes_of_parse read).2 value inside)

end StochasticGrammar.Formula
