import StochasticGrammar.Decimal.Reader
import StochasticGrammar.Formula.Printer
import StochasticGrammar.Text.Quoted

/-!
Reading formulas. An expression is terms joined by `+` and `-`, a term is factors joined by `*` and
`/`, a factor is an atom or a minus sign before a factor, and an atom is a name, a number or a
bracketed expression; blanks may stand around operators, after a minus sign and inside brackets.

Where reading stops, `Stop` keeps the place and the reason. A stop that is not final only ends the
chain of operators it occurs in; a final one ends everything.
-/

namespace StochasticGrammar.Formula

inductive Expected where
  | bracket
  | number
  | endOfText
  deriving DecidableEq, Repr

structure Stop where
  final : Bool
  rest : List Char
  expected : Expected
  deriving DecidableEq, Repr

structure SyntaxFault where
  text : String
  stop : Stop
  deriving DecidableEq, Repr

def Expected.word : Expected → String
  | bracket => "Char"
  | number => "Float"
  | endOfText => "Eof"

def SyntaxFault.message (fault : SyntaxFault) : String :=
  let kind := if fault.stop.final then "Failure" else "Error"
  let place := Text.quotedChars fault.stop.rest
  s!"malformed formula '{Text.trim fault.text}': Parsing {kind}: " ++
    "Error \x7b input: " ++ place ++ ", code: " ++ fault.stop.expected.word ++ " \x7d"

def isSpace (c : Char) : Bool := c == ' ' || c == '\t' || c == '\r' || c == '\n'

def skipSpace (input : List Char) : List Char := input.dropWhile isSpace

def startsName (c : Char) : Bool := c.isAlpha || c == '_'

def continuesName (c : Char) : Bool := c.isAlphanum || c == '_' || c == '.'

def name? : List Char → Option (String × List Char)
  | c :: rest =>
    if startsName c then
      some (String.ofList (c :: rest.takeWhile continuesName), rest.dropWhile continuesName)
    else none
  | [] => none

def sumOp? : List Char → Option (BinaryOp × List Char)
  | '+' :: rest => some (.add, rest)
  | '-' :: rest => some (.sub, rest)
  | _ => none

def productOp? : List Char → Option (BinaryOp × List Char)
  | '*' :: rest => some (.mul, rest)
  | '/' :: rest => some (.div, rest)
  | _ => none

def opened? : List Char → Option (List Char)
  | '(' :: rest => some rest
  | _ => none

theorem skipSpace_length (input : List Char) : (skipSpace input).length ≤ input.length :=
  (List.dropWhile_suffix _).length_le

theorem name_shortens {input : List Char} {name : String} {rest : List Char}
    (h : name? input = some (name, rest)) : rest.length < input.length := by
  cases input with
  | nil => simp [name?] at h
  | cons c tail =>
    simp only [name?] at h
    split at h
    · cases h
      have := (List.dropWhile_suffix continuesName (l := tail)).length_le
      simp only [List.length_cons]
      omega
    · cases h

theorem sumOp_shortens {input : List Char} {op : BinaryOp} {rest : List Char}
    (h : sumOp? input = some (op, rest)) : rest.length < input.length := by
  unfold sumOp? at h
  split at h <;> simp_all

theorem productOp_shortens {input : List Char} {op : BinaryOp} {rest : List Char}
    (h : productOp? input = some (op, rest)) : rest.length < input.length := by
  unfold productOp? at h
  split at h <;> simp_all

theorem opened_shortens {input rest : List Char} (h : opened? input = some rest) :
    rest.length < input.length := by
  unfold opened? at h
  split at h <;> simp_all

/-- What was read, and the shorter rest after it. -/
abbrev Read (input : List Char) :=
  Except Stop (Formula × { rest : List Char // rest.length < input.length })

/-- A chain of operators that has been read as far as it goes. -/
abbrev Chain (input : List Char) :=
  Except Stop (Formula × { rest : List Char // rest.length ≤ input.length })

mutual

def expression (input : List Char) : Read input :=
  match term input with
  | .error stop => .error stop
  | .ok (first, ⟨rest, h⟩) =>
    match sums first rest with
    | .error stop => .error stop
    | .ok (whole, ⟨rest', h'⟩) => .ok (whole, ⟨rest', Nat.lt_of_le_of_lt h' h⟩)
termination_by (input.length, 3)

def sums (left : Formula) (input : List Char) : Chain input :=
  match hop : sumOp? (skipSpace input) with
  | none => .ok (left, ⟨input, Nat.le_refl _⟩)
  | some (op, rest) =>
    have hrest : (skipSpace rest).length < input.length :=
      Nat.lt_of_le_of_lt (skipSpace_length _)
        (Nat.lt_of_lt_of_le (sumOp_shortens hop) (skipSpace_length _))
    match term (skipSpace rest) with
    | .error stop => if stop.final then .error stop else .ok (left, ⟨input, Nat.le_refl _⟩)
    | .ok (right, ⟨next, h⟩) =>
      match sums (.binary op left right) next with
      | .error stop => .error stop
      | .ok (whole, ⟨last, h'⟩) => .ok (whole, ⟨last, by omega⟩)
termination_by (input.length, 0)

def term (input : List Char) : Read input :=
  match factor input with
  | .error stop => .error stop
  | .ok (first, ⟨rest, h⟩) =>
    match products first rest with
    | .error stop => .error stop
    | .ok (whole, ⟨rest', h'⟩) => .ok (whole, ⟨rest', Nat.lt_of_le_of_lt h' h⟩)
termination_by (input.length, 2)

def products (left : Formula) (input : List Char) : Chain input :=
  match hop : productOp? (skipSpace input) with
  | none => .ok (left, ⟨input, Nat.le_refl _⟩)
  | some (op, rest) =>
    have hrest : (skipSpace rest).length < input.length :=
      Nat.lt_of_le_of_lt (skipSpace_length _)
        (Nat.lt_of_lt_of_le (productOp_shortens hop) (skipSpace_length _))
    match factor (skipSpace rest) with
    | .error stop => if stop.final then .error stop else .ok (left, ⟨input, Nat.le_refl _⟩)
    | .ok (right, ⟨next, h⟩) =>
      match products (.binary op left right) next with
      | .error stop => .error stop
      | .ok (whole, ⟨last, h'⟩) => .ok (whole, ⟨last, by omega⟩)
termination_by (input.length, 0)

/-- A minus sign whose operand cannot be read is no atom either, and is reported as such. -/
def factor (input : List Char) : Read input :=
  match input with
  | '-' :: rest =>
    have hrest : (skipSpace rest).length ≤ rest.length := skipSpace_length rest
    match factor (skipSpace rest) with
    | .error stop =>
      if stop.final then .error stop else .error ⟨false, '-' :: rest, .bracket⟩
    | .ok (inner, ⟨next, h⟩) =>
      .ok (.negate inner, ⟨next, by simp only [List.length_cons]; omega⟩)
  | other => atom other
termination_by (input.length, 1)

def atom (input : List Char) : Read input :=
  match hname : name? input with
  | some (name, rest) => .ok (.parameter name, ⟨rest, name_shortens hname⟩)
  | none =>
    match hscan : Decimal.scan input with
    | .number value rest => .ok (.constant value, ⟨rest, Decimal.scan_shortens hscan⟩)
    | .broken => .error ⟨true, input, .number⟩
    | .absent =>
      match hopen : opened? input with
      | some rest =>
        have hrest : (skipSpace rest).length < input.length :=
          Nat.lt_of_le_of_lt (skipSpace_length rest) (opened_shortens hopen)
        match expression (skipSpace rest) with
        | .error stop => .error stop
        | .ok (inner, ⟨next, h⟩) =>
          have hnext : (skipSpace next).length ≤ next.length := skipSpace_length next
          match hclose : skipSpace next with
          | ')' :: last =>
            have hlast : last.length + 1 = (skipSpace next).length := by rw [hclose]; rfl
            .ok (inner, ⟨last, by omega⟩)
          | other => .error ⟨false, other, .bracket⟩
      | none => .error ⟨false, input, .bracket⟩
termination_by (input.length, 0)

end

def parse (text : String) : Except SyntaxFault Formula :=
  match expression (skipSpace text.toList) with
  | .error stop => .error ⟨text, stop⟩
  | .ok (f, ⟨rest, _⟩) =>
    match skipSpace rest with
    | [] => .ok f
    | left => .error ⟨text, ⟨false, left, .endOfText⟩⟩

end StochasticGrammar.Formula
