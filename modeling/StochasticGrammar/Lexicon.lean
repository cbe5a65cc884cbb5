/-!
A lexicon of terminal literals. The literals form a prefix code, no one being the beginning of
another, so that at each place of a text at most one of them can be read. They are numbered in the
order of their addition and kept as a forest of characters.
-/

namespace StochasticGrammar

/-- A first character with what may follow it, and beside it the other first characters. `terminal`
is the number of the literal that ends with this character. -/
inductive Forest where
  | nil
  | tree (char : Char) (terminal : Option Nat) (below beside : Forest)
  deriving DecidableEq, Repr, Inhabited

inductive Clash where
  | extendsLiteral
  | startsLiteral
  | present (number : Nat)
  deriving DecidableEq, Repr

namespace Forest

def isEmpty : Forest → Bool
  | nil => true
  | tree .. => false

def chain (number : Nat) : (first : Char) → (rest : List Char) → Forest → Forest
  | c, [], beside => tree c (some number) nil beside
  | c, d :: rest, beside => tree c none (chain number d rest nil) beside

def get? : Forest → (first : Char) → (rest : List Char) → Option Nat
  | nil, _, _ => none
  | tree c terminal below beside, d, rest =>
    if d = c then
      match rest with
      | [] => terminal
      | e :: rest => below.get? e rest
    else beside.get? d rest

/-- The forest with one literal more, unless the literal is there or one is a beginning of the other. -/
def insert (number : Nat) : Forest → (first : Char) → (rest : List Char) → Except Clash Forest
  | nil, d, rest => .ok (chain number d rest nil)
  | tree c terminal below beside, d, rest =>
    if d = c then
      match rest with
      | [] =>
        match terminal with
        | some i => .error (.present i)
        | none =>
          if below.isEmpty then .ok (tree c (some number) below beside)
          else .error .startsLiteral
      | e :: rest =>
        if terminal.isSome then .error .extendsLiteral
        else do
          let below ← below.insert number e rest
          return tree c terminal below beside
    else do
      let beside ← beside.insert number d rest
      return tree c terminal below beside

structure Token where
  number : Nat
  width : Nat
  rest : List Char
  deriving DecidableEq, Repr

/-- The literal that `input` begins with. -/
def token? : Forest → (input : List Char) → Option Token
  | _, [] => none
  | nil, _ :: _ => none
  | tree c terminal below beside, d :: rest =>
    if d = c then
      match terminal with
      | some number => some ⟨number, 1, rest⟩
      | none => (below.token? rest).map fun t => { t with width := t.width + 1 }
    else beside.token? (d :: rest)

theorem token_length {f : Forest} {input : List Char} {t : Token} (h : f.token? input = some t) :
    0 < t.width ∧ t.width + t.rest.length = input.length := by
  induction f generalizing input t with
  | nil => cases input <;> simp [token?] at h
  | tree c terminal below beside ihBelow ihBeside =>
    cases input with
    | nil => simp [token?] at h
    | cons d rest =>
      simp only [token?] at h
      split at h
      · split at h
        · cases h
          simp only [List.length_cons]
          omega
        · obtain ⟨u, hu, rfl⟩ := Option.map_eq_some_iff.mp h
          have := ihBelow hu
          simp only [List.length_cons]
          omega
      · exact ihBeside h

end Forest

structure Lexicon where
  forest : Forest := .nil
  size : Nat := 0
  deriving Repr, Inhabited

inductive Insertion where
  | added (number : Nat)
  | existing (number : Nat)
  deriving DecidableEq, Repr

inductive InsertFault where
  | empty
  | extendsLiteral (literal : String)
  | startsLiteral (literal : String)
  deriving DecidableEq, Repr

def InsertFault.message : InsertFault → String
  | empty => "terminal literal is empty"
  | extendsLiteral literal => s!"an existing terminal is a prefix of '{literal}'"
  | startsLiteral literal => s!"'{literal}' is a prefix of an existing terminal"

namespace Lexicon

def get? (lexicon : Lexicon) (literal : String) : Option Nat :=
  match literal.toList with
  | [] => none
  | c :: rest => lexicon.forest.get? c rest

def insert (lexicon : Lexicon) (literal : String) : Except InsertFault (Insertion × Lexicon) :=
  match literal.toList with
  | [] => .error .empty
  | c :: rest =>
    match lexicon.forest.insert lexicon.size c rest with
    | .ok forest => .ok (.added lexicon.size, ⟨forest, lexicon.size + 1⟩)
    | .error (.present number) => .ok (.existing number, lexicon)
    | .error .extendsLiteral => .error (.extendsLiteral literal)
    | .error .startsLiteral => .error (.startsLiteral literal)

/-- The literals that `input` is made of; otherwise the place where none begins. -/
def tokens (forest : Forest) (read : Array Nat) (position : Nat) (input : List Char) :
    Except Nat (Array Nat) :=
  if input.isEmpty then .ok read
  else match h : forest.token? input with
    | none => .error position
    | some t =>
      have := Forest.token_length h
      tokens forest (read.push t.number) (position + t.width) t.rest
termination_by input.length

def tokenize (lexicon : Lexicon) (input : String) : Except Nat (Array Nat) :=
  tokens lexicon.forest #[] 0 input.toList

end Lexicon

end StochasticGrammar
