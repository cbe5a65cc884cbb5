import StochasticGrammar.Proofs.Grammar.Additions

/-!
Texts taken apart into literals. At each place of a text at most one literal of a sound forest begins,
so that a text is made of literals in one way only. What is read before a place where none begins is
the longest beginning of the text that is made of literals.
-/

namespace StochasticGrammar

namespace Forest

/-- The text is made of the literals with these numbers. -/
inductive Spells (f : Forest) : List Nat → List Char → Prop where
  | nil : Spells f [] []
  | cons {n word numbers rest} (found : f.find? word = some n) (tail : Spells f numbers rest) :
      Spells f (n :: numbers) (word ++ rest)

variable {f : Forest} {n : Nat} {word input rest text : List Char} {numbers numbers' : List Nat}

theorem find_of_token {t : Token} (read : f.token? input = some t) :
    ∃ word, f.find? word = some t.number ∧ input = word ++ t.rest ∧ t.width = word.length := by
  induction f generalizing input t with
  | nil => cases input <;> cases read
  | tree c terminal below beside ihBelow ihBeside =>
    cases input with
    | nil => cases read
    | cons d rest =>
      simp only [token?] at read
      split at read
      · rename_i same
        subst same
        split at read
        · cases read
          exact ⟨[d], find_end, rfl, rfl⟩
        · rcases Option.map_eq_some_iff.mp read with ⟨u, below', rfl⟩
          rcases ihBelow below' with ⟨word, found, shape, width⟩
          cases word with
          | nil => cases found
          | cons e word => exact ⟨d :: e :: word, find_below.trans found, by rw [shape]; rfl, by rw [width]; rfl⟩
      · rename_i other
        rcases ihBeside read with ⟨word, found, shape, width⟩
        cases word with
        | nil => cases found
        | cons e word =>
          cases (List.cons.inj shape).1
          exact ⟨d :: word, (find_beside other).trans found, shape, width⟩

/-- Nothing but the literal is read, whatever follows it. -/
theorem Sound.token (sound : f.Sound) (found : f.find? word = some n) (rest : List Char) :
    f.token? (word ++ rest) = some ⟨n, word.length, rest⟩ := by
  induction f generalizing word with
  | nil => exact absurd (Option.isSome_iff_exists.mpr ⟨n, found⟩) not_nil_has
  | tree c terminal below beside ihBelow ihBeside =>
    rcases sound with ⟨ends, under, next⟩
    cases word with
    | nil => cases found
    | cons d word =>
      rw [List.cons_append]
      simp only [token?]
      by_cases same : d = c
      · subst same
        rw [if_pos rfl]
        cases word with
        | nil =>
          rw [find_end] at found
          rw [found]
          rfl
        | cons e word =>
          rw [find_below] at found
          have filled : below ≠ nil := by
            rintro rfl
            exact not_nil_has (Option.isSome_iff_exists.mpr ⟨n, found⟩)
          rw [ends.mpr filled, ihBelow under found]
          rfl
      · rw [if_neg same]
        rw [find_beside same] at found
        exact ihBeside next found

/-- Two literals that one text begins with are the same. -/
theorem Sound.first_unique (sound : f.Sound) {word' rest' : List Char} {n' : Nat} (found : f.find? word = some n)
    (found' : f.find? word' = some n') (same : word ++ rest = word' ++ rest') :
    word = word' ∧ n = n' ∧ rest = rest' := by
  have read := sound.token found rest
  rw [same, sound.token found' rest', Option.some.injEq, Token.mk.injEq] at read
  rcases read with ⟨rfl, -, rfl⟩
  exact ⟨List.append_cancel_right same, rfl, rfl⟩

theorem Sound.spells_unique (sound : f.Sound) (spells : f.Spells numbers text)
    (spells' : f.Spells numbers' text) : numbers = numbers' := by
  have filled {n : Nat} {word : List Char} (found : f.find? word = some n) : word ≠ [] := by
    rintro rfl
    cases found
  induction spells generalizing numbers' with
  | nil =>
    generalize shape : ([] : List Char) = text at spells'
    cases spells' with
    | nil => rfl
    | cons found tail => exact absurd (List.append_eq_nil_iff.mp shape.symm).1 (filled found)
  | @cons n word numbers rest found tail ih =>
    generalize shape : word ++ rest = text at spells'
    cases spells' with
    | nil => exact absurd (List.append_eq_nil_iff.mp shape).1 (filled found)
    | cons found' tail' =>
      rcases sound.first_unique found found' shape with ⟨-, rfl, rfl⟩
      rw [ih tail']

/-- What taking a text apart comes to. -/
def Splits (f : Forest) (read : Array Nat) (position : Nat) (input : List Char) : Except Nat (Array Nat) → Prop
  | .ok all => ∃ numbers, f.Spells numbers input ∧ all = read ++ numbers
  | .error place => ∃ front back numbers, input = front ++ back ∧ back ≠ [] ∧ f.Spells numbers front ∧
      place = position + front.length ∧
      ∀ front' back' numbers', input = front' ++ back' → f.Spells numbers' front' → front'.length ≤ front.length

theorem Sound.splits (sound : f.Sound) (read : Array Nat) (position : Nat) (input : List Char) :
    f.Splits read position input (Lexicon.tokens f read position input) := by
  fun_induction Lexicon.tokens f read position input with
  | case1 read position input empty =>
    rw [List.isEmpty_iff.mp empty]
    exact ⟨[], .nil, by simp⟩
  | case2 read position input filled absent =>
    refine ⟨[], input, [], rfl, fun none => filled (List.isEmpty_iff.mpr none), .nil, rfl, ?_⟩
    intro front back numbers shape spells
    cases spells with
    | nil => exact Nat.le_refl 0
    | cons found tail =>
      rw [shape, List.append_assoc, sound.token found] at absent
      cases absent
  | case3 read position input filled t token shorter ih =>
    rcases find_of_token token with ⟨word, found, shape, width⟩
    cases result : Lexicon.tokens f (read.push t.number) (position + t.width) t.rest with
    | ok all =>
      rw [result] at ih
      rcases ih with ⟨numbers, spells, rfl⟩
      exact ⟨t.number :: numbers, shape ▸ .cons found spells, by simp⟩
    | error place =>
      rw [result] at ih
      rcases ih with ⟨front, back, numbers, shape', some, spells, rfl, longest⟩
      refine ⟨word ++ front, back, t.number :: numbers, ?_, some, .cons found spells, ?_, ?_⟩
      · rw [shape, shape', List.append_assoc]
      · rw [width, List.length_append, Nat.add_assoc]
      · intro front' back' numbers' other spells'
        cases spells' with
        | nil => exact Nat.zero_le _
        | @cons n word' numbers' rest' found' tail =>
          rw [shape, List.append_assoc] at other
          rcases sound.first_unique found found' other with ⟨rfl, -, after⟩
          rw [List.length_append, List.length_append]
          exact Nat.add_le_add_left (longest rest' back' numbers' after tail) _

end Forest

end StochasticGrammar
