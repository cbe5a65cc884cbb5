import StochasticGrammar.Proofs.Decimal.Text

/-!
How numbers may be spelled, and that just these texts are scanned: a sign, digits with a point among
or after them or before them, and an exponent with a sign of its own. Only the digits have to be there.
-/

namespace StochasticGrammar.Decimal

open Float.Model Float.Model.UnpackedFloat Double

/-- The spellings of a sign that may be left out. -/
inductive SignMark : List Char → (negative : Bool) → Prop where
  | absent : SignMark [] false
  | plus : SignMark ['+'] false
  | minus : SignMark ['-'] true

def AllDigits (text : List Char) : Prop := ∀ c ∈ text, c.isDigit = true

inductive Mantissa : (text whole fraction : List Char) → Prop where
  | whole {whole} (some : whole ≠ []) (digits : AllDigits whole) : Mantissa whole whole []
  | pointed {whole fraction} (some : whole ≠ [] ∨ fraction ≠ []) (digits : AllDigits whole)
      (digits' : AllDigits fraction) : Mantissa (whole ++ '.' :: fraction) whole fraction

inductive Exponent : List Char → Int → Prop where
  | absent : Exponent [] 0
  | marked {mark : Char} {sign digits negative} (letter : mark = 'e' ∨ mark = 'E')
      (signed : SignMark sign negative) (some : digits ≠ []) (all : AllDigits digits) :
      Exponent (mark :: (sign ++ digits))
        (if negative then -(digitsValue digits : Int) else digitsValue digits)

def withSign (negative : Bool) (value : Float) : Float := if negative then -value else value

/-- The spellings of the numbers, with the double nearest to what they say. -/
inductive Numeral : List Char → Float → Prop where
  | number {sign text whole fraction scale negative exponent} (signed : SignMark sign negative)
      (mantissa : Mantissa text whole fraction) (scaled : Exponent scale exponent) :
      Numeral (sign ++ (text ++ scale))
        (withSign negative (nearest (digitsValue (whole ++ fraction)) (exponent - fraction.length)))

/-- What follows does not continue a number. -/
def EndsNumber (rest : List Char) : Prop :=
  ∀ c ∈ rest.head?, c.isDigit = false ∧ c ≠ '.' ∧ c ≠ 'e' ∧ c ≠ 'E'

section

variable {text whole fraction sign scale rest : List Char} {negative : Bool} {exponent : Int}

theorem splitSign_eq (signed : SignMark sign negative)
    (stop : ∀ c ∈ rest.head?, c ≠ '+' ∧ c ≠ '-') : splitSign (sign ++ rest) = (negative, rest) := by
  cases signed with
  | plus => rfl
  | minus => rfl
  | absent =>
    rw [List.nil_append, splitSign.eq_def]
    split
    · exact absurd rfl (stop _ rfl).2
    · exact absurd rfl (stop _ rfl).1
    · rfl

theorem Mantissa.head (mantissa : Mantissa text whole fraction) :
    ∃ c tail, text = c :: tail ∧ (c.isDigit = true ∨ c = '.') := by
  cases mantissa with
  | whole some digits =>
    rcases List.exists_cons_of_ne_nil some with ⟨c, tail, rfl⟩
    exact ⟨c, tail, rfl, .inl (digits c List.mem_cons_self)⟩
  | pointed some digits digits' =>
    cases whole with
    | nil => exact ⟨'.', fraction, rfl, .inr rfl⟩
    | cons c tail => exact ⟨c, tail ++ '.' :: fraction, rfl, .inl (digits c List.mem_cons_self)⟩

theorem not_sign_of_digit {c : Char} (first : c.isDigit = true ∨ c = '.') : c ≠ '+' ∧ c ≠ '-' := by
  rcases first with digit | rfl
  · constructor
    · rintro rfl
      exact absurd digit (by decide)
    · rintro rfl
      exact absurd digit (by decide)
  · decide

/-- What follows a mantissa does not continue its digits. -/
theorem Exponent.stop (written : Exponent scale exponent) (ends : EndsNumber rest) :
    ∀ c ∈ (scale ++ rest).head?, c.isDigit = false ∧ c ≠ '.' := by
  cases written with
  | absent => exact fun c first => ⟨(ends c first).1, (ends c first).2.1⟩
  | marked letter signed some all =>
    intro c first
    cases first
    rcases letter with rfl | rfl <;> decide

theorem splitMantissa_eq (mantissa : Mantissa text whole fraction)
    (stop : ∀ c ∈ rest.head?, c.isDigit = false ∧ c ≠ '.') :
    ∃ middle, splitDigits (text ++ rest) = (whole, middle) ∧ splitFraction middle = (fraction, rest) ∧
      (whole.isEmpty && fraction.isEmpty) = false := by
  have ends : ∀ c ∈ rest.head?, c.isDigit = false := fun c first => (stop c first).1
  cases mantissa with
  | whole some digits =>
    refine ⟨rest, splitDigits_append digits ends, ?_, by simpa using some⟩
    unfold splitFraction
    split
    · exact absurd rfl (stop _ rfl).2
    · rfl
  | pointed some digits digits' =>
    have point : ∀ c ∈ ('.' :: (fraction ++ rest)).head?, c.isDigit = false := by
      intro c first
      cases first
      decide
    refine ⟨'.' :: (fraction ++ rest), ?_, splitDigits_append digits' ends, ?_⟩
    · rw [List.append_assoc, List.cons_append]
      exact splitDigits_append digits point
    · rcases some with some | some <;> simp [some]

theorem splitExponent_eq (written : Exponent scale exponent) (ends : EndsNumber rest) :
    splitExponent (scale ++ rest) = some (exponent, rest) := by
  cases written with
  | absent =>
    cases rest with
    | nil => rfl
    | cons c rest =>
      have other := (ends c rfl).2.2
      rw [List.nil_append, splitExponent, if_neg (by simpa using other)]
  | @marked mark sign digits negative letter signed some all =>
    rcases List.exists_cons_of_ne_nil some with ⟨c, tail, rfl⟩
    have after : splitSign (sign ++ (c :: tail ++ rest)) = (negative, c :: tail ++ rest) := by
      apply splitSign_eq signed
      intro d first
      cases first
      exact not_sign_of_digit (.inl (all c List.mem_cons_self))
    have split := splitDigits_append all fun d first => (ends d first).1
    rw [List.cons_append, List.append_assoc, splitExponent, if_pos letter, after]
    simp only [split]

theorem Numeral.head {value : Float} (numeral : Numeral text value) :
    ∃ c tail, text = c :: tail ∧ (c.isDigit = true ∨ c = '.' ∨ c = '+' ∨ c = '-') := by
  cases numeral with
  | @number sign text whole fraction scale negative exponent signed mantissa scaled =>
    cases signed with
    | absent =>
      rcases mantissa.head with ⟨c, tail, rfl, first⟩
      exact ⟨c, tail ++ scale, rfl, first.imp_right .inl⟩
    | plus => exact ⟨'+', _, rfl, by simp⟩
    | minus => exact ⟨'-', _, rfl, by simp⟩

/-- A numeral is scanned as a whole. -/
theorem scan_numeral {value : Float} (numeral : Numeral text value) (ends : EndsNumber rest) :
    scan (text ++ rest) = .number value rest := by
  cases numeral with
  | @number sign text whole fraction scale negative exponent signed mantissa written =>
    rcases mantissa.head with ⟨c, tail, shape, first⟩
    have start : splitSign (sign ++ (text ++ (scale ++ rest))) = (negative, text ++ (scale ++ rest)) := by
      apply splitSign_eq signed
      rw [shape]
      intro d same
      cases same
      exact not_sign_of_digit first
    rcases splitMantissa_eq mantissa (written.stop ends) with ⟨middle, digits, point, some⟩
    rw [List.append_assoc, List.append_assoc, scan, start]
    simp only [digits, point, some, splitExponent_eq written ends]
    rfl

end

section

variable {input rest : List Char} {exponent : Int}

theorem sign_of_splitSign (input : List Char) :
    ∃ sign, SignMark sign (splitSign input).1 ∧ input = sign ++ (splitSign input).2 := by
  unfold splitSign
  split
  · exact ⟨_, .minus, rfl⟩
  · exact ⟨_, .plus, rfl⟩
  · exact ⟨_, .absent, rfl⟩

theorem digits_of_splitDigits (input : List Char) :
    AllDigits (splitDigits input).1 ∧ input = (splitDigits input).1 ++ (splitDigits input).2 :=
  ⟨fun _ inside => List.mem_takeWhile_imp inside, List.takeWhile_append_dropWhile.symm⟩

theorem mantissa_of_split (input : List Char)
    (some : ((splitDigits input).1.isEmpty && (splitFraction (splitDigits input).2).1.isEmpty) = false) :
    ∃ text, Mantissa text (splitDigits input).1 (splitFraction (splitDigits input).2).1 ∧
      input = text ++ (splitFraction (splitDigits input).2).2 := by
  rcases digits_of_splitDigits input with ⟨digits, whole⟩
  generalize (splitDigits input).1 = front at *
  generalize (splitDigits input).2 = middle at *
  unfold splitFraction at some ⊢
  split
  · rename_i tail
    rcases digits_of_splitDigits tail with ⟨digits', fraction⟩
    refine ⟨front ++ '.' :: (splitDigits tail).1, .pointed ?_ digits digits', ?_⟩
    · simpa [Classical.or_iff_not_imp_left] using some
    · calc input
          = front ++ '.' :: tail := whole
        _ = front ++ '.' :: ((splitDigits tail).1 ++ (splitDigits tail).2) := by rw [← fraction]
        _ = front ++ '.' :: (splitDigits tail).1 ++ (splitDigits tail).2 := by simp
  · exact ⟨front, .whole (by simpa using some) digits, whole⟩

theorem exponent_of_split (split : splitExponent input = some (exponent, rest)) :
    ∃ scale, Exponent scale exponent ∧ input = scale ++ rest := by
  unfold splitExponent at split
  split at split
  · rename_i mark tail
    split at split
    · rename_i letter
      rcases sign_of_splitSign tail with ⟨sign, signed, shape⟩
      rcases digits_of_splitDigits (splitSign tail).2 with ⟨digits, shape'⟩
      simp only at split
      split at split
      · cases split
      · rename_i ds after ne same
        rw [same] at digits shape'
        cases split
        refine ⟨mark :: (sign ++ ds), .marked letter signed ne digits, ?_⟩
        rw [List.cons_append, List.append_assoc, ← shape', ← shape]
    · cases split
      exact ⟨[], .absent, rfl⟩
  · cases split
    exact ⟨[], .absent, rfl⟩

/-- What is scanned is a numeral. -/
theorem numeral_of_scan {value : Float} (scanned : scan input = .number value rest) :
    ∃ text, Numeral text value ∧ input = text ++ rest := by
  rcases sign_of_splitSign input with ⟨sign, signed, shape⟩
  unfold scan at scanned
  simp only at scanned
  split at scanned
  · cases scanned
  · rename_i some
    rcases mantissa_of_split _ (Bool.eq_false_iff.mpr some) with ⟨text, mantissa, shape'⟩
    split at scanned
    · cases scanned
    · rename_i exponent after split
      rcases exponent_of_split split with ⟨scale, written, shape''⟩
      cases scanned
      refine ⟨_, .number signed mantissa written, ?_⟩
      calc input
          = sign ++ (splitSign input).2 := shape
        _ = sign ++ (text ++ (scale ++ rest)) := by rw [← shape'', ← shape']
        _ = sign ++ (text ++ scale) ++ rest := by simp

end

/-- A double and its negation have the same digits. -/
theorem number_neg_eq (x : Float) : number (-x) = UnpackedFloat.neg (number x) := by
  rcases canonical_unpack x.toModel with ⟨canonical, kept⟩
  change Canonical (number x) at canonical
  change overflow (number x) = number x at kept
  have negated : Canonical (UnpackedFloat.neg (number x)) ∧
      overflow (UnpackedFloat.neg (number x)) = UnpackedFloat.neg (number x) := by
    cases shape : number x with
    | notANumber => exact ⟨trivial, rfl⟩
    | zero sign => exact ⟨trivial, rfl⟩
    | infinity sign => exact ⟨trivial, rfl⟩
    | finite sign m e positive =>
      rw [shape] at canonical kept
      have small : e ≤ 971 := by
        by_contra large
        rw [overflow, if_neg large] at kept
        cases kept
      exact ⟨canonical, if_pos small⟩
  rw [number_neg, unpack_pack negated.1, negated.2]

/-- Negation marks a number that has no sign. -/
theorem not_unmarked_neg {x : Float} (unmarked : Unmarked (number x)) : ¬ Unmarked (number (-x)) := by
  rw [number_neg_eq]
  cases shape : number x with
  | notANumber => exact fun same => same
  | zero sign | infinity sign | finite sign m e positive =>
    rw [shape] at unmarked
    cases unmarked
    exact fun same => nomatch same

/-- A number to which no minus sign belongs is spelled without one. -/
theorem Numeral.head_of_unmarked {text : List Char} {value : Float} (numeral : Numeral text value)
    (unmarked : Unmarked (Double.number value)) : text.head? ≠ some '-' := by
  cases numeral with
  | @number sign text whole fraction scale negative exponent signed mantissa scaled =>
    rcases mantissa.head with ⟨c, tail, rfl, first⟩
    cases signed with
    | absent =>
      intro same
      cases same
      exact (not_sign_of_digit first).2 rfl
    | plus => exact fun same => nomatch same
    | minus => exact absurd unmarked (not_unmarked_neg (unmarked_nearest _ _))

/-- Behind its sign a numeral is one to which no minus sign belongs. -/
theorem Numeral.unsigned {text : List Char} {value : Float} (numeral : Numeral text value) :
    ∃ value', Unmarked (Double.number value') ∧
      (Numeral text value' ∨ ∃ rest, text = '-' :: rest ∧ Numeral rest value') := by
  cases numeral with
  | @number sign text whole fraction scale negative exponent signed mantissa scaled =>
    cases signed with
    | absent => exact ⟨_, unmarked_nearest _ _, .inl (.number .absent mantissa scaled)⟩
    | plus => exact ⟨_, unmarked_nearest _ _, .inl (.number .plus mantissa scaled)⟩
    | minus => exact ⟨_, unmarked_nearest _ _, .inr ⟨text ++ scale, rfl, .number .absent mantissa scaled⟩⟩

end StochasticGrammar.Decimal
