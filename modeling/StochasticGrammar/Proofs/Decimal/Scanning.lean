import Mathlib
import StochasticGrammar.Decimal.Layout
import StochasticGrammar.Decimal.Reader

/-!
Digits and what is read of them. Digits with their zeros and their point are read up to the first
character that separates them from the rest, and amount to the number that they were written for.
-/

namespace StochasticGrammar.Decimal

/-- Nothing follows, or a character that continues neither a number nor a name. -/
def Separated (rest : List Char) : Prop :=
  ∀ c ∈ rest.head?, c = ' ' ∨ c = ')' ∨ c = ',' ∨ c = ']'

theorem separated_nil : Separated [] := by
  intro c first
  cases first

theorem separated_cons {c : Char} (separator : c = ' ' ∨ c = ')' ∨ c = ',' ∨ c = ']') (rest : List Char) :
    Separated (c :: rest) := by
  intro d first
  cases first
  exact separator

theorem Separated.not_isDigit {rest : List Char} (separated : Separated rest) :
    ∀ c ∈ rest.head?, c.isDigit = false := by
  intro c first
  rcases separated c first with rfl | rfl | rfl | rfl <;> decide

theorem splitDigits_append {digits rest : List Char} (all : ∀ c ∈ digits, c.isDigit = true)
    (stop : ∀ c ∈ rest.head?, c.isDigit = false) : splitDigits (digits ++ rest) = (digits, rest) := by
  have taken : rest.takeWhile Char.isDigit = [] ∧ rest.dropWhile Char.isDigit = rest := by
    cases rest with
    | nil => exact ⟨rfl, rfl⟩
    | cons c rest =>
      have other : c.isDigit = false := stop c rfl
      simp [other]
  rw [splitDigits, List.takeWhile_append_of_pos all, List.dropWhile_append_of_pos all, taken.1, taken.2,
    List.append_nil]

theorem splitSign_digit {c : Char} (digit : c.isDigit = true) (rest : List Char) :
    splitSign (c :: rest) = (false, c :: rest) := by
  unfold splitSign
  split
  · simp_all [Char.isDigit]
  · simp_all [Char.isDigit]
  · rfl

theorem splitFraction_separated {rest : List Char} (separated : Separated rest) :
    splitFraction rest = ([], rest) := by
  unfold splitFraction
  split
  · rcases separated _ rfl with same | same | same | same <;> cases same
  · rfl

theorem splitExponent_separated {rest : List Char} (separated : Separated rest) :
    splitExponent rest = some (0, rest) := by
  cases rest with
  | nil => rfl
  | cons c rest =>
    have other : ¬ (c = 'e' ∨ c = 'E') := by
      rcases separated c rfl with rfl | rfl | rfl | rfl <;> decide
    rw [splitExponent, if_neg other]

section

variable {c : Char} {whole fraction rest : List Char}

theorem scan_whole (all : ∀ d ∈ c :: whole, d.isDigit = true) (separated : Separated rest) :
    scan (c :: whole ++ rest) = .number (nearest (digitsValue (c :: whole)) 0) rest := by
  have split := splitDigits_append all separated.not_isDigit
  simp only [List.cons_append] at split ⊢
  simp only [scan, splitSign_digit (all c List.mem_cons_self), split, splitFraction_separated separated,
    splitExponent_separated separated]
  simp

theorem scan_fraction (all : ∀ d ∈ c :: whole, d.isDigit = true)
    (all' : ∀ d ∈ fraction, d.isDigit = true) (separated : Separated rest) :
    scan (c :: whole ++ '.' :: (fraction ++ rest)) =
      .number (nearest (digitsValue (c :: whole ++ fraction)) (-fraction.length)) rest := by
  have stop : ∀ d ∈ ('.' :: (fraction ++ rest)).head?, d.isDigit = false := by
    intro d first
    cases first
    decide
  have split := splitDigits_append all stop
  have after : splitFraction ('.' :: (fraction ++ rest)) = (fraction, rest) :=
    splitDigits_append all' separated.not_isDigit
  simp only [List.cons_append] at split ⊢
  simp only [scan, splitSign_digit (all c List.mem_cons_self), split, after,
    splitExponent_separated separated]
  simp

theorem scan_negative {value : Float} (digit : c.isDigit = true)
    (scanned : scan (c :: whole) = .number value rest) :
    scan ('-' :: c :: whole) = .number (-value) rest := by
  have sign : splitSign ('-' :: c :: whole) = (true, c :: whole) := rfl
  simp only [scan, splitSign_digit digit] at scanned
  simp only [scan, sign]
  split at scanned
  · cases scanned
  · rename_i some
    rw [if_neg some]
    split at scanned
    · cases scanned
    · cases scanned
      rfl

end

theorem digitsValue_eq (digits : List Char) : digitsValue digits = Nat.ofDigitChars 10 digits 0 := by
  rw [Nat.ofDigitChars_eq_foldl]
  rfl

theorem digitsValue_toDigits (n : Nat) : digitsValue (Nat.toDigits 10 n) = n := by
  rw [digitsValue_eq, Nat.ofDigitChars_ten_toDigits]

theorem digitsValue_zeros (k : Nat) (digits : List Char) :
    digitsValue (zeros k ++ digits) = digitsValue digits ∧
      digitsValue (digits ++ zeros k) = digitsValue digits * 10 ^ k := by
  constructor
  · rw [digitsValue_eq, digitsValue_eq, zeros, Nat.ofDigitChars_append, Nat.ofDigitChars_replicate_zero,
      Nat.mul_zero]
  · rw [digitsValue_eq, digitsValue_eq, zeros, Nat.ofDigitChars_append, Nat.ofDigitChars_replicate_zero,
      Nat.mul_comm]

theorem isDigit_toDigits (n : Nat) : ∀ c ∈ Nat.toDigits 10 n, c.isDigit = true := by
  intro c inside
  exact Nat.isDigit_of_mem_toDigits (by decide) (by decide) inside

theorem isDigit_zeros (k : Nat) : ∀ c ∈ zeros k, c.isDigit = true := by
  intro c inside
  rw [List.eq_of_mem_replicate inside]
  decide

theorem head_isDigit {whole : List Char} (some : whole ≠ []) (all : ∀ c ∈ whole, c.isDigit = true)
    (rest : List Char) : ∃ c tail, whole ++ rest = c :: tail ∧ c.isDigit = true := by
  cases whole with
  | nil => exact absurd rfl some
  | cons c tail => exact ⟨c, tail ++ rest, rfl, all c List.mem_cons_self⟩

section

variable {ds rest : List Char} (digits : ∀ c ∈ ds, c.isDigit = true) (separated : Separated rest)

include digits separated

theorem scan_below (k : Nat) : scan ('0' :: '.' :: (zeros k ++ ds) ++ rest) =
    .number (nearest (digitsValue ds) (-(zeros k ++ ds).length)) rest := by
  have value : digitsValue (['0'] ++ (zeros k ++ ds)) = digitsValue ds := (digitsValue_zeros (k + 1) ds).1
  rw [← value]
  exact scan_fraction (isDigit_zeros 1) (List.forall_mem_append.mpr ⟨isDigit_zeros k, digits⟩) separated

theorem scan_across {k : Nat} (some : ds.take k ≠ []) : scan (ds.take k ++ '.' :: ds.drop k ++ rest) =
    .number (nearest (digitsValue ds) (-(ds.drop k).length)) rest := by
  obtain ⟨c, tail, cut⟩ := List.exists_cons_of_ne_nil some
  have whole : ds = c :: tail ++ ds.drop k := by rw [← cut, List.take_append_drop]
  have split : (∀ d ∈ c :: tail, d.isDigit = true) ∧ ∀ d ∈ ds.drop k, d.isDigit = true := by
    rw [whole, List.forall_mem_append] at digits
    exact digits
  have scanned := scan_fraction split.1 split.2 separated
  rw [← whole] at scanned
  rw [cut, List.append_assoc]
  exact scanned

theorem scan_above (some : ds ≠ []) (k : Nat) : scan (ds ++ zeros k ++ rest) =
    .number (nearest (digitsValue ds * 10 ^ k) 0) rest := by
  obtain ⟨c, tail, rfl⟩ := List.exists_cons_of_ne_nil some
  rw [← (digitsValue_zeros k (c :: tail)).2]
  exact scan_whole (List.forall_mem_append.mpr ⟨digits, isDigit_zeros k⟩) separated

end

/-- Digits written out with their zeros and their point. -/
theorem scan_positional (n : Nat) (e : Int) {rest : List Char} (separated : Separated rest) :
    (∃ c tail, Layout.plain.positionalText (Nat.toDigits 10 n) e = c :: tail ∧ c.isDigit = true) ∧
      scan (Layout.plain.positionalText (Nat.toDigits 10 n) e ++ rest) =
        .number (nearest (n * 10 ^ e.toNat) (min e 0)) rest := by
  have digits := isDigit_toDigits n
  have value := digitsValue_toDigits n
  have some : Nat.toDigits 10 n ≠ [] := Nat.toDigits_ne_nil
  generalize Nat.toDigits 10 n = ds at digits value some
  rw [← value]
  simp only [Layout.positionalText, Layout.plain, Bool.false_eq_true, if_false, List.append_nil]
  split
  · rename_i below
    have place : min e 0 = -((zeros (-((ds.length : Int) + e)).toNat ++ ds).length : Int) := by
      rw [zeros, List.length_append, List.length_replicate]
      omega
    have whole : e.toNat = 0 := by omega
    rw [place, whole, Nat.pow_zero, Nat.mul_one]
    exact ⟨head_isDigit (List.cons_ne_nil '0' []) (isDigit_zeros 1) _, scan_below digits separated _⟩
  · split
    · have place : min e 0 = -((ds.drop ((ds.length : Int) + e).toNat).length : Int) := by
        rw [List.length_drop]
        omega
      have whole : e.toNat = 0 := by omega
      have first : ds.take ((ds.length : Int) + e).toNat ≠ [] := by
        rw [ne_eq, List.take_eq_nil_iff]
        rintro (none | none)
        · omega
        · exact some none
      rw [place, whole, Nat.pow_zero, Nat.mul_one]
      exact ⟨head_isDigit first (fun c taken => digits c (List.mem_of_mem_take taken)) _,
        scan_across digits separated first⟩
    · have place : min e 0 = 0 := by omega
      rw [place]
      exact ⟨head_isDigit some digits _, scan_above digits separated some _⟩

theorem positional_chars {ds : List Char} (digits : ∀ c ∈ ds, c.isDigit = true) (e : Int) :
    ∀ c ∈ Layout.plain.positionalText ds e, c.isDigit = true ∨ c = '.' := by
  intro c inside
  simp only [Layout.positionalText, Layout.plain, Bool.false_eq_true, if_false, List.append_nil] at inside
  split at inside
  · simp only [List.mem_cons, List.mem_append] at inside
    rcases inside with rfl | point | fill | digit
    · exact .inl (by decide)
    · exact .inr point
    · exact .inl (isDigit_zeros _ c fill)
    · exact .inl (digits c digit)
  · split at inside
    · simp only [List.mem_cons, List.mem_append] at inside
      rcases inside with whole | point | fraction
      · exact .inl (digits c (List.mem_of_mem_take whole))
      · exact .inr point
      · exact .inl (digits c (List.mem_of_mem_drop fraction))
    · rcases List.mem_append.mp inside with digit | fill
      · exact .inl (digits c digit)
      · exact .inl (isDigit_zeros _ c fill)

end StochasticGrammar.Decimal
