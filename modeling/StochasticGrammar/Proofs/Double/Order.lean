import StochasticGrammar.Proofs.Double.Heights
import StochasticGrammar.Proofs.Double.Signs

/-!
The order of the doubles. Those that are numbers have a rank, an integer that counts them in units of
the least positive one with the infinities beyond all others, and they are compared as their ranks. So
their order is total and transitive; it says nothing of what is not a number.
-/

namespace StochasticGrammar.Double

open Float.Model Float.Model.UnpackedFloat

def rankOf : UnpackedFloat → Int
  | .notANumber => 0
  | .infinity .positive => limit
  | .infinity .negative => -limit
  | .zero _ => 0
  | .finite .positive m e p => units (.finite .positive m e p)
  | .finite .negative m e p => -units (.finite .negative m e p)

def rank (x : Float) : Int := rankOf (number x)

theorem compare_cast (a b : Nat) : compare (a : Int) (b : Int) = compare a b := by
  rcases Nat.lt_trichotomy a b with less | same | greater
  · rw [Nat.compare_eq_lt.mpr less, Int.compare_eq_lt.mpr (by omega)]
  · rw [same, Int.compare_eq_eq.mpr rfl, Nat.compare_eq_eq.mpr rfl]
  · rw [Nat.compare_eq_gt.mpr greater, Int.compare_eq_gt.mpr (by omega)]

theorem compare_neg (a b : Nat) : compare (-a : Int) (-b) = (compare a b).swap := by
  rcases Nat.lt_trichotomy a b with less | same | greater
  · rw [Nat.compare_eq_lt.mpr less, Int.compare_eq_gt.mpr (by omega)]
    rfl
  · rw [same, Int.compare_eq_eq.mpr rfl, Nat.compare_eq_eq.mpr rfl]
    rfl
  · rw [Nat.compare_eq_gt.mpr greater, Int.compare_eq_lt.mpr (by omega)]
    rfl

theorem compare_rankOf {f g : UnpackedFloat} (left : f ≠ .notANumber) (right : g ≠ .notANumber)
    (canonical : Canonical f) (canonical' : Canonical g) (small : units f < limit)
    (small' : units g < limit) : f.compare g = some (compare (rankOf f) (rankOf g)) := by
  have lt {a b : Int} (less : a < b) : some Ordering.lt = some (compare a b) := by
    rw [Int.compare_eq_lt.mpr less]
  have gt {a b : Int} (less : b < a) : some Ordering.gt = some (compare a b) := by
    rw [Int.compare_eq_gt.mpr less]
  have eq (a : Int) : some Ordering.eq = some (compare a a) := by
    rw [Int.compare_eq_eq.mpr rfl]
  have top := limit_pos
  have some_units (sign m e) (some : 0 < m) : 0 < units (.finite sign m e some) :=
    Nat.mul_pos some (Nat.two_pow_pos _)
  cases f with
  | notANumber => exact absurd rfl left
  | infinity sign =>
    cases g with
    | notANumber => exact absurd rfl right
    | infinity sign' | zero sign' | finite sign' m e some =>
      cases sign <;> cases sign' <;> simp only [rankOf] <;>
        first | exact eq _ | (apply lt; omega) | (apply gt; omega)
  | zero sign =>
    cases g with
    | notANumber => exact absurd rfl right
    | infinity sign' | zero sign' =>
      cases sign' <;> simp only [rankOf] <;>
        first | exact eq _ | (apply lt; omega) | (apply gt; omega)
    | finite sign' m e some =>
      have positive := some_units sign' m e some
      cases sign' <;> simp only [rankOf]
      · apply gt
        omega
      · apply lt
        omega
  | finite sign m e some =>
    have positive := some_units sign m e some
    cases g with
    | notANumber => exact absurd rfl right
    | infinity sign' | zero sign' =>
      cases sign <;> cases sign' <;> simp only [rankOf] <;>
        first | (apply lt; omega) | (apply gt; omega)
    | finite sign' m' e' some' =>
      have positive' := some_units sign' m' e' some'
      have scaled := compare_scaled canonical canonical'
      cases sign <;> cases sign' <;> simp only [rankOf]
      · rw [compare_neg, UnpackedFloat.compare, scaled]
        rfl
      · apply lt
        omega
      · apply gt
        omega
      · rw [compare_cast, UnpackedFloat.compare, scaled]
        rfl

section

variable {x y z : Float}

theorem isNaN_eq_false_iff : x.isNaN = false ↔ number x ≠ .notANumber := by
  rw [← Bool.not_eq_true, isNaN_iff]

theorem not_nonnegative_of_nan (nan : number x = .notANumber) : ¬ Nonnegative x := by
  rw [Nonnegative, nan]
  exact id

theorem not_lt_of_nan (nan : number y = .notANumber) : ¬ x < y := by
  rw [lt_iff_compare, nan]
  cases number x <;> simp [UnpackedFloat.compare]

theorem not_pos_of_nan (nan : number x = .notANumber) : ¬ 0.0 < x := not_lt_of_nan nan

theorem not_isFinite_of_nan (nan : number x = .notANumber) : ¬ x.isFinite = true := by
  change ¬ (number x).isFinite = true
  rw [nan]
  simp [UnpackedFloat.isFinite]

theorem shape_of_isFinite (finite : x.isFinite = true) :
    (∃ sign, number x = .zero sign) ∨ ∃ sign m e positive, number x = .finite sign m e positive := by
  change (number x).isFinite = true at finite
  cases shape : number x with
  | infinity sign => simp [shape, UnpackedFloat.isFinite] at finite
  | notANumber => simp [shape, UnpackedFloat.isFinite] at finite
  | zero sign => exact .inl ⟨sign, rfl⟩
  | finite sign m e positive => exact .inr ⟨sign, m, e, positive, rfl⟩

theorem compare_rank (left : x.isNaN = false) (right : y.isNaN = false) :
    (number x).compare (number y) = some (compare (rank x) (rank y)) := by
  rw [isNaN_eq_false_iff] at left right
  exact compare_rankOf left right (canonical_number x) (canonical_number y) (units_small x) (units_small y)

theorem lt_iff_rank (left : x.isNaN = false) (right : y.isNaN = false) : x < y ↔ rank x < rank y := by
  rw [lt_iff_compare, compare_rank left right, Option.some.injEq, Int.compare_eq_lt]

theorem le_iff_compare : x ≤ y ↔ ((number x).compare (number y)).any (·.isLE) = true := by
  change decide (UnpackedFloat.le (number x) (number y) = true) = true ↔ _
  rw [decide_eq_true_iff]
  rfl

theorem le_iff_rank (left : x.isNaN = false) (right : y.isNaN = false) : x ≤ y ↔ rank x ≤ rank y := by
  rw [le_iff_compare, compare_rank left right, Option.any_some, Int.isLE_compare]

theorem pos_of_lt (positive : 0.0 < x) (less : x < y) : 0.0 < y := by
  have defined : x.isNaN = false := by
    cases nan : x.isNaN with
    | false => rfl
    | true => exact absurd positive (not_pos_of_nan (isNaN_iff.mp nan))
  have defined' : y.isNaN = false := by
    cases nan : y.isNaN with
    | false => rfl
    | true => exact absurd less (not_lt_of_nan (isNaN_iff.mp nan))
  have zero : (0.0 : Float).isNaN = false := by decide +kernel
  rw [lt_iff_rank zero defined] at positive
  rw [lt_iff_rank defined defined'] at less
  rw [lt_iff_rank zero defined']
  exact Int.lt_trans positive less

/-- What is neither at most zero nor above it is not a number. -/
theorem pos_cases (x : Float) : x ≤ 0.0 ∧ ¬ 0.0 < x ∨ ¬ x ≤ 0.0 ∧ 0.0 < x ∨ ¬ x ≤ 0.0 ∧ number x = .notANumber := by
  cases undefined : x.isNaN with
  | true =>
    have nan := isNaN_iff.mp undefined
    refine .inr (.inr ⟨?_, nan⟩)
    rw [le_iff_compare, nan]
    simp [UnpackedFloat.compare]
  | false =>
    have zero : (0.0 : Float).isNaN = false := by decide +kernel
    by_cases positive : 0.0 < x
    · refine .inr (.inl ⟨?_, positive⟩)
      rw [lt_iff_rank zero undefined] at positive
      rw [le_iff_rank undefined zero]
      omega
    · refine .inl ⟨?_, positive⟩
      rw [lt_iff_rank zero undefined] at positive
      rw [le_iff_rank undefined zero]
      omega

theorem zero_le_of_unmarked (unmarked : Unmarked (number x)) : 0.0 ≤ x := by
  rw [le_iff_compare, number_zero]
  cases shape : number x with
  | notANumber =>
    rw [shape] at unmarked
    exact unmarked.elim
  | zero sign => rfl
  | infinity sign | finite sign m e some =>
    rw [shape] at unmarked
    cases unmarked
    rfl

theorem unmarked_of_pos (positive : 0.0 < x) : Unmarked (number x) := by
  rw [lt_iff_compare, number_zero] at positive
  cases shape : number x with
  | notANumber => simp [shape, UnpackedFloat.compare] at positive
  | zero sign => simp [shape, UnpackedFloat.compare] at positive
  | infinity sign | finite sign m e some =>
    cases sign with
    | negative => simp [shape, UnpackedFloat.compare] at positive
    | positive => rfl

theorem shape_of_unmarked (unmarked : Unmarked (number x)) (finite : x.isFinite = true) :
    number x = .zero .positive ∨ ∃ m e positive, number x = .finite .positive m e positive := by
  rcases shape_of_isFinite finite with ⟨sign, shape⟩ | ⟨sign, m, e, positive, shape⟩
  · rw [shape] at unmarked
    cases unmarked
    exact .inl shape
  · rw [shape] at unmarked
    cases unmarked
    exact .inr ⟨m, e, positive, shape⟩

theorem unmarked_product (left : Unmarked (number x)) (right : Unmarked (number y))
    (finite : x.isFinite = true) (finite' : y.isFinite = true) : Unmarked (number (x * y)) := by
  rw [number_mul]
  apply unmarked_pack
  rcases shape_of_unmarked left finite with shape | ⟨m, e, some, shape⟩
  · rcases shape_of_unmarked right finite' with shape' | ⟨m', e', some', shape'⟩
    · rw [shape, shape']
      rfl
    · rw [shape, shape']
      rfl
  · rcases shape_of_unmarked right finite' with shape' | ⟨m', e', some', shape'⟩
    · rw [shape, shape']
      rfl
    · rw [shape, shape']
      exact unmarked_mul _ _ _ _

end

end StochasticGrammar.Double
