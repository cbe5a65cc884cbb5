import StochasticGrammar.Ascent
import StochasticGrammar.Proofs.Double.Additions
import StochasticGrammar.Proofs.Double.Strata

/-!
Differences of doubles, and the points that divide an interval in the golden ratio. The rank of a sum is the
rounded sum of the ranks, whatever their signs, and rounding is monotone and leaves ranks as they are. So
the part of a width that the ratio takes is no longer than the exact width, and a point that is found with
it lies between the ends, whichever of the two is the greater. This needs a width that is not infinite.
-/

namespace StochasticGrammar.Double

open Float.Model Float.Model.UnpackedFloat

/-- What rounding makes of so many units times `k`, in units of the square, on either side of zero. -/
def signedRounded (k : Nat) (n : Int) : Int := n.sign * (rounded (n.natAbs * k) : Nat)

section

variable (k : Nat)

theorem signedRounded_zero : signedRounded k 0 = 0 := by
  rw [signedRounded, Int.sign_zero, Int.zero_mul]

theorem signedRounded_natCast (n : Nat) : signedRounded k n = (rounded (n * k) : Nat) := by
  rcases Nat.eq_zero_or_pos n with rfl | positive
  · rw [Nat.cast_zero, signedRounded_zero, Nat.zero_mul, rounded_zero, Nat.cast_zero]
  · rw [signedRounded, Int.sign_natCast_of_ne_zero positive.ne', Int.natAbs_natCast, one_mul]

theorem signedRounded_neg (n : Int) : signedRounded k (-n) = -signedRounded k n := by
  rw [signedRounded, signedRounded, Int.sign_neg, Int.natAbs_neg, neg_mul]

theorem signedRounded_mono {m n : Int} (order : m ≤ n) : signedRounded k m ≤ signedRounded k n := by
  have natural {m n : Nat} (order : m ≤ n) : signedRounded k m ≤ signedRounded k n := by
    rw [signedRounded_natCast, signedRounded_natCast]
    exact Int.ofNat_le.mpr (rounded_mono (Nat.mul_le_mul_right k order))
  have nonneg (n : Nat) : 0 ≤ signedRounded k n := by
    rw [signedRounded_natCast]
    exact Int.natCast_nonneg _
  obtain ⟨a, rfl | rfl⟩ := Int.eq_nat_or_neg m <;> obtain ⟨b, rfl | rfl⟩ := Int.eq_nat_or_neg n
  · exact natural (Int.ofNat_le.mp order)
  · have none : a = 0 := by omega
    have none' : b = 0 := by omega
    rw [none, none']
    exact le_rfl
  · rw [signedRounded_neg]
    have left := nonneg a
    have right := nonneg b
    omega
  · rw [signedRounded_neg, signedRounded_neg]
    have reversed := natural (m := b) (n := a) (by omega)
    omega

end

section

variable {f g : UnpackedFloat} {sign sign' : Sign} {m m' : Nat} {e e' : Int}

theorem rankOf_neg (f : UnpackedFloat) : rankOf f.neg = -rankOf f := by
  cases f with
  | notANumber => rfl
  | zero sign => rfl
  | infinity sign =>
    cases sign with
    | positive => rfl
    | negative => exact (neg_neg _).symm
  | finite sign m e positive =>
    cases sign with
    | positive => rfl
    | negative => exact (neg_neg _).symm

theorem isFinite_neg (f : UnpackedFloat) : f.neg.isFinite = f.isFinite := by
  cases f <;> rfl

theorem canonical_neg (f : UnpackedFloat) : Canonical f.neg ↔ Canonical f := by
  cases f <;> rfl

/-- Rounding treats both signs alike. -/
theorem roundWithAccuracy_neg (sign : Sign) (m : Nat) (e : Int) (accuracy : Accuracy) :
    roundWithAccuracy Format.binary64 (-sign) m e accuracy =
      (roundWithAccuracy Format.binary64 sign m e accuracy).neg := by
  unfold roundWithAccuracy
  simp only
  split <;> rfl

theorem round_neg (sign : Sign) (m : Nat) (e : Int) :
    round Format.binary64 (-sign) m e = (round Format.binary64 sign m e).neg :=
  roundWithAccuracy_neg sign _ _ _

/-- What a rounded number is, beside its rank. -/
structure Rounds (f : UnpackedFloat) (n : Int) : Prop where
  finite : f.isFinite = true
  canonical : Canonical f
  rank : rankOf f = n

theorem Rounds.neg {n : Int} (rounds : Rounds f n) : Rounds f.neg (-n) where
  finite := (isFinite_neg f).trans rounds.finite
  canonical := (canonical_neg f).mpr rounds.canonical
  rank := by rw [rankOf_neg, rounds.rank]

theorem rounds_of_notNegative (least : NotNegative f) (canonical : Canonical f) {n : Nat} (same : units f = n) :
    Rounds f n where
  finite := by
    cases f with
    | notANumber | infinity sign => exact least.elim
    | zero sign | finite sign m e positive => rfl
  canonical := canonical
  rank := by rw [rankOf_eq least, same]

theorem rounds_self (finite : f.isFinite = true) (canonical : Canonical f) :
    Rounds f (signedRounded unity (rankOf f)) := by
  refine ⟨finite, canonical, ?_⟩
  cases f with
  | notANumber | infinity sign => cases finite
  | zero sign =>
    exact (signedRounded_zero unity).symm
  | finite sign m e positive =>
    have same := rounded_units canonical
    cases sign with
    | positive =>
      rw [rankOf, signedRounded_natCast, same]
    | negative =>
      rw [rankOf, signedRounded_neg, signedRounded_natCast]
      exact congrArg (fun n : Nat => -(n : Int)) same.symm

theorem Rounds.stable {n : Int} (rounds : Rounds f n) : signedRounded unity n = n := by
  have kept := (rounds_self rounds.finite rounds.canonical).rank
  rwa [rounds.rank, eq_comm] at kept

theorem rounds_round (sign : Sign) (positive : 0 < m) (least : -1074 ≤ e) :
    Rounds (round Format.binary64 sign m e) (signedRounded unity (sign.apply (m * 2 ^ (e + 1074).toNat : Nat))) := by
  obtain ⟨amount, above, canonical⟩ := units_round positive least
  have upper := rounds_of_notNegative above canonical amount
  cases sign with
  | positive =>
    rw [Sign.apply, signedRounded_natCast]
    exact upper
  | negative =>
    rw [Sign.apply, signedRounded_neg, signedRounded_natCast]
    exact round_neg .positive m e ▸ upper.neg

/-- A sum at a common exponent. -/
theorem rounds_normalize (n : Int) (least : -1074 ≤ e) :
    Rounds (UnpackedFloat.normalize Format.binary64 n e .positive)
      (signedRounded unity (n * 2 ^ (e + 1074).toNat)) := by
  unfold UnpackedFloat.normalize
  split
  · rename_i less
    have negative : n < 0 := Int.compare_eq_lt.mp less
    have rounds := rounds_round .negative (m := (-n).toNat) (by omega) least
    have amount : Sign.negative.apply ((-n).toNat * 2 ^ (e + 1074).toNat : Nat) = n * 2 ^ (e + 1074).toNat := by
      rw [Sign.apply, Nat.cast_mul, Int.toNat_of_nonneg (by omega), neg_mul, neg_neg, Nat.cast_pow, Nat.cast_ofNat]
    rwa [amount] at rounds
  · rename_i same
    have zero : n = 0 := Int.compare_eq_eq.mp same
    rw [zero, Int.zero_mul]
    exact rounds_self rfl trivial
  · rename_i greater
    have positive : 0 < n := Int.compare_eq_gt.mp greater
    have rounds := rounds_round .positive (m := n.toNat) (by omega) least
    have amount : Sign.positive.apply (n.toNat * 2 ^ (e + 1074).toNat : Nat) = n * 2 ^ (e + 1074).toNat := by
      rw [Sign.apply, Nat.cast_mul, Int.toNat_of_nonneg (by omega), Nat.cast_pow, Nat.cast_ofNat]
    rwa [amount] at rounds

/-- The rank of a number at a lower exponent. -/
theorem rankOf_aligned (sign : Sign) {positive : 0 < m} {least : Int} (lower : least ≤ e) (bound : -1074 ≤ least) :
    sign.apply ((m * 2 ^ (e - least).toNat : Nat) : Int) * 2 ^ (least + 1074).toNat =
      rankOf (.finite sign m e positive) := by
  have power : (e - least).toNat + (least + 1074).toNat = (e + 1074).toNat := by omega
  have amount : ((m * 2 ^ (e - least).toNat : Nat) : Int) * 2 ^ (least + 1074).toNat =
      (units (.finite sign m e positive) : Nat) := by
    rw [units, ← power, Nat.pow_add]
    push_cast
    ring
  cases sign with
  | positive => exact amount
  | negative =>
    rw [Sign.apply, neg_mul, amount]
    rfl

theorem rounds_add (finite : f.isFinite = true) (finite' : g.isFinite = true) (canonical : Canonical f)
    (canonical' : Canonical g) :
    Rounds (UnpackedFloat.add Format.binary64 f g) (signedRounded unity (rankOf f + rankOf g)) := by
  cases f with
  | notANumber | infinity sign => cases finite
  | zero sign =>
    cases g with
    | notANumber | infinity sign' => cases finite'
    | zero sign' =>
      obtain ⟨sign'', sum⟩ := add_zeros sign sign'
      rw [sum]
      exact rounds_self rfl trivial
    | finite sign' m' e' positive' =>
      rw [rankOf, Int.zero_add]
      exact rounds_self rfl canonical'
  | finite sign m e positive =>
    cases g with
    | notANumber | infinity sign' => cases finite'
    | zero sign' =>
      have none : rankOf (.zero sign') = 0 := rfl
      rw [none, Int.add_zero]
      exact rounds_self rfl canonical
    | finite sign' m' e' positive' =>
      have least : -1074 ≤ min e e' := le_min canonical.2.1 canonical'.2.1
      rw [← rankOf_aligned sign (min_le_left e e') least, ← rankOf_aligned sign' (min_le_right e e') least,
        ← add_mul]
      simp only [UnpackedFloat.add, decreaseExponent, Nat.shiftLeft_eq]
      exact rounds_normalize _ least

theorem sub_eq_add_neg (f g : UnpackedFloat) :
    UnpackedFloat.sub Format.binary64 f g = UnpackedFloat.add Format.binary64 f g.neg := by
  cases f with
  | notANumber => rfl
  | infinity sign | zero sign => cases g <;> rfl
  | finite sign m e positive =>
    cases g with
    | notANumber | infinity sign' | zero sign' => rfl
    | finite sign' m' e' positive' =>
      have opposite (n : Int) : (-sign').apply n = -sign'.apply n := by
        cases sign' with
        | positive => rfl
        | negative => exact (neg_neg n).symm
      simp only [UnpackedFloat.sub, UnpackedFloat.add, UnpackedFloat.neg, opposite, Int.sub_eq_add_neg]

theorem rounds_sub (finite : f.isFinite = true) (finite' : g.isFinite = true) (canonical : Canonical f)
    (canonical' : Canonical g) :
    Rounds (UnpackedFloat.sub Format.binary64 f g) (signedRounded unity (rankOf f - rankOf g)) := by
  have sum := rounds_add finite ((isFinite_neg g).trans finite') canonical ((canonical_neg g).mpr canonical')
  rwa [rankOf_neg, ← sub_eq_add_neg, ← Int.sub_eq_add_neg] at sum

/-- A product with a number that is not negative. -/
theorem rounds_mul (finite : f.isFinite = true) (canonical : Canonical f) (least : NotNegative g)
    (canonical' : Canonical g) :
    Rounds (UnpackedFloat.mul Format.binary64 f g) (signedRounded (units g) (rankOf f)) := by
  have direct {h : UnpackedFloat} (least' : NotNegative h) (made : Canonical h) :
      Rounds (UnpackedFloat.mul Format.binary64 h g) (signedRounded (units g) (rankOf h)) := by
    obtain ⟨amount, sign, made'⟩ := units_mul least' least made canonical'
    rw [rankOf_eq least', signedRounded_natCast]
    exact rounds_of_notNegative sign made' amount
  cases f with
  | notANumber | infinity sign => cases finite
  | zero sign => exact direct (h := .zero sign) trivial canonical
  | finite sign m e some =>
    have mirror : Rounds (UnpackedFloat.mul Format.binary64 (.finite .positive m e some) g)
        (signedRounded (units g) (rankOf (.finite .positive m e some))) :=
      direct (h := .finite .positive m e some) trivial canonical
    cases sign with
    | positive => exact mirror
    | negative =>
      have opposite : UnpackedFloat.mul Format.binary64 (.finite .negative m e some) g =
          (UnpackedFloat.mul Format.binary64 (.finite .positive m e some) g).neg := by
        cases g with
        | notANumber | infinity sign' => exact least.elim
        | zero sign' => cases sign' <;> rfl
        | finite sign' m' e' some' =>
          cases sign' with
          | negative => exact least.elim
          | positive => exact roundWithAccuracy_neg .positive _ _ _
      have mirrored : rankOf (.finite .negative m e some) = -rankOf (.finite .positive m e some) := rfl
      rw [opposite, mirrored, signedRounded_neg]
      exact mirror.neg

theorem Rounds.overflow_iff {n : Int} (rounds : Rounds f n) :
    (overflow f).isFinite = true ↔ -(limit : Int) < n ∧ n < limit := by
  obtain ⟨finite, canonical, rank⟩ := rounds
  have top := limit_pos
  cases f with
  | notANumber | infinity sign => cases finite
  | zero sign =>
    have zero : (0 : Int) = n := rank
    rw [← zero]
    exact iff_of_true rfl ⟨by omega, by omega⟩
  | finite sign m e positive =>
    have small := units_lt_limit canonical
    have size : (overflow (.finite sign m e positive)).isFinite = true ↔ e ≤ 971 := by
      rw [overflow]
      split
      · rename_i low
        exact iff_of_true rfl low
      · rename_i high
        exact iff_of_false Bool.false_ne_true high
    rw [size, ← small, ← rank]
    cases sign with
    | positive =>
      rw [rankOf]
      omega
    | negative =>
      have amount : units (.finite .negative m e positive) = units (.finite .positive m e positive) := rfl
      rw [rankOf, amount]
      omega

theorem overflow_of_isFinite (finite : (overflow f).isFinite = true) : overflow f = f := by
  cases f with
  | notANumber | infinity sign | zero sign => rfl
  | finite sign m e positive =>
    rw [overflow] at finite ⊢
    split
    · rfl
    · rename_i high
      rw [if_neg high] at finite
      cases finite

/-- What is not finite after all is infinite, with its sign. -/
theorem Rounds.overflow_positive {n : Int} (rounds : Rounds f n) (high : (limit : Int) ≤ n) :
    overflow f = .infinity .positive := by
  have infinite : ¬ (overflow f).isFinite = true := by
    rw [rounds.overflow_iff]
    omega
  obtain ⟨finite, -, rank⟩ := rounds
  have top := limit_pos
  cases f with
  | notANumber | infinity sign => cases finite
  | zero sign => exact absurd rfl infinite
  | finite sign m e positive =>
    rw [overflow] at infinite ⊢
    split
    · rename_i low
      rw [if_pos low] at infinite
      exact absurd rfl infinite
    · cases sign with
      | positive => rfl
      | negative =>
        rw [rankOf] at rank
        omega

end

section

variable {x y a b lower upper : Float}

theorem rank_bounds (finite : x.isFinite = true) : -(limit : Int) < rank x ∧ rank x < limit := by
  have rounds := rounds_self finite (canonical_number x)
  have kept : overflow (number x) = number x := (canonical_unpack x.toModel).2
  have inside := rounds.overflow_iff.mp (kept.symm ▸ finite)
  rwa [← rounds.rank] at inside

theorem signedRounded_rank (finite : x.isFinite = true) : signedRounded unity (rank x) = rank x :=
  (rounds_self finite (canonical_number x)).rank.symm

/-- A number that is had by rounding, as long as it is not too large. -/
theorem rank_of_rounds {f : UnpackedFloat} {n : Int} (rounds : Rounds f n) (made : number x = (pack f).unpack) :
    (x.isFinite = true ↔ -(limit : Int) < n ∧ n < limit) ∧ (x.isFinite = true → rank x = n) ∧
      ((limit : Int) ≤ n → number x = .infinity .positive) := by
  rw [unpack_pack rounds.canonical] at made
  have finite : x.isFinite = true ↔ (overflow f).isFinite = true := by
    rw [← made]
    rfl
  refine ⟨finite.trans rounds.overflow_iff, fun small => ?_, fun high => made.trans (rounds.overflow_positive high)⟩
  rw [rank, made, overflow_of_isFinite (finite.mp small), rounds.rank]

/-- What lies between two ranks stays there when it is rounded. -/
theorem between_of_rounds {f : UnpackedFloat} {n : Int} (rounds : Rounds f (signedRounded unity n))
    (made : number x = (pack f).unpack) (left : a.isFinite = true) (right : b.isFinite = true)
    (low : rank a ≤ n) (high : n ≤ rank b) : x.isFinite = true ∧ rank a ≤ rank x ∧ rank x ≤ rank b := by
  have above := signedRounded_mono unity low
  have below := signedRounded_mono unity high
  rw [signedRounded_rank left] at above
  rw [signedRounded_rank right] at below
  have least := (rank_bounds left).1
  have most := (rank_bounds right).2
  obtain ⟨finite, value, -⟩ := rank_of_rounds rounds made
  have small := finite.mpr ⟨by omega, by omega⟩
  rw [value small]
  exact ⟨small, above, below⟩

theorem rounds_difference (left : x.isFinite = true) (right : y.isFinite = true) :
    Rounds (UnpackedFloat.sub Format.binary64 (number x) (number y)) (signedRounded unity (rank x - rank y)) :=
  rounds_sub left right (canonical_number x) (canonical_number y)

theorem rounds_sum (left : x.isFinite = true) (right : y.isFinite = true) :
    Rounds (UnpackedFloat.add Format.binary64 (number x) (number y)) (signedRounded unity (rank x + rank y)) :=
  rounds_add left right (canonical_number x) (canonical_number y)

/-- What lies within a range of finite width is a finite width apart. -/
theorem isFinite_sub (left : lower.isFinite = true) (right : upper.isFinite = true)
    (narrow : (upper - lower).isFinite = true) (first : x.isFinite = true) (second : y.isFinite = true)
    (apart : rank x - rank y ≤ rank upper - rank lower) (apart' : rank y - rank x ≤ rank upper - rank lower) :
    (x - y).isFinite = true := by
  have width := (rank_of_rounds (rounds_difference right left) (number_sub upper lower)).1.mp narrow
  have most := signedRounded_mono unity apart
  have least : -(rank upper - rank lower) ≤ rank x - rank y := by omega
  have least' := signedRounded_mono unity least
  rw [signedRounded_neg] at least'
  exact (rank_of_rounds (rounds_difference first second) (number_sub x y)).1.mpr ⟨by omega, by omega⟩

end

section

/-- A number from its first two digits on. -/
theorem exists_twoDigits {n : Nat} (large : 2 ≤ n) :
    ∃ t k, 2 ≤ t ∧ t < 4 ∧ t * 2 ^ k ≤ n ∧ n < (t + 1) * 2 ^ k := by
  have positive : n ≠ 0 := by omega
  obtain ⟨k, log⟩ : ∃ k, n.log2 = k + 1 := Nat.exists_eq_add_of_le' ((Nat.le_log2 positive).mpr large)
  have least : 2 ^ (k + 1) ≤ n := log ▸ Nat.log2_self_le positive
  have most : n < 2 ^ (k + 1 + 1) := log ▸ Nat.lt_log2_self
  have unit := Nat.two_pow_pos k
  rw [Nat.pow_succ, Nat.mul_comm] at least
  rw [Nat.add_assoc, Nat.pow_add, Nat.mul_comm] at most
  exact ⟨n / 2 ^ k, k, (Nat.le_div_iff_mul_le unit).mpr least, (Nat.div_lt_iff_lt_mul unit).mpr most,
    Nat.div_mul_le_self _ _, Nat.lt_mul_of_div_lt (Nat.lt_succ_self _) unit⟩

theorem number_goldenRatio :
    number goldenRatio = .finite .positive 5566755282872656 (-53) (by decide) := by rfl

theorem notNegative_goldenRatio : NotNegative (number goldenRatio) := by
  rw [number_goldenRatio]
  trivial

/-- The ratio is at most five eighths. -/
theorem level_goldenRatio : 8 * level goldenRatio ≤ 5 * unity := by
  have power : unity = 2 ^ 53 * 2 ^ 1021 := by rw [unity, ← Nat.pow_add]
  have place : ((-53 : Int) + 1074).toNat = 1021 := by decide
  rw [level, number_goldenRatio, units, power, place, ← Nat.mul_assoc, ← Nat.mul_assoc]
  exact Nat.mul_le_mul_right _ (by decide)

/-- The ratio takes no more of a width than the exact width. -/
theorem rounded_golden (width : Nat) : rounded (rounded (width * unity) * level goldenRatio) ≤ width := by
  have ratio := level_goldenRatio
  rcases Nat.lt_or_ge width 2 with small | large
  · have kept : rounded (width * unity) = width := by
      have exact := rounded_exact (n := width) (j := 1074) (lt_trans small (by decide)) le_rfl
      rwa [Nat.sub_self, Nat.pow_zero, Nat.mul_one] at exact
    calc rounded (rounded (width * unity) * level goldenRatio)
        = rounded (width * level goldenRatio) := by rw [kept]
      _ ≤ rounded (width * unity) := rounded_mono (Nat.mul_le_mul_left width (by omega))
      _ = width := kept
  · -- with two digits there is room for the ratio between a number and the next one
    obtain ⟨t, k, two, four, least, most⟩ := exists_twoDigits large
    have kept {n : Nat} (digits : n ≤ 4) : rounded (n * 2 ^ k * unity) = n * 2 ^ k := by
      have exact := rounded_exact (n := n) (j := k + 1074) (by omega) (by omega)
      rwa [Nat.add_sub_cancel, (two_pow_unity k).1, ← Nat.mul_assoc] at exact
    have above : rounded (width * unity) ≤ (t + 1) * 2 ^ k := by
      rw [← kept (n := t + 1) (by omega)]
      exact rounded_mono (Nat.mul_le_mul_right _ most.le)
    have share : (t + 1) * level goldenRatio ≤ t * unity := by
      have eighths : (t + 1) * (8 * level goldenRatio) ≤ (t + 1) * (5 * unity) := Nat.mul_le_mul_left _ ratio
      have room : (t + 1) * (5 * unity) ≤ t * (8 * unity) := by
        rw [← Nat.mul_assoc, ← Nat.mul_assoc]
        exact Nat.mul_le_mul_right _ (by omega)
      have scaled : 8 * ((t + 1) * level goldenRatio) ≤ 8 * (t * unity) := by
        rw [Nat.mul_left_comm 8, Nat.mul_left_comm 8]
        exact Nat.le_trans eighths room
      exact Nat.le_of_mul_le_mul_left scaled (by decide)
    calc rounded (rounded (width * unity) * level goldenRatio)
        ≤ rounded ((t + 1) * 2 ^ k * level goldenRatio) := rounded_mono (Nat.mul_le_mul_right _ above)
      _ = rounded ((t + 1) * level goldenRatio * 2 ^ k) := by rw [Nat.mul_right_comm]
      _ ≤ rounded (t * unity * 2 ^ k) := rounded_mono (Nat.mul_le_mul_right _ share)
      _ = rounded (t * 2 ^ k * unity) := by rw [Nat.mul_right_comm]
      _ = t * 2 ^ k := kept four.le
      _ ≤ width := least

/-- On either side of zero. -/
theorem signedRounded_golden (width : Int) :
    let share := signedRounded (level goldenRatio) (signedRounded unity width)
    (0 ≤ share ∧ share ≤ width) ∨ (width ≤ share ∧ share ≤ 0) := by
  obtain ⟨n, rfl | rfl⟩ := Int.eq_nat_or_neg width
  · left
    rw [signedRounded_natCast, signedRounded_natCast]
    exact ⟨Int.natCast_nonneg _, Int.ofNat_le.mpr (rounded_golden n)⟩
  · right
    rw [signedRounded_neg, signedRounded_neg, signedRounded_natCast, signedRounded_natCast]
    have most := rounded_golden n
    omega

end

section

variable {a b lower upper : Float}

/-- The part of the width between two points that the ratio takes leads from each towards the other. -/
theorem rank_share (left : a.isFinite = true) (right : b.isFinite = true) (narrow : (b - a).isFinite = true) :
    ((b - a) * goldenRatio).isFinite = true ∧
      ((0 ≤ rank ((b - a) * goldenRatio) ∧ rank ((b - a) * goldenRatio) ≤ rank b - rank a) ∨
        (rank b - rank a ≤ rank ((b - a) * goldenRatio) ∧ rank ((b - a) * goldenRatio) ≤ 0)) := by
  have width : rank (b - a) = signedRounded unity (rank b - rank a) :=
    (rank_of_rounds (rounds_difference right left) (number_sub b a)).2.1 narrow
  have rounds : Rounds _ (signedRounded (level goldenRatio) (rank (b - a))) :=
    rounds_mul narrow (canonical_number (b - a)) notNegative_goldenRatio (canonical_number goldenRatio)
  have part := signedRounded_golden (rank b - rank a)
  rw [← width] at part
  have stable := rounds.stable
  generalize signedRounded (level goldenRatio) (rank (b - a)) = share at rounds part stable
  obtain ⟨least, most⟩ := rank_bounds narrow
  obtain ⟨finite, value, -⟩ := rank_of_rounds rounds (number_mul (b - a) goldenRatio)
  have small : ((b - a) * goldenRatio).isFinite = true := by
    apply finite.mpr
    rw [width] at least most
    have none : signedRounded unity 0 = 0 := signedRounded_zero unity
    rcases part with ⟨positive, below⟩ | ⟨above, negative⟩
    · have lower := signedRounded_mono unity positive
      have upper := signedRounded_mono unity below
      omega
    · have lower := signedRounded_mono unity above
      have upper := signedRounded_mono unity negative
      omega
  rw [value small]
  exact ⟨small, part⟩

/-- A point of a range. -/
def Inside (lower upper x : Float) : Prop := x.isFinite = true ∧ lower ≤ x ∧ x ≤ upper

theorem inside_lower (bottom : lower.isFinite = true) (order : lower ≤ upper) : Inside lower upper lower :=
  ⟨bottom, (le_iff_rank (isNaN_of_isFinite bottom) (isNaN_of_isFinite bottom)).mpr le_rfl, order⟩

theorem inside_upper (top : upper.isFinite = true) (order : lower ≤ upper) : Inside lower upper upper :=
  ⟨top, order, (le_iff_rank (isNaN_of_isFinite top) (isNaN_of_isFinite top)).mpr le_rfl⟩

section

variable (bottom : lower.isFinite = true) (top : upper.isFinite = true)

include bottom top

theorem inside_iff_rank {x : Float} :
    Inside lower upper x ↔ x.isFinite = true ∧ rank lower ≤ rank x ∧ rank x ≤ rank upper := by
  refine and_congr_right fun finite => ?_
  have defined := isNaN_of_isFinite finite
  rw [le_iff_rank (isNaN_of_isFinite bottom) defined, le_iff_rank defined (isNaN_of_isFinite top)]

/-- The probes between two points of a range of finite width are in the range, whichever of the points is
the greater. -/
theorem inside_probes (narrow : (upper - lower).isFinite = true) (left : Inside lower upper a)
    (right : Inside lower upper b) :
    Inside lower upper (leftProbe a b) ∧ Inside lower upper (rightProbe a b) := by
  simp only [inside_iff_rank bottom top] at left right ⊢
  obtain ⟨finite, low, high⟩ := left
  obtain ⟨finite', low', high'⟩ := right
  have width := isFinite_sub bottom top narrow finite' finite (by omega) (by omega)
  obtain ⟨small, part⟩ := rank_share finite finite' width
  exact ⟨between_of_rounds (rounds_difference finite' small) (number_sub b _) bottom top (by omega) (by omega),
    between_of_rounds (rounds_sum finite small) (number_add a _) bottom top (by omega) (by omega)⟩

/-- A width that overflows takes the first probe out of all ranges. -/
theorem number_leftProbe_of_wide (order : lower ≤ upper) (wide : (upper - lower).isFinite = false) :
    number (leftProbe lower upper) = .infinity .negative := by
  obtain ⟨finite, -, large⟩ := rank_of_rounds (rounds_difference top bottom) (number_sub upper lower)
  have apart : 0 ≤ signedRounded unity (rank upper - rank lower) := by
    rw [le_iff_rank (isNaN_of_isFinite bottom) (isNaN_of_isFinite top)] at order
    have least := signedRounded_mono unity (m := 0) (n := rank upper - rank lower) (by omega)
    rwa [signedRounded_zero] at least
  have infinite : number (upper - lower) = .infinity .positive := by
    apply large
    by_contra small
    have most := limit_pos
    rw [finite.mpr ⟨by omega, by omega⟩] at wide
    cases wide
  have share : number ((upper - lower) * goldenRatio) = .infinity .positive := by
    rw [number_mul, infinite, number_goldenRatio]
    exact unpack_pack (f := .infinity .positive) trivial
  rw [leftProbe, number_sub, share]
  rcases shape_of_isFinite top with ⟨sign, shape⟩ | ⟨sign, m, e, positive, shape⟩
  all_goals
    rw [shape]
    exact unpack_pack (f := .infinity .negative) trivial

end

end

end StochasticGrammar.Double
