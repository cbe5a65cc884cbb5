import StochasticGrammar.Proofs.Double.Sums

/-!
What the sums of charts rest on. Products with a zero are zeros as long as the other factor is tame,
and zeros add nothing to a sum that has no zero but one. Doubles are tame when they are finite, and
rationals always.
-/

namespace StochasticGrammar

/-- No zero other than the one that sums begin with. -/
def Unsigned {W : Type} [Weight W] (x : W) : Prop := (x == 0) = true → x = 0

class TameWeight (W : Type) [Weight W] where
  tame : W → Bool
  zero_beq : ((0 : W) == 0) = true
  one_beq : ((1 : W) == 0) = false
  eq_one : ∀ {x : W}, (x == 1) = true → x = 1
  zero_mul : ∀ {x y : W}, (x == 0) = true → tame y = true → (x * y == 0) = true ∧ (y * x == 0) = true
  add_zero : ∀ {x z : W}, Unsigned x → (z == 0) = true → x + z = x
  unsigned_add : ∀ {x : W}, Unsigned x → ∀ y : W, Unsigned (x + y)

instance : TameWeight Float where
  tame := Float.isFinite
  zero_beq := Double.beq_zero_iff.mpr ⟨_, Double.number_zero⟩
  one_beq := by rfl
  eq_one := Double.eq_one
  zero_mul := Double.zero_mul
  add_zero := Double.add_zero
  unsigned_add := Double.unsigned_add

instance : TameWeight Rat where
  tame _ := true
  zero_beq := rfl
  one_beq := rfl
  eq_one one := beq_iff_eq.mp one
  zero_mul zero _ := by
    rw [beq_iff_eq] at zero
    rw [zero]
    exact ⟨beq_iff_eq.mpr (Rat.zero_mul _), beq_iff_eq.mpr (Rat.mul_zero _)⟩
  add_zero _ zero := by
    rw [beq_iff_eq.mp zero]
    exact Rat.add_zero _
  unsigned_add _ _ := fun zero => beq_iff_eq.mp zero

section

variable {W : Type} [Weight W]

theorem unsigned_zero : Unsigned (0 : W) := fun _ => rfl

theorem unsigned_one [TameWeight W] : Unsigned (1 : W) := by
  intro zero
  rw [TameWeight.one_beq] at zero
  cases zero

end

/-- A weight that tells whether all weights that went into it were tame. -/
structure Watched (W : Type) where
  value : W
  tame : Bool

namespace Watched

variable {W : Type} [Weight W] [TameWeight W]

def of (value : W) : Watched W := ⟨value, TameWeight.tame value⟩

def add (a b : Watched W) : Watched W :=
  ⟨a.value + b.value, a.tame && b.tame && TameWeight.tame (a.value + b.value)⟩

def mul (a b : Watched W) : Watched W :=
  ⟨a.value * b.value, a.tame && b.tame && TameWeight.tame (a.value * b.value)⟩

instance : Weight (Watched W) where
  zero := .of 0
  one := .of 1
  add := add
  mul := mul
  beq a b := a.value == b.value
  lt a b := a.value < b.value
  decidableLT a b := inferInstanceAs (Decidable (a.value < b.value))

theorem add_tame {a b : Watched W} (tame : (a + b).tame = true) : a.tame = true ∧ b.tame = true := by
  change (a.tame && b.tame && TameWeight.tame (a.value + b.value)) = true at tame
  simp only [Bool.and_eq_true] at tame
  exact tame.1

theorem mul_tame {a b : Watched W} (tame : (a * b).tame = true) :
    a.tame = true ∧ b.tame = true ∧ TameWeight.tame (a.value * b.value) = true := by
  change (a.tame && b.tame && TameWeight.tame (a.value * b.value)) = true at tame
  simp only [Bool.and_eq_true] at tame
  exact ⟨tame.1.1, tame.1.2, tame.2⟩

end Watched

end StochasticGrammar
