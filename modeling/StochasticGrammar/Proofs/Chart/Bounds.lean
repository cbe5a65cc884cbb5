import StochasticGrammar.Proofs.Chart.Plain
import StochasticGrammar.Proofs.Chart.Settled
import StochasticGrammar.Proofs.Double.Bounds

/-!
What values of rules say of weights. A property that sums and products keep is had by all weights when
the values have it. Where no rule has a value above two, the weight of a span is bounded by the number
of its terms at every level, so that in a text that is short enough nothing overflows.
-/

namespace StochasticGrammar

open Double

section

variable {W : Type} [Weight W] {s : Sentence W} {P : W → Prop}

/-- A property of weights that sums and products keep. -/
structure Kept (P : W → Prop) : Prop where
  zero : P 0
  one : P 1
  add : ∀ {x y : W}, P x → P y → P (x + y)
  mul : ∀ {x y : W}, P x → P y → P (x * y)

variable (kept : Kept P) (values : ∀ rule, P (s.value rule))

include kept

theorem Kept.remembered {x : W} (holds : P x) (constant : Bool) : P (remembered x constant).1 := by
  unfold StochasticGrammar.remembered
  split
  · exact kept.zero
  · split
    · exact kept.one
    · exact holds

include values

theorem Kept.base (cell : Cell) : P (s.plan cell).base := by
  cases cell with
  | inside start stop nt =>
    simp only [Sentence.plan]
    split
    · exact kept.zero
    · split
      · exact kept.zero
      · split
        · exact values _
        · exact kept.zero
  | outside start stop nt =>
    simp only [Sentence.plan]
    split
    · change P (if nt = s.rules.start then 1 else 0)
      split
      · exact kept.one
      · exact kept.zero
    · split
      · exact kept.zero
      · exact kept.zero

theorem Kept.addKnown {read : Cell → W × Bool} (reads : ∀ other, P (read other).1) {cell : Cell}
    {total : W × Bool} (holds : P total.1) (term : Term) : P (s.addKnown read cell total term).1 := by
  simp only [Sentence.addKnown]
  split
  · exact holds
  · apply kept.add holds
    have first := reads term.first
    have second := reads term.second
    cases cell with
    | inside start stop nt => exact kept.mul (kept.mul (values _) first) second
    | outside start stop nt => exact kept.mul (kept.mul second (values _)) first

theorem Kept.settledBelow (rank : Nat) (cell : Cell) : P (s.settledBelow rank cell).1 := by
  induction rank generalizing cell with
  | zero => exact kept.zero
  | succ rank ih =>
    rw [Sentence.settledBelow]
    split
    · apply kept.remembered
      have sums (terms : List Term) {total : W × Bool} (holds : P total.1) :
          P (terms.foldl (s.addKnown (s.settledBelow rank) cell) total).1 := by
        induction terms generalizing total with
        | nil => exact holds
        | cons term terms next => exact next (kept.addKnown values ih holds term)
      exact sums _ (kept.base values cell)
    · exact kept.zero

theorem Kept.settled (cell : Cell) : P (s.settled cell).1 := kept.settledBelow values _ cell

end

/-- From zero to infinity, if it is a number at all. -/
def Signed (x : Float) : Prop := number x = .notANumber ∨ Nonnegative x

theorem kept_signed : Kept Signed where
  zero := .inr nonnegative_zero
  one := .inr nonnegative_one
  add left right := by
    rcases left with nan | sign
    · exact .inl (nan_add (.inl nan))
    · rcases right with nan | sign'
      · exact .inl (nan_add (.inr nan))
      · exact .inr (height_add sign sign').1
  mul left right := by
    rcases left with nan | sign
    · exact .inl (nan_mul (.inl nan))
    · rcases right with nan | sign'
      · exact .inl (nan_mul (.inr nan))
      · exact (height_mul sign sign').imp And.left And.left

section

variable {s : Sentence Float} {b : Nat} {start stop nt : Nat}

theorem length_allInsideTerms (start stop nt : Nat) :
    (s.allInsideTerms start stop nt).length ≤ (BinaryRule.all s.rules.rules).length * (stop - start) := by
  have same (rules : List BinaryRule) : (rules.flatMap fun r => (List.range' start (stop - start)).map fun m =>
      (⟨r.index, .inside start m r.left, .inside (m + 1) stop r.right⟩ : Term)).length =
      rules.length * (stop - start) := by
    induction rules with
    | nil => simp
    | cons r rules ih =>
      rw [List.flatMap_cons, List.length_append, ih, List.length_map, List.length_range', List.length_cons,
        Nat.add_mul, Nat.one_mul, Nat.add_comm]
  rw [Sentence.allInsideTerms, same]
  exact Nat.mul_le_mul_right _ (List.length_filter_le _ _)

variable (values : ∀ rule, UpTo 1 1 (s.value rule))

include values

theorem held_token (start nt : Nat) : Held 1 1 (s.watched.tokenWeight start nt) := by
  unfold Sentence.tokenWeight
  split
  · rename_i rule found
    exact ⟨(values rule).isFinite, values rule⟩
  · exact ⟨rfl, .zero 1 1⟩

theorem held_product {k j : Nat} {rule : Nat} {v w : Watched Float} (left : Held 1 k v) (right : Held 1 j w)
    (small : k + j + 1 < 1024) : Held 1 (k + j + 1) (s.watched.value rule * v * w) := by
  have here : Held 1 1 (s.watched.value rule) := ⟨(values rule).isFinite, values rule⟩
  have all := (here.mul left (by omega)).mul right (by omega)
  rwa [Nat.add_comm 1 k, Nat.add_right_comm] at all

/-- Each level adds the digits of its count of terms. -/
theorem held_inside (digits : b < 53) (many : (BinaryRule.all s.rules.rules).length * (stop - start) ≤ 2 ^ b)
    (small : (b + 2) * (stop - start) + 1 < 1024) :
    Held 1 ((b + 2) * (stop - start) + 1) (s.watched.plain (.inside start stop nt)) := by
  induction length : stop - start using Nat.strongRecOn generalizing start stop nt with
  | _ length ih =>
    subst length
    have shorter {start' stop' nt' : Nat} (less : stop' - start' < stop - start) :
        Held 1 ((b + 2) * (stop' - start') + 1) (s.watched.plain (.inside start' stop' nt')) := by
      apply ih _ less _ _ rfl
      · exact Nat.le_trans (Nat.mul_le_mul_left _ (Nat.le_of_lt less)) many
      · have := Nat.mul_le_mul_left (b + 2) (Nat.le_of_lt less)
        omega
    rw [plain_eq, Sentence.plainPlan]
    split
    · rename_i order
      have level : (b + 2) * (stop - start) = (b + 2) * (stop - start - 1) + (b + 2) := by
        rw [← Nat.mul_succ]
        congr 1
        omega
      have each : ∀ term ∈ s.watched.allInsideTerms start stop nt,
          Held 1 ((b + 2) * (stop - start - 1) + 3)
            (s.watched.product s.watched.plain (.inside start stop nt) term) := by
        intro term member
        rcases mem_allInsideTerms.mp member with ⟨r, -, -, m, low, high, rfl⟩
        have parts : (b + 2) * (stop - start - 1) = (b + 2) * (m - start) + (b + 2) * (stop - (m + 1)) := by
          rw [← Nat.mul_add]
          congr 1
          omega
        have exponent : (b + 2) * (stop - start - 1) + 3 =
            (b + 2) * (m - start) + 1 + ((b + 2) * (stop - (m + 1)) + 1) + 1 := by omega
        rw [exponent]
        exact held_product values (shorter (by omega)) (shorter (by omega)) (by omega)
      have terms : 0 + (s.watched.allInsideTerms start stop nt).length ≤ 2 ^ b := by
        rw [Nat.zero_add]
        exact Nat.le_trans (length_allInsideTerms start stop nt) many
      have none : Held 0 ((b + 2) * (stop - start - 1) + 3) (0 : Watched Float) := ⟨rfl, .zero 0 _⟩
      have total := none.foldl each terms digits (by omega)
      have exponent : (b + 2) * (stop - start) + 1 = (b + 2) * (stop - start - 1) + 3 + b := by omega
      rw [exponent]
      exact ⟨total.tame, total.upTo.of_count terms⟩
    · have token := held_token values start nt
      exact ⟨token.tame, token.upTo.mono (Nat.le_add_left 1 _)⟩

theorem tame_inside (digits : b < 53) (many : (BinaryRule.all s.rules.rules).length * (stop - start) ≤ 2 ^ b)
    (small : (b + 2) * (stop - start) + 1 < 1024) : s.Tame (.inside start stop nt) :=
  (held_inside values digits many small).tame

end

end StochasticGrammar
