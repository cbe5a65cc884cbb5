import StochasticGrammar.Random.Source

/-!
Indices drawn at random and what is shuffled with them. The search for a word that is accepted comes to a
result only at the end of a finite run of it, in which all words before the last one were rejected.
-/

namespace StochasticGrammar

namespace RandomSource

/-- The runs of the search for a word: from a source to an index and the source after it. -/
inductive Drawing {σ : Type} (words : Words σ) (range : Nat) : σ → Nat × σ → Prop where
  | accepted {source : σ}
      (low : (words.next source).1 * range % (1 <<< words.bits) ≤ zone words.bits range) :
      Drawing words range source (((words.next source).1 * range) >>> words.bits, (words.next source).2)
  | rejected {source : σ} {result : Nat × σ}
      (high : ¬ (words.next source).1 * range % (1 <<< words.bits) ≤ zone words.bits range)
      (later : Drawing words range (words.next source).2 result) : Drawing words range source result

section

variable {σ : Type} {words : Words σ} {range : Nat} {source : σ} {result : Nat × σ}

theorem drawing_of_below (found : words.below range source = some result) :
    Drawing words range source result := by
  refine Words.below.partial_correctness words range (Drawing words range)
    (fun search ih source result step => ?_) source result found
  simp only at step
  split at step
  · rename_i low
    cases step
    exact .accepted low
  · rename_i high
    exact .rejected high (ih _ _ step)

theorem below_eq_some_iff : words.below range source = some result ↔ Drawing words range source result := by
  refine ⟨drawing_of_below, fun run => ?_⟩
  induction run with
  | accepted low =>
    rw [Words.below]
    exact if_pos low
  | rejected high _ ih =>
    rw [Words.below]
    exact (if_neg high).trans ih

/-- Words are below two to the number of their bits, and so the index is below the range. -/
theorem Drawing.lt (short : ∀ source, (words.next source).1 < 1 <<< words.bits) (positive : 0 < range)
    (run : Drawing words range source result) : result.1 < range := by
  induction run with
  | @accepted source low =>
    rw [Nat.shiftRight_eq_div_pow]
    rw [Nat.one_shiftLeft] at short
    exact Nat.div_lt_of_lt_mul (Nat.mul_lt_mul_of_pos_right (short source) positive)
  | rejected _ _ ih => exact ih

end

variable {σ α : Type} [RandomSource σ] {source last : σ}

theorem nextIndex_lt {bound index : Nat} (positive : 0 < bound)
    (drawn : nextIndex bound source = some (index, last)) : index < bound := by
  unfold nextIndex at drawn
  split at drawn
  · exact (below_eq_some_iff.mp drawn).lt (fun source => UInt32.toNat_lt _) positive
  · exact (below_eq_some_iff.mp drawn).lt (fun source => UInt64.toNat_lt _) positive

theorem shuffleFirst_perm {n : Nat} {items order : Array α}
    (shuffled : shuffleFirst n items source = some (order, last)) : order.Perm items := by
  induction n generalizing items source with
  | zero =>
    cases shuffled
    exact .refl order
  | succ n ih =>
    obtain ⟨⟨other, middle⟩, -, rest⟩ := Option.bind_eq_some_iff.mp shuffled
    apply (ih rest).trans
    rw [Array.swapIfInBounds_def]
    split
    · split
      · exact Array.swap_perm _ _
      · exact .refl items
    · exact .refl items

theorem shuffle_perm {items order : Array α} (shuffled : shuffle items source = some (order, last)) :
    order.Perm items :=
  shuffleFirst_perm shuffled

end RandomSource

end StochasticGrammar
