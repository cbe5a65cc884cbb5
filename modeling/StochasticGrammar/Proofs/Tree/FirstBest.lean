import Mathlib.Data.List.Induction
import StochasticGrammar.BestParse
import StochasticGrammar.Proofs.Double.Products

/-!
Going through candidates and replacing the one that is kept by those of greater weight only. What is
kept in the end is the first of the heaviest, unless all of them weigh nothing.
-/

namespace StochasticGrammar

open Double

def keepBetter {W : Type} [Weight W] {α : Type} (find : α → Option (Best W)) (best : Option (Best W))
    (item : α) : Option (Best W) :=
  match find item with
  | none => best
  | some new => better best new

section

variable {α : Type} (find : α → Option (Best Float))

def FirstBest (items : List α) : Option (Best Float) → Prop
  | none => ∀ item ∈ items, ∀ new, find item = some new → level new.weight = 0
  | some best => ∃ before item after, items = before ++ item :: after ∧ find item = some best ∧
      0 < level best.weight ∧
      (∀ other ∈ before, ∀ new, find other = some new → level new.weight < level best.weight) ∧
      ∀ other ∈ after, ∀ new, find other = some new → level new.weight ≤ level best.weight

variable {find} {items : List α}

theorem better_none {new : Best Float} (fraction : Fraction new.weight) :
    better none new = if 0 < level new.weight then some new else none := by
  have positive : (0 : Float) < new.weight ↔ 0 < level new.weight := pos_iff_level fraction
  by_cases above : 0 < level new.weight
  · rw [if_pos above]
    exact if_pos (positive.mpr above)
  · rw [if_neg above]
    exact if_neg (mt positive.mp above)

theorem better_some {old new : Best Float} (fraction : Fraction old.weight) (fraction' : Fraction new.weight) :
    better (some old) new = if level old.weight < level new.weight then some new else some old := by
  have less : old.weight < new.weight ↔ level old.weight < level new.weight :=
    lt_iff_level fraction.1 fraction'.1
  by_cases above : level old.weight < level new.weight
  · rw [if_pos above]
    exact if_pos (less.mpr above)
  · rw [if_neg above]
    exact if_neg (mt less.mp above)

theorem FirstBest.found {best : Best Float} (first : FirstBest find items (some best)) :
    ∃ item ∈ items, find item = some best := by
  obtain ⟨before, item, after, rfl, found, -⟩ := first
  exact ⟨item, List.mem_append_right _ List.mem_cons_self, found⟩

theorem FirstBest.greatest {best : Best Float} (first : FirstBest find items (some best)) :
    ∀ item ∈ items, ∀ new, find item = some new → level new.weight ≤ level best.weight := by
  obtain ⟨before, item, after, rfl, found, -, less, atMost⟩ := first
  intro other member new found'
  rcases List.mem_append.mp member with early | late
  · exact Nat.le_of_lt (less other early new found')
  · rcases List.mem_cons.mp late with rfl | late
    · rw [found] at found'
      cases found'
      exact Nat.le_refl _
    · exact atMost other late new found'

theorem forall_snoc {item : α} {p : Best Float → Prop}
    (early : ∀ other ∈ items, ∀ new, find other = some new → p new)
    (late : ∀ new, find item = some new → p new) :
    ∀ other ∈ items ++ [item], ∀ new, find other = some new → p new := by
  intro other member new found
  rcases List.mem_append.mp member with inItems | last
  · exact early other inItems new found
  · cases List.mem_singleton.mp last
    exact late new found

/-- A candidate at the end that does not outdo the one that is kept. -/
theorem FirstBest.skip {item : α} {best : Best Float} (first : FirstBest find items (some best))
    (atMost : ∀ new, find item = some new → level new.weight ≤ level best.weight) :
    FirstBest find (items ++ [item]) (some best) := by
  rcases first with ⟨before, chosen, after, rfl, here, positive, less, rest⟩
  refine ⟨before, chosen, after ++ [item], ?_, here, positive, less, forall_snoc rest atMost⟩
  rw [List.append_assoc, List.cons_append]

/-- One more candidate at the end. -/
theorem FirstBest.snoc {kept : Option (Best Float)} {item : α} (first : FirstBest find items kept)
    (fractions : ∀ other ∈ items ++ [item], ∀ new, find other = some new → Fraction new.weight) :
    FirstBest find (items ++ [item]) (keepBetter find kept item) := by
  unfold keepBetter
  cases found : find item with
  | none =>
    have nothing : ∀ {p : Best Float → Prop}, ∀ new, find item = some new → p new := by
      intro p new found'
      rw [found] at found'
      cases found'
    cases kept with
    | none => exact forall_snoc first nothing
    | some best => exact first.skip nothing
  | some new =>
    have only : ∀ {p : Best Float → Prop}, p new → ∀ new', find item = some new' → p new' := by
      intro p holds new' found'
      rw [found] at found'
      cases found'
      exact holds
    have fraction := fractions item (List.mem_append_right _ (List.mem_singleton_self _)) new found
    cases kept with
    | none =>
      simp only [better_none fraction]
      split
      · rename_i positive
        refine ⟨items, item, [], rfl, found, positive, ?_, by simp⟩
        intro other member old found'
        rw [first other member old found']
        exact positive
      · rename_i zero
        exact forall_snoc first (only (Nat.eq_zero_of_not_pos zero))
    | some best =>
      rcases first.found with ⟨held, member, here⟩
      have fraction' := fractions held (List.mem_append_left _ member) best here
      simp only [better_some fraction' fraction]
      split
      · rename_i less
        refine ⟨items, item, [], rfl, found, Nat.zero_lt_of_lt less, ?_, by simp⟩
        intro other member old found'
        exact Nat.lt_of_le_of_lt (first.greatest other member old found') less
      · rename_i atLeast
        exact first.skip (only (Nat.le_of_not_lt atLeast))

theorem firstBest_foldl
    (fractions : ∀ item ∈ items, ∀ new, find item = some new → Fraction new.weight) :
    FirstBest find items (items.foldl (keepBetter find) none) := by
  induction items using List.reverseRecOn with
  | nil =>
    intro item member
    cases member
  | append_singleton items item ih =>
    rw [List.foldl_append, List.foldl_cons, List.foldl_nil]
    apply FirstBest.snoc
    · exact ih fun other member => fractions other (List.mem_append_left _ member)
    · exact fractions

end

end StochasticGrammar
