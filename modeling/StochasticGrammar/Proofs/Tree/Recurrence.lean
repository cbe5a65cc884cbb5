import StochasticGrammar.Proofs.Double.Order
import StochasticGrammar.Proofs.Tree.Charted

/-!
The recurrence of the best derivations. The finished chart has for every span what is made of its own
entries for the shorter ones.
-/

namespace StochasticGrammar

variable {W : Type} [Weight W] {s : Sentence W} {chart : BestChart W} {start stop nt : Nat}

/-- The spans that reach less than `reach` tokens beyond their start have what the others make of them. -/
def Sentence.Recurs (s : Sentence W) (chart : BestChart W) (reach : Nat) : Prop :=
  ∀ start stop nt, start ≤ stop → stop - start < reach → stop < s.tokens.size → nt < s.rules.nonTerminals →
    chart.get? start stop nt = if start = stop then s.bestToken start nt else s.bestSpan chart start stop nt

omit [Weight W] in
theorem get_push (row : Array (Array (Option (Best W)))) (old : stop - start < chart.size) :
    BestChart.get? (chart.push row) start stop nt = chart.get? start stop nt := by
  have same : (chart.push row)[stop - start]? = chart[stop - start]? := by
    rw [Array.getElem?_push, if_neg (Nat.ne_of_lt old)]
  unfold BestChart.get?
  rw [same]

/-- A span is made of shorter ones. -/
theorem bestSpan_congr {other : BestChart W} (same : ∀ m, start ≤ m → m < stop → ∀ nt,
      chart.get? start m nt = other.get? start m nt ∧ chart.get? (m + 1) stop nt = other.get? (m + 1) stop nt) :
    s.bestSpan chart start stop nt = s.bestSpan other start stop nt := by
  have split (r : BinaryRule) (best : Option (Best W)) :
      ∀ m ∈ List.range' start (stop - start), s.trySplit chart r start stop best m =
        s.trySplit other r start stop best m := by
    intro m member
    rw [List.mem_range'_1] at member
    have between : m < stop := by omega
    unfold Sentence.trySplit
    rw [(same m member.1 between r.left).1, (same m member.1 between r.right).2]
  have rule : s.tryRule chart start stop = s.tryRule other start stop := by
    funext best r
    unfold Sentence.tryRule
    split
    · exact List.foldl_ext _ _ _ fun best m member => split r best m member
    · rfl
  unfold Sentence.bestSpan
  rw [rule]

theorem Sentence.Recurs.push {reach : Nat} (recurs : s.Recurs chart reach) (size : chart.size = reach) :
    s.Recurs (chart.push (s.bestRow chart reach)) (reach + 1) := by
  intro start stop nt order short inside range
  have shorter : s.bestSpan (chart.push (s.bestRow chart reach)) start stop nt = s.bestSpan chart start stop nt := by
    apply bestSpan_congr
    intro m low high nt
    exact ⟨get_push _ (by omega), get_push _ (by omega)⟩
  rw [shorter]
  by_cases old : stop - start < reach
  · rw [get_push _ (by omega)]
    exact recurs start stop nt order old inside range
  · have last : stop = start + reach := by omega
    subst last
    have here : start < s.tokens.size - reach := by omega
    have row : (chart.push (s.bestRow chart reach))[reach]? = some (s.bestRow chart reach) := by
      rw [Array.getElem?_push, if_pos size.symm]
    have place : (s.bestRow chart reach)[start]? = some (Array.ofFn fun (nt : Fin s.rules.nonTerminals) =>
        if reach = 0 then s.bestToken start nt.val else s.bestSpan chart start (start + reach) nt.val) := by
      rw [Sentence.bestRow, Array.getElem?_ofFn, dif_pos here]
    simp only [BestChart.get?, Nat.add_sub_cancel_left, row, place, Option.bind_eq_bind, Option.bind_some,
      Array.getElem?_ofFn, dif_pos range]
    by_cases short : reach = 0
    · subst short
      simp only [Nat.add_zero, if_true]
    · have longer : start ≠ start + reach := by omega
      simp only [if_neg short, if_neg longer]

theorem bestChart_recurs : s.Recurs s.bestChart s.tokens.size := by
  refine bestChart_induction ?_ ?_
  · intro start stop nt order short
    exact absurd short (Nat.not_lt_zero _)
  · intro chart reach size recurs
    exact recurs.push size

section

variable {s : Sentence Float} {start stop nt : Nat} {best : Best Float}

theorem better_pos {old : Option (Best Float)} {new : Best Float} (positive : ∀ kept ∈ old, 0.0 < kept.weight)
    (found : better old new = some best) : 0.0 < best.weight := by
  unfold better at found
  split at found
  · split at found
    · cases found
      assumption
    · cases found
  · rename_i kept
    have above := positive kept rfl
    split at found
    · rename_i less
      cases found
      exact Double.pos_of_lt above less
    · cases found
      exact above

theorem keepBetter_pos {α : Type} {find : α → Option (Best Float)} {items : List α}
    (found : items.foldl (keepBetter find) none = some best) : 0.0 < best.weight := by
  induction items using List.reverseRecOn generalizing best with
  | nil => cases found
  | append_singleton items item ih =>
    rw [List.foldl_append, List.foldl_cons, List.foldl_nil, keepBetter] at found
    split at found
    · exact ih found
    · exact better_pos (fun kept same => ih same) found

/-- No entry is kept whose weight is not positive, and so none that is not a number. -/
theorem bestChart_pos (order : start ≤ stop) (inside : stop < s.tokens.size) (range : nt < s.rules.nonTerminals)
    (found : s.bestChart.get? start stop nt = some best) : 0.0 < best.weight := by
  rw [bestChart_recurs start stop nt order (by omega) inside range] at found
  split at found
  · obtain ⟨rule, -, kept⟩ := Option.bind_eq_some_iff.mp found
    exact better_pos (by simp) kept
  · by_cases enclosed : s.mayEnclose nt start stop = true
    · rw [bestSpan_eq enclosed] at found
      exact keepBetter_pos found
    · rw [Sentence.bestSpan, if_neg enclosed] at found
      cases found

end

end StochasticGrammar
