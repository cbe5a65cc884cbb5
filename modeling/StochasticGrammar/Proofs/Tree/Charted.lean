import StochasticGrammar.Proofs.Tree.BestChart

/-!
Every tree in the chart derives its span, whatever the rules weigh. Nothing is said of which of the
derivations it is.
-/

namespace StochasticGrammar

variable {W : Type} [Weight W] {s : Sentence W}

/-- The trees of a chart derive what they stand for. -/
def Sentence.Charted (s : Sentence W) (chart : BestChart W) : Prop :=
  ∀ start reach nt best, chart.get? start (start + reach) nt = some best →
    s.Derives best.tree start (start + reach) nt

theorem better_cases {best : Option (Best W)} {new kept : Best W} (found : better best new = some kept) :
    kept = new ∨ best = some kept := by
  unfold better at found
  split at found
  · split at found
    · exact .inl (Option.some.inj found).symm
    · cases found
  · split at found
    · exact .inl (Option.some.inj found).symm
    · exact .inr found

/-- What is kept of some candidates is one of them. -/
theorem exists_of_foldl_keepBetter {α : Type} {find : α → Option (Best W)} {items : List α} {kept : Best W}
    (found : items.foldl (keepBetter find) none = some kept) : ∃ item ∈ items, find item = some kept := by
  induction items using List.reverseRecOn generalizing kept with
  | nil => cases found
  | append_singleton items item ih =>
    rw [List.foldl_append, List.foldl_cons, List.foldl_nil, keepBetter] at found
    have earlier (before : items.foldl (keepBetter find) none = some kept) :
        ∃ other ∈ items ++ [item], find other = some kept := by
      obtain ⟨other, member, same⟩ := ih before
      exact ⟨other, List.mem_append_left _ member, same⟩
    cases here : find item with
    | none =>
      rw [here] at found
      exact earlier found
    | some new =>
      rw [here] at found
      cases better_cases found with
      | inl same => exact ⟨item, List.mem_append_right _ (List.mem_singleton_self item), same ▸ here⟩
      | inr before => exact earlier before

section

variable (formed : s.rules.WellFormed)

include formed

theorem bestToken_derives {start nt : Nat} {best : Best W} (found : s.bestToken start nt = some best) :
    s.Derives best.tree start start nt := by
  obtain ⟨rule, known, kept⟩ := Option.bind_eq_some_iff.mp found
  obtain ⟨t, token, rule_eq⟩ := Option.bind_eq_some_iff.mp known
  cases better_cases kept with
  | inl same =>
    rw [same]
    exact .leaf ((RuleSet.terminalRule_eq_some_iff formed).mp rule_eq) token
  | inr none => cases none

theorem Sentence.Charted.bestSpan {chart : BestChart W} (charted : s.Charted chart) {start stop nt : Nat}
    {best : Best W} (found : s.bestSpan chart start stop nt = some best) : s.Derives best.tree start stop nt := by
  by_cases enclosed : s.mayEnclose nt start stop = true
  · rw [bestSpan_eq enclosed] at found
    obtain ⟨pair, member, made⟩ := exists_of_foldl_keepBetter found
    obtain ⟨present, -, low, high⟩ := (mem_pairs formed).mp member
    obtain ⟨-, left, right, first, second, rfl⟩ := tryPair_eq_some made
    have leftEnd : start + (pair.2 - start) = pair.2 := Nat.add_sub_cancel' low
    have rightEnd : pair.2 + 1 + (stop - (pair.2 + 1)) = stop := Nat.add_sub_cancel' high
    rw [← leftEnd] at first
    rw [← rightEnd] at second
    have leftDerives := charted start (pair.2 - start) pair.1.left left first
    have rightDerives := charted (pair.2 + 1) (stop - (pair.2 + 1)) pair.1.right right second
    rw [leftEnd] at leftDerives
    rw [rightEnd] at rightDerives
    exact .node present leftDerives rightDerives
  · rw [Sentence.bestSpan, if_neg enclosed] at found
    cases found

/-- The row of the next longer spans keeps to what it stands for. -/
theorem Sentence.Charted.push {chart : BestChart W} (charted : s.Charted chart) :
    s.Charted (chart.push (s.bestRow chart chart.size)) := by
  intro start reach nt best found
  unfold BestChart.get? at found
  rw [Nat.add_sub_cancel_left, Array.getElem?_push] at found
  split at found
  · rename_i last
    rw [last]
    obtain ⟨row, same, found⟩ := Option.bind_eq_some_iff.mp found
    cases same
    obtain ⟨cell, place, found⟩ := Option.bind_eq_some_iff.mp found
    obtain ⟨entry, slot, kept⟩ := Option.bind_eq_some_iff.mp found
    rw [Sentence.bestRow, Array.getElem?_ofFn] at place
    split at place
    · cases place
      rw [Array.getElem?_ofFn] at slot
      split at slot
      · rw [Option.some.inj slot.symm] at kept
        split at kept
        · rename_i short
          rw [short]
          exact bestToken_derives formed kept
        · exact charted.bestSpan formed kept
      · cases slot
    · cases place
  · apply charted
    unfold BestChart.get?
    rw [Nat.add_sub_cancel_left]
    exact found

theorem bestChart_charted : s.Charted s.bestChart := by
  refine bestChart_induction (P := fun chart _ => s.Charted chart) ?_ ?_
  · intro start reach nt best found
    cases found
  · rintro chart reach rfl charted
    exact charted.push formed

theorem bestParse?_derives {best : Best W} (found : s.bestParse? = some best) :
    s.Derives best.tree 0 (s.tokens.size - 1) s.rules.start := by
  unfold Sentence.bestParse? at found
  split at found
  · cases found
  · rw [← Nat.zero_add (s.tokens.size - 1)] at found ⊢
    exact bestChart_charted formed 0 (s.tokens.size - 1) s.rules.start best found

end

end StochasticGrammar
