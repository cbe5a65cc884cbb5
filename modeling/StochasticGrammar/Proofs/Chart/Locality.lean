import Mathlib.Data.List.Forall2
import StochasticGrammar.Proofs.Chart.Plain
import StochasticGrammar.Proofs.Chart.Settled

/-!
What the weight of a cell depends on. An inside weight is fixed by the tokens of its span, wherever
the span stands and whatever is around it; an outside weight by the tokens before and after the span,
whatever the span covers. The same rules over two texts are compared cell by cell, and each term with
the term that has the same rule and its cells in the same places relative to the span.
-/

namespace StochasticGrammar

namespace Sentence

variable {W : Type}

/-- The rules of the sentence over another text. -/
def reading (s : Sentence W) (text : Array Nat) : Sentence W := { s with tokens := text }

/-- Cells that depend on the same tokens, the first in the text of the sentence and the second in
another text. The spans of outside cells begin at the same position, and as many tokens follow them. -/
inductive Alike (s : Sentence W) (text : Array Nat) : Cell → Cell → Prop where
  | inside (reach : Nat) {start stop start' stop' nt : Nat} (ends : stop = start + reach)
      (ends' : stop' = start' + reach) (span : ∀ k ≤ reach, s.tokens[start + k]? = text[start' + k]?) :
      Alike s text (.inside start stop nt) (.inside start' stop' nt)
  | outside {start stop stop' nt : Nat} (order : start ≤ stop) (order' : start ≤ stop')
      (within : stop < s.tokens.size) (rest : s.tokens.size - stop = text.size - stop')
      (before : ∀ i < start, s.tokens[i]? = text[i]?)
      (after : ∀ k, s.tokens[stop + 1 + k]? = text[stop' + 1 + k]?) :
      Alike s text (.outside start stop nt) (.outside start stop' nt)

structure AlikeTerm (s : Sentence W) (text : Array Nat) (term term' : Term) : Prop where
  rule : term.rule = term'.rule
  first : s.Alike text term.first term'.first
  second : s.Alike text term.second term'.second

end Sentence

/-- A loop over the same items on both sides. -/
theorem forall₂_flatMap {α β γ : Type} {R : β → γ → Prop} {items : List α} {f : α → List β}
    {f' : α → List γ} (each : ∀ item ∈ items, List.Forall₂ R (f item) (f' item)) :
    List.Forall₂ R (items.flatMap f) (items.flatMap f') := by
  induction items with
  | nil => exact .nil
  | cons item items ih =>
    rw [List.forall_mem_cons] at each
    exact List.rel_append each.1 (ih each.2)

/-- A loop over as many positions, from one beginning and from another. -/
theorem forall₂_range' (start start' count : Nat) :
    List.Forall₂ (fun m m' => ∃ k < count, m = start + k ∧ m' = start' + k)
      (List.range' start count) (List.range' start' count) := by
  rw [range'_eq_map, range'_eq_map, List.forall₂_map_left_iff, List.forall₂_map_right_iff,
    List.forall₂_same]
  intro k _
  exact ⟨k, k.isLt, rfl, rfl⟩

section

variable {W : Type} {s : Sentence W} {text : Array Nat} {start start' stop stop' reach nt : Nat}

theorem within_alike {cell cell' : Cell} (alike : s.Alike text cell cell') :
    s.Within cell ↔ (s.reading text).Within cell' := by
  cases alike with
  | @inside reach start stop start' stop' nt ends ends' span =>
    have last : s.tokens.size ≤ start + reach ↔ text.size ≤ start' + reach := by
      rw [← Array.getElem?_eq_none_iff, span reach (Nat.le_refl _), Array.getElem?_eq_none_iff]
    simp only [Sentence.Within, SpanGrid.Holds, Sentence.grid, Sentence.reading]
    omega
  | outside order order' within rest before after =>
    simp only [Sentence.Within, SpanGrid.Holds, Sentence.grid, Sentence.reading]
    omega

theorem mayCover_alike (alike : s.Alike text (.inside start stop nt) (.inside start' stop' nt)) :
    s.mayCover nt start stop = (s.reading text).mayCover nt start' stop' := by
  rcases alike with ⟨reach, rfl, rfl, span⟩
  have begins := span 0 (Nat.zero_le _)
  have ends := span reach (Nat.le_refl _)
  have single : (start == start + reach) = (start' == start' + reach) := by simp
  simp only [Nat.add_zero] at begins
  simp only [Sentence.mayCover, Sentence.reading, begins, ends, single]

theorem splits_alike (long : 0 < reach) (r : BinaryRule) :
    List.Forall₂ (fun m m' => ∃ k < reach, m = start + k ∧ m' = start' + k)
      (s.splits r start (start + reach)) ((s.reading text).splits r start' (start' + reach)) := by
  unfold Sentence.splits
  change List.Forall₂ _ _ (if s.rules.isSingle r.left then [start']
    else if s.rules.isSingle r.right then [start' + reach - 1]
    else List.range' start' (start' + reach - start'))
  split
  · exact .cons ⟨0, long, rfl, rfl⟩ .nil
  · split
    · exact .cons ⟨reach - 1, by omega, by omega, by omega⟩ .nil
    · rw [Nat.add_sub_cancel_left, Nat.add_sub_cancel_left]
      exact forall₂_range' start start' reach

theorem insideTerms_alike (long : 0 < reach)
    (span : ∀ k ≤ reach, s.tokens[start + k]? = text[start' + k]?) :
    List.Forall₂ (s.AlikeTerm text) (s.insideTerms start (start + reach) nt)
      ((s.reading text).insideTerms start' (start' + reach) nt) := by
  apply forall₂_flatMap
  intro r _
  have left {k : Nat} (less : k < reach) :
      s.Alike text (.inside start (start + k) r.left) (.inside start' (start' + k) r.left) :=
    .inside k rfl rfl fun j atMost => span j (by omega)
  have right {k : Nat} (less : k < reach) :
      s.Alike text (.inside (start + k + 1) (start + reach) r.right)
        (.inside (start' + k + 1) (start' + reach) r.right) := by
    refine .inside (reach - (k + 1)) (by omega) (by omega) fun j atMost => ?_
    have piece := span (k + 1 + j) (by omega)
    simpa only [Nat.add_assoc] using piece
  rw [List.forall₂_map_left_iff, List.forall₂_map_right_iff]
  refine List.Forall₂.imp ?_ (List.rel_filter ?_ (splits_alike long r))
  · intro m m' same
    rcases same with ⟨k, less, rfl, rfl⟩
    exact ⟨rfl, left less, right less⟩
  · intro m m' same
    rcases same with ⟨k, less, rfl, rfl⟩
    simp only [mayCover_alike (left less), mayCover_alike (right less)]

section

variable (order : start ≤ stop) (order' : start ≤ stop') (within : stop < s.tokens.size)
  (rest : s.tokens.size - stop = text.size - stop') (before : ∀ i < start, s.tokens[i]? = text[i]?)
  (after : ∀ k, s.tokens[stop + 1 + k]? = text[stop' + 1 + k]?)

include order order' within rest before after

theorem rightTerms_alike : List.Forall₂ (s.AlikeTerm text) (s.rightTerms start stop nt)
    ((s.reading text).rightTerms start stop' nt) := by
  apply forall₂_flatMap
  intro r _
  have count : s.tokens.size - (stop + 1) = text.size - (stop' + 1) := by omega
  have sibling (k : Nat) : s.Alike text (.inside (stop + 1) (stop + 1 + k) r.right)
      (.inside (stop' + 1) (stop' + 1 + k) r.right) := .inside k rfl rfl fun j _ => after j
  have parent {k : Nat} (less : k < s.tokens.size - (stop + 1)) :
      s.Alike text (.outside start (stop + 1 + k) r.lhs) (.outside start (stop' + 1 + k) r.lhs) := by
    refine .outside (by omega) (by omega) (by omega) (by omega) before fun j => ?_
    have piece := after (k + 1 + j)
    simpa only [Nat.add_assoc] using piece
  have ends : List.Forall₂ (fun e e' => ∃ k < s.tokens.size - (stop + 1), e = stop + 1 + k ∧ e' = stop' + 1 + k)
      (s.rightEnds r stop) ((s.reading text).rightEnds r stop') := by
    unfold Sentence.rightEnds
    change List.Forall₂ _ _ (List.range' (stop' + 1) (if s.rules.isSingle r.right then
      min 1 (text.size - (stop' + 1)) else text.size - (stop' + 1)))
    simp only [← count]
    refine List.Forall₂.imp ?_ (forall₂_range' _ _ _)
    intro e e' same
    rcases same with ⟨k, less, rfl, rfl⟩
    refine ⟨k, ?_, rfl, rfl⟩
    split at less <;> omega
  rw [List.forall₂_map_left_iff, List.forall₂_map_right_iff]
  refine List.Forall₂.imp ?_ (List.rel_filter ?_ ends)
  · intro e e' same
    rcases same with ⟨k, less, rfl, rfl⟩
    exact ⟨rfl, sibling k, parent less⟩
  · intro e e' same
    rcases same with ⟨k, -, rfl, rfl⟩
    simp only [mayCover_alike (sibling k)]

theorem leftTerms_alike : List.Forall₂ (s.AlikeTerm text) (s.leftTerms start stop nt)
    ((s.reading text).leftTerms start stop' nt) := by
  apply forall₂_flatMap
  intro r _
  have sibling {b : Nat} (less : b < start) :
      s.Alike text (.inside b (start - 1) r.left) (.inside b (start - 1) r.left) :=
    .inside (start - 1 - b) (by omega) (by omega) fun j _ => before (b + j) (by omega)
  have parent {b : Nat} (less : b < start) : s.Alike text (.outside b stop r.lhs) (.outside b stop' r.lhs) :=
    .outside (by omega) (by omega) within rest (fun i early => before i (by omega)) after
  have begins : List.Forall₂ (fun b b' => b < start ∧ b = b') (s.leftEnds r start)
      ((s.reading text).leftEnds r start) :=
    List.forall₂_same.mpr fun b member => ⟨mem_leftEnds member, rfl⟩
  rw [List.forall₂_map_left_iff, List.forall₂_map_right_iff]
  refine List.Forall₂.imp ?_ (List.rel_filter ?_ begins)
  · intro b b' same
    rcases same with ⟨less, rfl⟩
    exact ⟨rfl, sibling less, parent less⟩
  · intro b b' same
    rcases same with ⟨less, rfl⟩
    simp only [mayCover_alike (sibling less)]

theorem mayStand_alike : s.mayStand nt start stop = (s.reading text).mayStand nt start stop' := by
  have last : (stop + 1 == s.tokens.size) = (stop' + 1 == text.size) := by
    rw [Bool.eq_iff_iff, beq_iff_eq, beq_iff_eq]
    omega
  have next := after 0
  simp only [Nat.add_zero] at next
  unfold Sentence.mayStand
  rw [last, next]
  rcases Nat.eq_zero_or_pos start with rfl | some
  · rfl
  · rw [before (start - 1) (by omega)]
    rfl

end

end

section

variable {W : Type} [Weight W] {s : Sentence W} {text : Array Nat} {cell cell' : Cell}

/-- What a cell adds up is placed alike, term by term. -/
theorem plan_alike (alike : s.Alike text cell cell') :
    (s.plan cell).base = ((s.reading text).plan cell').base ∧
      (s.plan cell).constant = ((s.reading text).plan cell').constant ∧
      List.Forall₂ (s.AlikeTerm text) (s.plan cell).terms ((s.reading text).plan cell').terms := by
  cases alike with
  | @inside reach start stop start' stop' nt ends ends' span =>
    have cover := mayCover_alike (.inside reach ends ends' span : s.Alike text (.inside start stop nt) _)
    have token : (s.tokens[start]?).bind (s.rules.terminalRule? nt) =
        ((s.reading text).tokens[start']?).bind ((s.reading text).rules.terminalRule? nt) := by
      have first := span 0 (Nat.zero_le _)
      simp only [Nat.add_zero] at first
      rw [first]
      rfl
    simp only [Sentence.plan, cover, token]
    split
    · exact ⟨rfl, rfl, .nil⟩
    · rcases Nat.eq_zero_or_pos reach with none | long
      · rw [if_neg (by omega), if_neg (by omega)]
        split
        · exact ⟨rfl, rfl, .nil⟩
        · exact ⟨rfl, rfl, .nil⟩
      · rw [if_pos (by omega), if_pos (by omega)]
        subst ends ends'
        exact ⟨rfl, rfl, insideTerms_alike long span⟩
  | @outside start stop stop' nt order order' within rest before after =>
    have stands : s.mayStand nt start stop = (s.reading text).mayStand nt start stop' :=
      mayStand_alike order order' within rest before after
    have full : start = 0 ∧ stop + 1 = s.tokens.size ↔ start = 0 ∧ stop' + 1 = (s.reading text).tokens.size := by
      simp only [Sentence.reading]
      omega
    simp only [Sentence.plan, full, stands]
    split
    · exact ⟨rfl, rfl, .nil⟩
    · split
      · exact ⟨rfl, rfl, .nil⟩
      · refine ⟨rfl, rfl, List.rel_append ?_ ?_⟩
        · exact rightTerms_alike order order' within rest before after
        · exact leftTerms_alike order order' within rest before after

theorem addKnown_alike (alike : s.Alike text cell cell') {read read' : Cell → W × Bool} {total : W × Bool}
    {term term' : Term} (rule : term.rule = term'.rule) (first : read term.first = read' term'.first)
    (second : read term.second = read' term'.second) :
    s.addKnown read cell total term = (s.reading text).addKnown read' cell' total term' := by
  simp only [Sentence.addKnown, rule, first, second]
  cases alike <;> rfl

/-- Cells that depend on the same tokens weigh the same, and are both constant or both not. -/
theorem settled_alike (alike : s.Alike text cell cell') : s.settled cell = (s.reading text).settled cell' := by
  induction rank : cell.rank s.tokens.size using Nat.strongRecOn generalizing cell cell' with
  | _ rank ih =>
    subst rank
    by_cases within : s.Within cell
    · obtain ⟨base, constant, terms⟩ := plan_alike alike
      have reads : List.Forall₂ (fun term term' => term.rule = term'.rule ∧
          s.settled term.first = (s.reading text).settled term'.first ∧
          s.settled term.second = (s.reading text).settled term'.second)
          (s.plan cell).terms ((s.reading text).plan cell').terms := by
        refine List.Forall₂.imp ?_ ((List.forall₂_and_left _ _).mpr ⟨fun _ => plan_rank within, terms⟩)
        intro term term' both
        rcases both with ⟨lower, placed⟩
        exact ⟨placed.rule, ih _ lower.1 placed.first rfl, ih _ lower.2 placed.second rfl⟩
      have sums : s.total s.settled cell = (s.reading text).total (s.reading text).settled cell' := by
        simp only [Sentence.total, base, constant]
        refine List.rel_foldl (P := Eq) ?_ rfl reads
        intro total total' same term term' read
        subst same
        exact addKnown_alike alike read.1 read.2.1 read.2.2
      rw [settled_eq within, settled_eq ((within_alike alike).mp within), sums]
    · rw [settled_of_not_within within, settled_of_not_within (mt (within_alike alike).mpr within)]

end

end StochasticGrammar
