import StochasticGrammar.Proofs.Tree.Constancy

/-!
Inside weights and the derivations that they add up, side by side. The terms of a span that are left out
of its sum have no derivations, so that a sum that grows term by term has, at each moment, taken in the
derivations of the terms behind it, and at its end those of the whole span.
-/

namespace StochasticGrammar

section

variable {s : Sentence Float} {P : Float → List Derivation → Prop}

theorem unsigned_addKnown {read : Cell → Float × Bool} {cell : Cell} {total : Float × Bool} {term : Term}
    (unsigned : Unsigned total.1) : Unsigned (s.addKnown read cell total term).1 := by
  rw [Sentence.addKnown_eq]
  split
  · exact unsigned
  · exact TameWeight.unsigned_add unsigned _

theorem foldl_induction {read : Cell → Float × Bool} {cell : Cell} {terms : List Term} {total : Float × Bool}
    {trees : List Derivation} (unsigned : Unsigned total.1) (holds : P total.1 trees)
    (step : ∀ term ∈ terms, ∀ {total : Float × Bool} {trees}, Unsigned total.1 → P total.1 trees →
      P (s.addKnown read cell total term).1 (trees ++ s.joined term)) :
    P (terms.foldl (s.addKnown read cell) total).1 (trees ++ terms.flatMap s.joined) := by
  induction terms generalizing total trees with
  | nil =>
    rw [List.flatMap_nil, List.append_nil]
    exact holds
  | cons term terms ih =>
    rw [List.flatMap_cons, ← List.append_assoc]
    exact ih (unsigned_addKnown unsigned) (step term List.mem_cons_self unsigned holds)
      fun other member => step other (List.mem_cons_of_mem _ member)

variable (formed : s.rules.WellFormed)

include formed

/-- The derivations of a span are those of the terms that its sum keeps. -/
theorem flatMap_plan {start stop nt : Nat} (within : s.Within (.inside start stop nt))
    (possible : s.possible (.inside start stop nt) = true) (order : start < stop) :
    (s.plan (.inside start stop nt)).terms.flatMap s.joined = s.derivations start stop nt := by
  have all : (s.plainPlan (.inside start stop nt)).terms = s.allInsideTerms start stop nt := by
    rw [Sentence.plainPlan, if_pos order]
  rw [(plan_eq formed possible).1, derivations_of_lt order, ← all]
  apply flatMap_kept formed within fun _ member => member
  intro term member empty
  rw [all] at member
  rcases mem_allInsideTerms.mp member with ⟨r, -, -, m, -, -, rfl⟩
  rw [← ways_joined _ ⟨_, _, _, rfl⟩ ⟨_, _, _, rfl⟩] at empty
  exact List.map_eq_nil_iff.mp empty

/-- What holds of nothing and of single rules and is kept by every term holds of the weight of every span
and its derivations. -/
theorem inside_induction (none : P 0.0 []) (leaf : ∀ rule, P (s.value rule) [.leaf rule])
    (remember : ∀ {x trees} constant, P x trees → P (remembered x constant).1 trees)
    (step : ∀ {rule start m stop nt a b} {total : Float × Bool} {trees}, s.Within (.inside start m a) →
      s.Within (.inside (m + 1) stop b) → Unsigned total.1 → P total.1 trees →
      P (s.settled (.inside start m a)).1 (s.derivations start m a) →
      P (s.settled (.inside (m + 1) stop b)).1 (s.derivations (m + 1) stop b) →
      P (s.addKnown s.settled (.inside start stop nt) total
        ⟨rule, .inside start m a, .inside (m + 1) stop b⟩).1
          (trees ++ s.joined ⟨rule, .inside start m a, .inside (m + 1) stop b⟩))
    {start stop nt : Nat} (within : s.Within (.inside start stop nt)) :
    P (s.settled (.inside start stop nt)).1 (s.derivations start stop nt) := by
  induction length : stop - start using Nat.strongRecOn generalizing start stop nt with
  | _ length ih =>
    subst length
    rw [settled_eq within]
    apply remember
    cases possible : s.possible (.inside start stop nt) with
    | false =>
      have empty : s.derivations start stop nt = [] :=
        List.map_eq_nil_iff.mp (ways_of_impossible formed within possible)
      rw [Sentence.total, plan_of_impossible possible, empty]
      exact none
    | true =>
      have cover : s.mayCover nt start stop = true := possible
      rw [Sentence.total]
      rcases Nat.eq_or_lt_of_le within.1 with rfl | order
      · simp only [Sentence.plan, cover, Bool.not_true, Bool.false_eq_true, if_false,
          if_neg (Nat.lt_irrefl start)]
        rw [derivations_token formed]
        cases (s.tokens[start]?).bind (s.rules.terminalRule? nt) with
        | none => exact none
        | some rule => exact leaf rule
      · have base : (s.plan (.inside start stop nt)).base = 0.0 := by
          simp only [Sentence.plan, cover, Bool.not_true, Bool.false_eq_true, if_false, if_pos order]
          rfl
        rw [← flatMap_plan formed within possible order, ← List.nil_append (List.flatMap _ _), base]
        apply foldl_induction unsigned_zero none
        intro term member total trees unsigned holds
        have member : term ∈ (s.plainPlan (.inside start stop nt)).terms :=
          List.mem_of_mem_filter ((plan_eq formed possible).1 ▸ member)
        obtain ⟨⟨first, -⟩, second, -⟩ := plainPlan_rank formed within member
        rw [Sentence.plainPlan, if_pos order] at member
        rcases mem_allInsideTerms.mp member with ⟨r, -, -, m, low, high, rfl⟩
        exact step first second unsigned holds (ih _ (by omega) first rfl) (ih _ (by omega) second rfl)

end

end StochasticGrammar
