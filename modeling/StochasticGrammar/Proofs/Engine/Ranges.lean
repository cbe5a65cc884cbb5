import StochasticGrammar.Proofs.Ascent.Bounded
import StochasticGrammar.Proofs.Engine.Coverage

/-!
Training keeps to the declared bounds. A search over a corpus is refused no update as long as the bounds of
the parameters have finite differences; it ends with a report and leaves all values in their bounds. The
difference of the bounds of a parameter may overflow, though, and the first probe is then minus infinity.
-/

namespace StochasticGrammar

open Double Climb

namespace Parameters

variable {ps : Parameters} {ids : List Nat} {ranges : List (String × Float × Float)} {point : List Float}
  {name : String} {lower upper value : Float}

theorem inBounds_eq_true : inBounds value lower upper = true ↔ Inside lower upper value := by
  simp only [inBounds, Inside, Bool.and_eq_true, decide_eq_true_eq, and_assoc]

theorem fault?_cons {id : Nat} (here : ps.declared[id]? = some (name, lower, upper)) (value : Float)
    (updates : List (Nat × Float)) : ps.fault? ((id, value) :: updates) =
      if inBounds value lower upper then ps.fault? updates else some (.outOfBounds name value lower upper) := by
  rw [getElem?_declared, Option.map_eq_some_iff] at here
  obtain ⟨p, found, same⟩ := here
  cases same
  rw [fault?, List.findSome?_cons]
  simp only [found]
  cases inBounds value p.lower p.upper <;> rfl

/-- Parameters with their declarations. -/
def Listed (ps : Parameters) (ids : List Nat) (ranges : List (String × Float × Float)) : Prop :=
  List.Forall₂ (fun id range => ps.declared[id]? = some range) ids ranges

theorem Listed.fault_eq_none (listed : ps.Listed ids ranges) (within : Within (ranges.map (·.2)) point) :
    ps.fault? (ids.zip point) = none := by
  unfold Listed at listed
  induction listed generalizing point with
  | nil => rfl
  | cons here rest ih =>
    cases within with
    | cons inside within =>
      rw [List.zip_cons_cons, fault?_cons here, if_pos (inBounds_eq_true.mpr inside)]
      exact ih within

/-- The one value that leaves its range is what an update is refused for. -/
theorem Listed.fault_of_outside (listed : ps.Listed ids ranges) (within : Within (ranges.map (·.2)) point)
    {coordinate : Nat} (range : ranges[coordinate]? = some (name, lower, upper))
    (outside : ¬ Inside lower upper value) :
    ps.fault? (ids.zip (point.set coordinate value)) = some (.outOfBounds name value lower upper) := by
  unfold Listed at listed
  induction listed generalizing point coordinate with
  | nil => cases range
  | cons here rest ih =>
    cases within with
    | cons inside within =>
      cases coordinate with
      | zero =>
        cases range
        rw [List.set_cons_zero, List.zip_cons_cons, fault?_cons here, if_neg (mt inBounds_eq_true.mp outside)]
      | succ coordinate =>
        rw [List.set_cons_succ, List.zip_cons_cons, fault?_cons here, if_pos (inBounds_eq_true.mpr inside)]
        exact ih within range

end Parameters

/-- The names and the bounds of the parameters of the formulas. -/
def Grammar.ranges (g : Grammar) : List (String × Float × Float) :=
  g.used.filterMap fun id => g.parameters.declared[id]?

/-- What an update is refused for that takes one of these parameters to a value out of its bounds. -/
def Grammar.refusal (g : Grammar) (coordinate : Nat) (value : Float) : Error :=
  match g.ranges[coordinate]? with
  | some (name, lower, upper) => .parameter (.outOfBounds name value lower upper)
  | none => .parameter (.unknownIndex coordinate)

/-- The first of them whose bounds have an infinite difference. -/
def Grammar.firstWide? (g : Grammar) : Option (String × Float × Float) :=
  g.ranges.find? fun (_, lower, upper) => !(upper - lower).isFinite

theorem Grammar.listed_ranges {g : Grammar} (known : ∀ id ∈ g.used, id < g.parameters.entries.size) :
    g.parameters.Listed g.used g.ranges := by
  have each {ids : List Nat} (known : ∀ id ∈ ids, id < g.parameters.entries.size) :
      g.parameters.Listed ids (ids.filterMap fun id => g.parameters.declared[id]?) := by
    induction ids with
    | nil => exact .nil
    | cons id ids ih =>
      rw [List.forall_mem_cons] at known
      have inside : id < g.parameters.declared.size := by simpa [Parameters.declared] using known.1
      have here := Array.getElem?_eq_getElem inside
      rw [List.filterMap_cons_some here]
      exact .cons here (ih known.2)
  exact each known

namespace Engine

variable {g : Grammar} {e t : Engine}

theorem bounds_eq (e : Engine) : Optimizable.bounds e = e.grammar.ranges.map (·.2) := by
  change (e.grammar.used.filterMap _).map _ = (e.grammar.used.filterMap _).map _
  rw [List.map_filterMap, List.map_filterMap]
  congr 1
  funext id
  rw [Parameters.getElem?_declared, Option.map_map, Option.map_map]
  rfl

/-- The values of a point are read back. -/
theorem Moved.values_update {d : Declarations} (built : d.grammar = .ok g) (consistent : Consistent g e)
    (used : e.grammar.used = g.used) {t' : Engine} {point : List Float} (moved : Moved g e t)
    (updated : t.updateValues point = (.ok (), t')) : Optimizable.values t' = point := by
  obtain ⟨length, used', entries⟩ := moved.entries_update updated
  obtain ⟨distinct, known⟩ := Grammar.used_of_grammar built
  have size : e.grammar.parameters.entries.size = g.parameters.entries.size := by
    simpa using congrArg Array.size consistent.grammar.names
  rw [values_eq, used', entries]
  refine Parameters.values_assign ?_ ?_ length
  · rwa [used]
  · rwa [used, size]

/-- An engine in the course of a search. -/
structure Trained (g : Grammar) (e t : Engine) : Prop where
  moved : Moved g e t
  used : t.grammar.used = g.used
  declared : t.grammar.parameters.declared = g.parameters.declared
  coherent : t.grammar.parameters.Coherent

theorem Trained.bounds_eq (trained : Trained g e t) : Optimizable.bounds t = g.ranges.map (·.2) := by
  rw [Engine.bounds_eq, Grammar.ranges, Grammar.ranges, trained.used, trained.declared]

theorem Trained.weigh (t : Engine) (string : Nat) (cell : Cell) (trained : Trained g e t) :
    Trained g e (t.weigh string cell).2 :=
  ⟨trained.moved.weigh t string cell, trained.used, trained.declared, trained.coherent⟩

theorem updateValues_cases {point : List Float} (evaluated : t.grammar.values.Evaluated)
    (length : t.grammar.used.length = point.length) :
    match t.grammar.parameters.fault? (t.grammar.used.zip point) with
    | some fault => t.updateValues point = (.error (.parameter fault), t)
    | none => ∃ t', t.updateValues point = (.ok (), t') ∧
      t.grammar.parameters.setValues (t.grammar.used.zip point) = .ok t'.grammar.parameters := by
  have cases := Grammar.setValues_cases evaluated (t.grammar.used.zip point)
  simp only [updateValues, if_pos length, setValues]
  cases found : t.grammar.parameters.fault? (t.grammar.used.zip point) with
  | some fault =>
    simp only [Parameters.setValues, found] at cases
    simp only [cases]
  | none =>
    simp only [Parameters.setValues, found] at cases ⊢
    obtain ⟨next, set, parameters⟩ := cases
    simp only [set]
    exact ⟨_, rfl, congrArg Except.ok parameters.symm⟩

section

variable {d : Declarations} (built : d.grammar = .ok g)

include built

theorem Trained.listed (trained : Trained g e t) : t.grammar.parameters.Listed t.grammar.used g.ranges := by
  have listed := Grammar.listed_ranges (Grammar.used_of_grammar built).2
  unfold Parameters.Listed at listed ⊢
  rwa [trained.used, trained.declared]

section

variable {point : List Float} (trained : Trained g e t) (within : Within (g.ranges.map (·.2)) point)

include trained within

theorem Trained.length_eq : t.grammar.used.length = point.length := by
  rw [(trained.listed built).length_eq, ← within.length_eq, List.length_map]

/-- One step: a point in the bounds is taken. -/
theorem Trained.update : ∃ t', t.updateValues point = (.ok (), t') ∧ Trained g e t' := by
  have cases := updateValues_cases trained.moved.consistent.grammar.evaluated (trained.length_eq built within)
  rw [(trained.listed built).fault_eq_none within] at cases
  obtain ⟨t', updated, set⟩ := cases
  have moved := trained.moved.update updated
  have used := moved.used.trans (trained.moved.used.symm.trans trained.used)
  exact ⟨t', updated, moved, used, (Parameters.declared_setValues set).trans trained.declared,
    trained.coherent.setValues set⟩

theorem Trained.refuse {coordinate : Nat} {lower upper value : Float}
    (range : (g.ranges.map (·.2))[coordinate]? = some (lower, upper)) (outside : ¬ Inside lower upper value) :
    t.updateValues (point.set coordinate value) = (.error (g.refusal coordinate value), t) := by
  rw [List.getElem?_map, Option.map_eq_some_iff] at range
  obtain ⟨⟨name, bounds⟩, here, rfl⟩ := range
  have length : t.grammar.used.length = (point.set coordinate value).length := by
    rw [List.length_set]
    exact trained.length_eq built within
  have cases := updateValues_cases trained.moved.consistent.grammar.evaluated length
  rw [(trained.listed built).fault_of_outside within here outside] at cases
  rw [cases, Grammar.refusal, here]

end

theorem Trained.objective (trained : Trained g e t) :
    Trained g e t.compute.2 ∧ ∃ score, judged t.compute.1 = .ok score := by
  refine ⟨keeps_compute Trained.weigh trained, ?_⟩
  cases computed : t.compute.1 with
  | ok score => exact ⟨score, rfl⟩
  | error fault =>
    have formed := Grammar.rules_wellFormed built
    obtain ⟨subject, reason, rfl⟩ :=
      Grammar.verify_eq_error ((trained.moved.consistent.compute_eq_error formed).mp computed)
    exact ⟨_, rfl⟩

theorem boxed (coherent : g.parameters.Coherent) (e : Engine) :
    Boxed (Trained g e) (g.ranges.map (·.2)) g.refusal where
  ranges range member := by
    obtain ⟨⟨name, lower, upper⟩, listed, rfl⟩ := List.mem_map.mp member
    obtain ⟨id, -, here⟩ := List.mem_filterMap.mp listed
    rw [Parameters.getElem?_declared, Option.map_eq_some_iff] at here
    obtain ⟨p, found, same⟩ := here
    cases same
    exact coherent.ordered found
  update trained within := trained.update built within
  refuse trained within range outside := ⟨_, trained.refuse built within range outside, trained⟩
  objective trained := trained.objective built

end

theorem within_values (coherent : e.grammar.parameters.Coherent) :
    Within (Optimizable.bounds e) (Optimizable.values e) := by
  change List.Forall₂ _ (e.usedParameters.map _) (e.usedParameters.map _)
  rw [List.forall₂_map_left_iff, List.forall₂_map_right_iff, List.forall₂_same]
  rintro ⟨id, p⟩ member
  obtain ⟨id', -, found⟩ := List.mem_filterMap.mp member
  obtain ⟨p', found, same⟩ := Option.map_eq_some_iff.mp found
  cases same
  exact (coherent.bounded found).2.2

theorem Trained.within (trained : Trained g e t) : Within (g.ranges.map (·.2)) (Optimizable.values t) :=
  trained.bounds_eq ▸ within_values trained.coherent

section

variable {d : Declarations} (built : d.grammar = .ok g) (trained : Trained g e e) (ascent : Ascent)
  (coherent : g.parameters.Coherent)

include built trained coherent

theorem optimize_of_narrow (narrow : ascent.maxSweeps = 0 ∨ g.firstWide? = none) :
    ∃ report final, ascent.optimize e = (.ok report, final) ∧ Trained g e final ∧
      ∀ ev ∈ ascent.record e, Within (g.ranges.map (·.2)) ev.point := by
  have same := trained.bounds_eq
  have boxed : Boxed (Trained g e) (Optimizable.bounds e) g.refusal := same ▸ boxed built coherent e
  have widths : ascent.maxSweeps = 0 ∨ ∀ range ∈ Optimizable.bounds e, (range.2 - range.1).isFinite = true := by
    refine narrow.imp_right fun none => ?_
    rw [Grammar.firstWide?, List.find?_eq_none] at none
    rw [same, List.forall_mem_map]
    intro range listed
    simpa using none range listed
  obtain ⟨report, final, ran, trained', -, record⟩ :=
    Ascent.optimize_succeeds boxed trained (within_values trained.coherent) ascent widths
  exact ⟨report, final, ran, trained', same ▸ record⟩

theorem optimize_of_wide (some : ascent.maxSweeps ≠ 0)
    {name : String} {lower upper : Float} (wide : g.firstWide? = .some (name, lower, upper)) :
    ∃ final, ascent.optimize e = (.error (.parameter (.outOfBounds name (-1.0 / 0.0) lower upper)), final) ∧
      Trained g e final ∧ ∀ ev ∈ ascent.record e, Within (g.ranges.map (·.2)) ev.point := by
  have same := trained.bounds_eq
  have boxed' : Boxed (Trained g e) (Optimizable.bounds e) g.refusal := same ▸ boxed built coherent e
  obtain ⟨infinite, before, after, split, finite⟩ := List.find?_eq_some_iff_append.mp wide
  have ranges : Optimizable.bounds e = before.map (·.2) ++ (lower, upper) :: after.map (·.2) := by
    rw [same, split, List.map_append, List.map_cons]
  have widths : ∀ range ∈ before.map (·.2), (range.2 - range.1).isFinite = true := by
    rw [List.forall_mem_map]
    intro range listed
    simpa using finite range listed
  have infinite : (upper - lower).isFinite = false := by simpa using infinite
  obtain ⟨final, ran, trained', record⟩ :=
    Ascent.optimize_fails boxed' trained (within_values trained.coherent) ascent some ranges widths infinite
  have member : (lower, upper) ∈ g.ranges.map (·.2) := by
    rw [← same, ranges]
    simp
  obtain ⟨bottom, top, order⟩ := (boxed built coherent e).ranges _ member
  have probe : leftProbe lower upper = -1.0 / 0.0 :=
    number_inj (number_leftProbe_of_wide bottom top order infinite)
  have reason : g.refusal (before.map (·.2)).length (leftProbe lower upper) =
      .parameter (.outOfBounds name (-1.0 / 0.0) lower upper) := by
    rw [Grammar.refusal, split, List.length_map, List.getElem?_append_right le_rfl, Nat.sub_self, probe]
    rfl
  rw [reason] at ran
  exact ⟨final, ran, trained', same ▸ record⟩

end

/-- The search evaluates points in the declared bounds and leaves the values in them. It succeeds unless a sweep
comes upon bounds with an infinite difference: their first probe is minus infinity, and is refused. -/
theorem optimize_stays_in_bounds {d : Declarations} (built : d.grammar = .ok g) {changes : List Parameters.Change}
    (registry : d.parameters = Parameters.empty.after changes) (session : List Request) (ascent : Ascent) :
    let e := (ofGrammar g).after session
    let bounds := g.ranges.map (·.2)
    let final := (ascent.optimize e).2
    Optimizable.bounds e = bounds ∧ (∀ ev ∈ ascent.record e, Within bounds ev.point) ∧
      Optimizable.bounds final = bounds ∧ Within bounds (Optimizable.values final) ∧
      final.grammar.parameters.Coherent ∧
      (ascent.maxSweeps = 0 ∨ g.firstWide? = none → ∃ report, (ascent.optimize e).1 = .ok report ∧
        (ascent.record e).length = report.evaluations ∧ Optimizable.values final = report.values) ∧
      ∀ name lower upper, ascent.maxSweeps ≠ 0 → g.firstWide? = some (name, lower, upper) →
        (ascent.optimize e).1 = .error (.parameter (.outOfBounds name (-1.0 / 0.0) lower upper)) := by
  intro e bounds final
  have formed := Grammar.rules_wellFormed built
  have consistent : Consistent g e := (consistent_ofGrammar built).after session
  have coherent : g.parameters.Coherent := (sampleable_after built registry []).coherent
  have trained : Trained g e e := ⟨.refl consistent, used_after g session, declared_after g session,
    (sampleable_after built registry session).coherent⟩
  refine ⟨trained.bounds_eq, ?_⟩
  by_cases narrow : ascent.maxSweeps = 0 ∨ g.firstWide? = none
  · obtain ⟨report, last, ran, trained', record⟩ := optimize_of_narrow built trained ascent coherent narrow
    obtain ⟨⟨before, moved, updated⟩, count, -⟩ :=
      Ascent.optimize_attains (steady formed consistent) (Moved.refl consistent) ran
    have values : Optimizable.values last = report.values :=
      moved.values_update built consistent trained.used updated
    simp only [final, ran]
    refine ⟨record, trained'.bounds_eq, trained'.within, trained'.coherent,
      fun _ => ⟨report, rfl, count, values⟩, ?_⟩
    intro name lower upper some wide
    rw [wide] at narrow
    exact absurd narrow (by simp [some])
  · obtain ⟨some, present⟩ := not_or.mp narrow
    obtain ⟨⟨name, lower, upper⟩, wide⟩ := Option.ne_none_iff_exists'.mp present
    obtain ⟨last, ran, trained', record⟩ := optimize_of_wide built trained ascent coherent some wide
    simp only [final, ran]
    refine ⟨record, trained'.bounds_eq, trained'.within, trained'.coherent,
      fun narrow' => absurd narrow' narrow, ?_⟩
    intro name' lower' upper' _ wide'
    rw [wide] at wide'
    cases wide'
    rfl

/-- Two probes and a step, in bounds that are close to each other, with a text whose weight is the parameter. -/
theorem close_training_stays_in_bounds :
    let e := (ofGrammar (Declarations.letterGrammar close 1)).after [.setCorpus ["a"]]
    let ascent : Ascent := ⟨1, 1e-6, 1⟩
    e.corpus.map (·.tokens) = #[#[0]] ∧ (∀ ev ∈ ascent.record e, Within [(0.999998, 1)] ev.point) ∧
      ∃ report, (ascent.optimize e).1 = .ok report ∧ (ascent.record e).length = report.evaluations ∧
        Optimizable.values (ascent.optimize e).2 = report.values := by
  intro e ascent
  have text : e.corpus.map (·.tokens) = #[#[0]] := by decide +kernel
  have ranges : (Declarations.letterGrammar close 1).ranges = [("p", 0.999998, 1)] := by decide +kernel
  have narrow : (Declarations.letterGrammar close 1).firstWide? = none := by decide +kernel
  obtain ⟨-, inside, -, -, -, succeeds, -⟩ :=
    optimize_stays_in_bounds close_grammar close_registry [.setCorpus ["a"]] ascent
  rw [ranges] at inside
  exact ⟨text, inside, succeeds (.inr narrow)⟩

/-- One sweep, over the bounds whose difference overflows. -/
theorem wide_training_rejected :
    (Declarations.letter wide).grammar = .ok (Declarations.letterGrammar wide 0.5) ∧
      wide = Parameters.empty.after [.add "p" 0.5 (-1e308) 1e308] ∧
        ((⟨1, 1e-6, 0⟩ : Ascent).optimize (ofGrammar (Declarations.letterGrammar wide 0.5))).1 =
          .error (.parameter (.outOfBounds "p" (-1.0 / 0.0) (-1e308) 1e308)) := by
  refine ⟨wide_grammar, wide_registry, ?_⟩
  have fault : (match ((⟨1, 1e-6, 0⟩ : Ascent).optimize (ofGrammar (Declarations.letterGrammar wide 0.5))).1 with
      | .error fault => decide (fault = .parameter (.outOfBounds "p" (-1.0 / 0.0) (-1e308) 1e308))
      | .ok _ => false) = true := by decide +kernel
  split at fault
  · rename_i outcome reason failed
    rw [failed, of_decide_eq_true fault]
  · cases fault

end Engine

end StochasticGrammar
