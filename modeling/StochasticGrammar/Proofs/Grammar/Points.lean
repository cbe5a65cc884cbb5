import StochasticGrammar.Proofs.Grammar.Updates

/-!
Points in the space of some parameters. An update of all of them puts the values of the point in their
places, whatever stood there before, and leaves all other parameters alone.
-/

namespace StochasticGrammar

namespace Parameters

variable {xs ys : Array Parameter} {ids : List Nat} {updates : List (Nat × Float)}

/-- The second differs from the first in values of the listed parameters at most. -/
def Differ (ids : List Nat) (xs ys : Array Parameter) : Prop :=
  ∀ i, xs[i]? = ys[i]? ∨ i ∈ ids ∧ ∃ p value, xs[i]? = some p ∧ ys[i]? = some { p with value }

theorem Differ.refl (ids : List Nat) (xs : Array Parameter) : Differ ids xs xs := fun _ => .inl rfl

theorem getElem?_move (xs : Array Parameter) (id i : Nat) (value : Float) :
    (xs.modify id fun p => { p with value })[i]? =
      if id = i then xs[i]?.map fun p => { p with value } else xs[i]? :=
  Array.getElem?_modify

/-- One step: a value of a listed parameter is moved. -/
theorem Differ.move (differ : Differ ids xs ys) {id : Nat} (listed : id ∈ ids) (value : Float) :
    Differ ids xs (ys.modify id fun p => { p with value }) := by
  intro i
  rw [getElem?_move]
  split
  · rename_i same
    subst same
    rcases differ id with equal | ⟨-, p, other, here, there⟩
    · cases found : xs[id]? with
      | none => simp [← equal, found]
      | some p => exact .inr ⟨listed, p, value, rfl, by simp [← equal, found]⟩
    · exact .inr ⟨listed, p, value, here, by simp [there]⟩
  · exact differ i

theorem Differ.assign (differ : Differ ids xs ys) (listed : ∀ update ∈ updates, update.1 ∈ ids) :
    Differ ids xs (assign ys updates) := by
  unfold Parameters.assign
  induction updates generalizing ys with
  | nil => exact differ
  | cons update updates ih =>
    rw [List.forall_mem_cons] at listed
    exact ih (differ.move listed.1 update.2) listed.2

theorem getElem?_assign_of_not_mem {id : Nat} (other : id ∉ updates.map (·.1)) :
    (assign xs updates)[id]? = xs[id]? := by
  unfold assign
  induction updates generalizing xs with
  | nil => rfl
  | cons update updates ih =>
    rw [List.map_cons, List.mem_cons, not_or] at other
    rw [List.foldl_cons, ih other.2, getElem?_move, if_neg (Ne.symm other.1)]

/-- An update of all parameters in which two registries differ makes them the same. -/
theorem Differ.assign_eq (differ : Differ (updates.map (·.1)) xs ys) :
    Parameters.assign xs updates = Parameters.assign ys updates := by
  unfold Parameters.assign
  induction updates generalizing xs ys with
  | nil =>
    apply Array.ext_getElem?
    intro i
    rcases differ i with equal | ⟨none, -⟩
    · exact equal
    · cases none
  | cons update updates ih =>
    rw [List.foldl_cons, List.foldl_cons]
    apply ih
    intro i
    rw [getElem?_move, getElem?_move]
    split
    · left
      rcases differ i with equal | ⟨-, p, value, here, there⟩
      · rw [equal]
      · rw [here, there]
        rfl
    · rename_i apart
      rcases differ i with equal | ⟨listed, both⟩
      · exact .inl equal
      · rcases List.mem_cons.mp listed with same | listed
        · exact absurd same.symm apart
        · exact .inr ⟨listed, both⟩

/-- The values that were assigned are read back. -/
theorem values_assign {point : List Float} (distinct : ids.Nodup) (known : ∀ id ∈ ids, id < xs.size)
    (length : ids.length = point.length) :
    ids.filterMap (fun id => (assign xs (ids.zip point))[id]?.map (·.value)) = point := by
  induction ids generalizing xs point with
  | nil => exact (List.length_eq_zero_iff.mp length.symm).symm
  | cons id ids ih =>
    rcases point with - | ⟨value, point⟩
    · cases length
    rw [List.nodup_cons] at distinct
    rw [List.forall_mem_cons] at known
    have length : ids.length = point.length := Nat.succ.inj length
    have other : id ∉ (ids.zip point).map (·.1) := by
      rw [List.map_fst_zip (Nat.le_of_eq length)]
      exact distinct.1
    have moved : assign xs ((id :: ids).zip (value :: point)) =
        assign (xs.modify id fun p => { p with value }) (ids.zip point) := rfl
    have here : (assign (xs.modify id fun p => { p with value }) (ids.zip point))[id]?.map (·.value) =
        some value := by
      rw [getElem?_assign_of_not_mem other, getElem?_move, if_pos rfl,
        Array.getElem?_eq_getElem known.1]
      rfl
    have known' : ∀ id' ∈ ids, id' < (xs.modify id fun p => { p with value }).size := by
      rw [Array.size_modify]
      exact known.2
    rw [moved]
    simp only [List.filterMap_cons, here]
    exact congrArg _ (ih distinct.2 known' length)

theorem setValues_entries {ps other : Parameters} (updated : ps.setValues updates = .ok other) :
    other.entries = assign ps.entries updates := by
  unfold setValues at updated
  split at updated
  · cases updated
  · cases updated
    rfl

end Parameters

namespace Grammar

variable {g other : Grammar} {updates : List (Nat × Float)}

theorem setValues_parameters (set : g.setValues updates = .ok other) :
    other.used = g.used ∧ g.parameters.setValues updates = .ok other.parameters := by
  unfold Grammar.setValues at set
  split at set
  · rename_i values changed
    cases set
    unfold RuleValues.setValues at changed
    split at changed
    · cases changed
    · rename_i ps updated
      split at changed
      · cases changed
      · cases changed
        exact ⟨rfl, updated⟩
  · cases set

theorem setValues_keeps (set : g.setValues updates = .ok other) :
    other.used = g.used ∧ other.parameters.entries = Parameters.assign g.parameters.entries updates :=
  (setValues_parameters set).imp_right Parameters.setValues_entries

/-- The parameters that occur in formulas are parameters, each of them listed once. -/
theorem used_of_grammar {d : Declarations} (built : d.grammar = .ok g) :
    g.used.Nodup ∧ ∀ id ∈ g.used, id < g.parameters.entries.size := by
  rcases Declarations.grammar_eq_ok_iff.mp built with ⟨b, passes, rfl⟩
  have parameters := (RuleValues.ofSources_eq_ok.mp passes.evaluated).1
  constructor
  · exact List.nodup_range.filter _
  · intro id member
    have inside := (List.mem_filter.mp member).1
    change id < b.values.parameters.entries.size
    rw [parameters]
    exact List.mem_range.mp inside

end Grammar

end StochasticGrammar
