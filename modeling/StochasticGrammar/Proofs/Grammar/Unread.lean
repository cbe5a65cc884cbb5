import StochasticGrammar.Proofs.Grammar.Registry

/-!
Parameters that no formula reads. The values of the rules are a matter of the parameters that the
grammar lists as used. Registries of the same declarations that agree in those accept and reject the
same updates, and agree in them afterwards.
-/

namespace StochasticGrammar

theorem Formula.evaluate_of_mentioned {ps other : Parameters} {f : Formula}
    (agree : ∀ name, f.Mentions name → ps.value? name = other.value? name) :
    f.evaluate ps = f.evaluate other := by
  induction f with
  | constant value => rfl
  | parameter name => simp only [evaluate, agree name .parameter]
  | negate inner ih =>
    have same := ih fun name inside => agree name (.negate inside)
    simp only [evaluate, same]
  | binary op left right ihLeft ihRight =>
    have first := ihLeft fun name inside => agree name (.left inside)
    have second := ihRight fun name inside => agree name (.right inside)
    simp only [evaluate, first, second]

namespace Parameters

/-- All of a registry but the values and the epoch. -/
def declared (ps : Parameters) : Array (String × Float × Float) :=
  ps.entries.map fun p => (p.name, p.lower, p.upper)

/-- Two registries of the same declarations, with the same values of the listed parameters. -/
structure Twins (ids : List Nat) (ps other : Parameters) : Prop where
  declared : ps.declared = other.declared
  values : ∀ id ∈ ids, (ps.get? id).map (·.value) = (other.get? id).map (·.value)

variable {ps other next : Parameters} {updates : List (Nat × Float)} {ids : List Nat}

theorem getElem?_declared (ps : Parameters) (id : Nat) :
    ps.declared[id]? = (ps.get? id).map fun p => (p.name, p.lower, p.upper) := by
  rw [declared, Array.getElem?_map, get?]

theorem value_eq_get (ps : Parameters) (name : String) :
    ps.value? name = (ps.id? name).bind fun id => (ps.get? id).map (·.value) := by
  rw [value?, Array.find?_eq_bind_findIdx?_getElem?, Option.map_bind]
  rfl

/-- Which assignment is rejected, and why, is told by the declarations. -/
theorem fault_congr (same : ps.declared = other.declared) (updates : List (Nat × Float)) :
    ps.fault? updates = other.fault? updates := by
  have each (ps : Parameters) : ps.fault? updates = updates.findSome? fun update =>
      ps.declared[update.1]?.elim (some (.unknownIndex update.1)) fun p =>
        if inBounds update.2 p.2.1 p.2.2 then none
        else some (.outOfBounds p.1 update.2 p.2.1 p.2.2) := by
    rw [fault?]
    congr 1
    funext update
    rcases update with ⟨id, value⟩
    simp only [getElem?_declared]
    cases ps.get? id <;> rfl
  rw [each, each, same]

theorem declared_of_assign (moved : next.entries = assign ps.entries updates) : next.declared = ps.declared := by
  apply Array.ext_getElem?
  intro id
  rw [getElem?_declared, getElem?_declared, get?, moved, getElem?_assign, Option.map_map]
  rfl

theorem declared_setValues (updated : ps.setValues updates = .ok next) : next.declared = ps.declared :=
  declared_of_assign (setValues_entries updated)

namespace Twins

theorem symm (twins : Twins ids ps other) : Twins ids other ps :=
  ⟨twins.declared.symm, fun id listed => (twins.values id listed).symm⟩

/-- One step: the same assignments are rejected for the same reason or accepted on both sides. -/
theorem setValues (twins : Twins ids ps other) (updates : List (Nat × Float)) :
    match ps.setValues updates, other.setValues updates with
    | .ok next, .ok next' => Twins ids next next'
    | .error fault, .error fault' => fault = fault'
    | _, _ => False := by
  have fault := fault_congr twins.declared updates
  cases rejected : ps.fault? updates with
  | some reason =>
    rw [rejected] at fault
    simp only [Parameters.setValues, rejected, ← fault]
  | none =>
    rw [rejected] at fault
    have updated : ps.setValues updates = .ok ⟨assign ps.entries updates, ps.epoch + 1⟩ := by
      simp only [Parameters.setValues, rejected]
    have updated' : other.setValues updates = .ok ⟨assign other.entries updates, other.epoch + 1⟩ := by
      simp only [Parameters.setValues, ← fault]
    simp only [updated, updated']
    constructor
    · rw [declared_setValues updated, declared_setValues updated', twins.declared]
    · intro id listed
      have same := twins.values id listed
      rw [get?_setValues updated, get?_setValues updated']
      cases assigned : assigned? updates id with
      | none => simpa using same
      | some value =>
        have present := congrArg Option.isSome same
        simp only [Option.isSome_map] at present
        cases here : ps.get? id <;> cases there : other.get? id <;> simp_all

end Twins

end Parameters

namespace Grammar

variable {d : Declarations} {g a b : Grammar}

/-- What is mentioned in a formula is listed as used. -/
theorem mem_used_of_mentions (built : d.grammar = .ok g) {f : Formula} {name : String} {id : Nat}
    (member : RuleSource.formula f ∈ g.values.sources) (mentions : f.Mentions name)
    (named : g.parameters.id? name = some id) : id ∈ g.used := by
  rcases Declarations.grammar_eq_ok_iff.mp built with ⟨stages, passes, rfl⟩
  rcases RuleValues.ofSources_eq_ok.mp passes.evaluated with ⟨parameters, sources, -⟩
  change _ ∈ stages.values.sources at member
  change stages.values.parameters.id? name = some id at named
  rw [sources, List.mem_toArray] at member
  rw [parameters] at named
  rcases Array.findIdx?_eq_some_iff_getElem.mp named with ⟨inside, same, -⟩
  have found : d.parameters.get? id = some d.parameters.entries[id] := Array.getElem?_eq_getElem inside
  have same : d.parameters.entries[id].name = name := by simpa using same
  exact Declarations.mem_usedBy.mpr ⟨_, f, found, member, same ▸ mentions⟩

/-- Grammars of the same rules whose parameters agree as far as they are used. -/
theorem values_of_used (built : d.grammar = .ok g) (update : g.UpdateOf a) (update' : g.UpdateOf b)
    (agree : ∀ id ∈ g.used, (a.parameters.get? id).map (·.value) = (b.parameters.get? id).map (·.value)) :
    a.values.values = b.values.values := by
  have each : ∀ source ∈ g.values.sources, source.evaluate a.parameters = source.evaluate b.parameters := by
    intro source member
    cases source with
    | certain => rfl
    | formula f =>
      apply Formula.evaluate_of_mentioned
      intro name mentions
      rw [Parameters.value_eq_get, Parameters.value_eq_get, Parameters.id_congr update.names,
        Parameters.id_congr update'.names]
      cases named : g.parameters.id? name with
      | none => rfl
      | some id => exact agree id (mem_used_of_mentions built member mentions named)
  have left : evaluateAll g.values.sources a.parameters = .ok a.values.values :=
    update.sources ▸ update.evaluated
  have right : evaluateAll g.values.sources b.parameters = .ok b.values.values :=
    update'.sources ▸ update'.evaluated
  rw [evaluateAll_of_each each, right] at left
  exact (Except.ok.inj left).symm

end Grammar

end StochasticGrammar
