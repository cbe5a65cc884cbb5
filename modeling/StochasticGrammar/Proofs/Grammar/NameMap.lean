import StochasticGrammar.Proofs.Grammar.Points
import StochasticGrammar.Proofs.Stateful

/-!
A registry that keeps its names in a table of their own. Its operations change it step by step and may
fail on the way; each does to it what the operation of the same name does to the parameters, and one that
fails has changed nothing.
-/

namespace StochasticGrammar

/-- Parameters with the table by which their names are looked up. -/
structure Registry where
  params : Array Parameter := #[]
  byName : Std.HashMap String Nat := ∅
  epoch : Nat := 0

namespace Registry

/-- What changes a registry and may fail at any point, with the changes made until then. -/
abbrev Changing := ExceptT ParameterFault (StateM Registry)

def checkNew (name : String) : Changing Unit := do
  if (← get).byName.contains name then throw (.declaredTwice name)

def checkBounds (name : String) (lower upper : Float) : Changing Unit :=
  if Parameters.validBounds lower upper then return () else throw (.invalidBounds name lower upper)

def checkInBounds (name : String) (value lower upper : Float) : Changing Unit :=
  if Parameters.inBounds value lower upper then return () else throw (.outOfBounds name value lower upper)

def advance : Changing Unit := modify fun registry => { registry with epoch := registry.epoch + 1 }

def add (name : String) (value lower upper : Float) : Changing Nat := do
  checkNew name
  checkBounds name lower upper
  checkInBounds name value lower upper
  let id := (← get).params.size
  modify fun registry => { registry with params := registry.params.push ⟨name, value, lower, upper⟩ }
  modify fun registry => { registry with byName := registry.byName.insert name id }
  advance
  return id

/-- Looks for the first assignment that must not be made. -/
def check : List (Nat × Float) → Changing Unit
  | [] => return ()
  | (id, value) :: rest => do
    match (← get).params[id]? with
    | none => throw (.unknownIndex id)
    | some p => checkInBounds p.name value p.lower p.upper
    check rest

def assign : List (Nat × Float) → Changing Unit
  | [] => return ()
  | (id, value) :: rest => do
    modify fun registry => { registry with params := registry.params.modify id fun p => { p with value } }
    assign rest

def setValues (updates : List (Nat × Float)) : Changing Unit := do
  check updates
  assign updates
  advance

def value? (registry : Registry) (name : String) : Option Float :=
  registry.byName[name]?.bind fun id => registry.params[id]?.map (·.value)

def setValue (name : String) (value : Float) : Changing Unit := do
  match (← get).byName[name]? with
  | none => throw (.unknownName name)
  | some id => setValues [(id, value)]

/-- The parameters that a registry keeps, under the names that it keeps for them. -/
structure Mirrors (registry : Registry) (ps : Parameters) : Prop where
  entries : registry.params = ps.entries
  epoch : registry.epoch = ps.epoch
  names : ∀ name, registry.byName[name]? = ps.id? name

theorem check_run (updates : List (Nat × Float)) (registry : Registry) :
    check updates registry = (match Parameters.fault? ⟨registry.params, registry.epoch⟩ updates with
      | some fault => .error fault
      | none => .ok (), registry) := by
  induction updates with
  | nil => rfl
  | cons update rest ih =>
    obtain ⟨id, value⟩ := update
    rw [check, run_bind, run_get]
    cases found : registry.params[id]? with
    | none => simp [Parameters.fault?, Parameters.get?, found, run_bind]
    | some p =>
      simp only [found, checkInBounds, run_bind]
      by_cases inside : Parameters.inBounds value p.lower p.upper
      · simp [inside, ih, Parameters.fault?, Parameters.get?, found]
      · simp [inside, Parameters.fault?, Parameters.get?, found]

theorem assign_run (updates : List (Nat × Float)) (registry : Registry) :
    assign updates registry = (.ok (), { registry with params := Parameters.assign registry.params updates }) := by
  induction updates generalizing registry with
  | nil => rfl
  | cons update rest ih =>
    rw [assign, run_bind, run_modify]
    exact ih _

/-- A batch is assigned and counted, or there is a fault and nothing is. -/
theorem setValues_run (updates : List (Nat × Float)) (registry : Registry) :
    setValues updates registry = match Parameters.fault? ⟨registry.params, registry.epoch⟩ updates with
      | some fault => (.error fault, registry)
      | none => (.ok (), { registry with
          params := Parameters.assign registry.params updates, epoch := registry.epoch + 1 }) := by
  rw [setValues, run_bind, check_run]
  cases Parameters.fault? ⟨registry.params, registry.epoch⟩ updates with
  | some fault => rfl
  | none => simp [run_bind, assign_run, advance]

namespace Mirrors

theorem empty : Mirrors {} .empty where
  entries := rfl
  epoch := rfl
  names name := by simp [Parameters.id?, Parameters.empty]

variable {registry : Registry} {ps : Parameters} (mirrors : registry.Mirrors ps)

include mirrors

theorem value_eq (name : String) : registry.value? name = ps.value? name := by
  rw [value?, mirrors.names, mirrors.entries, Parameters.value?, Parameters.id?,
    Array.find?_eq_bind_findIdx?_getElem?, Option.map_bind]
  rfl

/-- The table gets the name that the parameters get, and no other. -/
theorem push {name : String} (new : ps.id? name = none) (value lower upper : Float) :
    Mirrors ⟨registry.params.push ⟨name, value, lower, upper⟩, registry.byName.insert name registry.params.size,
      registry.epoch + 1⟩ ⟨ps.entries.push ⟨name, value, lower, upper⟩, ps.epoch + 1⟩ where
  entries := by rw [mirrors.entries]
  epoch := by rw [mirrors.epoch]
  names other := by
    have pushed : (Parameters.mk (ps.entries.push ⟨name, value, lower, upper⟩) (ps.epoch + 1)).id? other =
        (ps.id? other).or (if name == other then some ps.size else none) := Array.findIdx?_push
    rw [pushed, Std.HashMap.getElem?_insert, mirrors.names, mirrors.entries]
    by_cases same : name = other
    · subst same
      simp [new, Parameters.size]
    · simp [same]

theorem checkNew_run (name : String) : checkNew name registry =
    (if (ps.id? name).isSome then .error (.declaredTwice name) else .ok (), registry) := by
  rw [checkNew, run_bind, run_get]
  simp only [← mirrors.names, Std.HashMap.isSome_getElem?_eq_contains]
  split
  · rfl
  · rfl

theorem add (name : String) (value lower upper : Float) :
    match ps.add name value lower upper with
    | .ok (id, next) =>
      ∃ later, Registry.add name value lower upper registry = (.ok id, later) ∧ later.Mirrors next
    | .error fault => Registry.add name value lower upper registry = (.error fault, registry) := by
  simp only [Parameters.add, Registry.add, run_bind, mirrors.checkNew_run, checkBounds, checkInBounds]
  by_cases declared : (ps.id? name).isSome
  · simp only [declared, if_true]
  · by_cases bounds : Parameters.validBounds lower upper
    · by_cases inside : Parameters.inBounds value lower upper
      · simp only [declared, bounds, inside, if_true, if_false, Bool.not_true, Bool.false_eq_true]
        refine ⟨_, ?_, mirrors.push (by simpa using declared) value lower upper⟩
        simp only [run_pure, run_get, run_modify, advance, mirrors.entries, Parameters.size]
      · simp [declared, bounds, inside]
    · simp [declared, bounds]

theorem setValues (updates : List (Nat × Float)) :
    match ps.setValues updates with
    | .ok next => ∃ later, Registry.setValues updates registry = (.ok (), later) ∧ later.Mirrors next
    | .error fault => Registry.setValues updates registry = (.error fault, registry) := by
  have same : (⟨registry.params, registry.epoch⟩ : Parameters) = ps := by rw [mirrors.entries, mirrors.epoch]
  rw [setValues_run, same, Parameters.setValues]
  cases ps.fault? updates with
  | some fault => rfl
  | none =>
    refine ⟨_, rfl, ?_, ?_, fun name => ?_⟩
    · rw [mirrors.entries]
    · rw [mirrors.epoch]
    · have kept : SameNames ps ⟨Parameters.assign ps.entries updates, ps.epoch + 1⟩ :=
        (Parameters.names_assign ps.entries updates).symm
      rw [mirrors.names, Parameters.id_congr kept]

theorem setValue (name : String) (value : Float) :
    match ps.setValue name value with
    | .ok next => ∃ later, Registry.setValue name value registry = (.ok (), later) ∧ later.Mirrors next
    | .error fault => Registry.setValue name value registry = (.error fault, registry) := by
  rw [Registry.setValue, run_bind, run_get, Parameters.setValue]
  simp only [mirrors.names]
  cases ps.id? name with
  | none => simp
  | some id => exact mirrors.setValues [(id, value)]

end Mirrors

end Registry

end StochasticGrammar
