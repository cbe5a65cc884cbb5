import StochasticGrammar.Proofs.Grammar.Construction
import StochasticGrammar.Proofs.Grammar.NameMap

/-!
Registries and the rule values over them, after any changes. What is known of a registry when its last
change was accepted is known of it always: a change that is rejected is no change. Whether a formula has
a value is a matter of the names of the parameters, so that values that could be found once can be found
after every update.
-/

namespace StochasticGrammar

namespace Parameters

inductive Change where
  | add (name : String) (value lower upper : Float)
  | setValue (name : String) (value : Float)
  | setValues (updates : List (Nat × Float))

def attempt (ps : Parameters) : Change → Except ParameterFault Parameters
  | .add name value lower upper => do
    let (_, next) ← ps.add name value lower upper
    return next
  | .setValue name value => ps.setValue name value
  | .setValues updates => ps.setValues updates

/-- A change that is rejected leaves the registry as it was. -/
def change (ps : Parameters) (change : Change) : Parameters := (ps.attempt change).toOption.getD ps

def after (ps : Parameters) (changes : List Change) : Parameters := changes.foldl change ps

/-- The value that a batch gives to a parameter. A later assignment overrides an earlier one. -/
def assigned? (updates : List (Nat × Float)) (id : Nat) : Option Float :=
  (updates.reverse.find? fun update => update.1 == id).map (·.2)

def Allows (p : Parameter) (value : Float) : Prop :=
  value.isFinite = true ∧ p.lower ≤ value ∧ value ≤ p.upper

/-- What holds of a registry after any changes. -/
structure Coherent (ps : Parameters) : Prop where
  distinct : (ps.entries.toList.map (·.name)).Nodup
  bounds : ∀ p ∈ ps.entries, validBounds p.lower p.upper = true
  inside : ∀ p ∈ ps.entries, inBounds p.value p.lower p.upper = true

variable {ps next : Parameters} {updates : List (Nat × Float)}

theorem inBounds_iff {p : Parameter} {value : Float} :
    inBounds value p.lower p.upper = true ↔ Allows p value := by
  simp only [inBounds, Allows, Bool.and_eq_true, decide_eq_true_eq, and_assoc]

theorem fault?_eq_none :
    ps.fault? updates = none ↔ ∀ update ∈ updates, ∃ p, ps.get? update.1 = some p ∧ Allows p update.2 := by
  rw [fault?, List.findSome?_eq_none_iff]
  apply forall₂_congr
  intro update member
  cases found : ps.get? update.1 with
  | none => simp [found]
  | some p => simp [found, inBounds_iff]

theorem setValues_isOk : (∃ next, ps.setValues updates = .ok next) ↔
    ∀ update ∈ updates, ∃ p, ps.get? update.1 = some p ∧ Allows p update.2 := by
  rw [← fault?_eq_none, setValues]
  cases ps.fault? updates with
  | none => simp
  | some fault => simp

theorem assigned?_cons (update : Nat × Float) (updates : List (Nat × Float)) (id : Nat) :
    assigned? (update :: updates) id =
      (assigned? updates id).or (if update.1 = id then some update.2 else none) := by
  simp only [assigned?, List.reverse_cons, List.find?_append, Option.map_or, List.find?_singleton, beq_iff_eq]
  split <;> rfl

/-- A batch leaves each parameter with the value that it gives it last, if it gives it any. -/
theorem getElem?_assign (entries : Array Parameter) (updates : List (Nat × Float)) (id : Nat) :
    (assign entries updates)[id]? =
      entries[id]?.map fun p => { p with value := (assigned? updates id).getD p.value } := by
  unfold assign
  induction updates generalizing entries with
  | nil => simp [assigned?]
  | cons update updates ih =>
    rw [List.foldl_cons, ih, getElem?_move, assigned?_cons]
    split
    · rw [Option.map_map]
      congr 1
      funext p
      cases assigned? updates id <;> rfl
    · simp

theorem get?_setValues (updated : ps.setValues updates = .ok next) (id : Nat) :
    next.get? id = (ps.get? id).map fun p => { p with value := (assigned? updates id).getD p.value } := by
  rw [get?, setValues_entries updated, getElem?_assign]
  rfl

/-- After a batch, every parameter is one that was there before, but for its value. -/
theorem mem_setValues (updated : ps.setValues updates = .ok next) {q : Parameter} (member : q ∈ next.entries) :
    ∃ id, ∃ p ∈ ps.entries, ps.get? id = some p ∧
      q = { p with value := (assigned? updates id).getD p.value } := by
  rcases Array.mem_iff_getElem?.mp member with ⟨id, found⟩
  rw [← get?, get?_setValues updated] at found
  rcases Option.map_eq_some_iff.mp found with ⟨p, here, rfl⟩
  exact ⟨id, p, Array.mem_of_getElem? here, here, rfl⟩

theorem mem_of_assigned {id : Nat} {value : Float} (assigned : assigned? updates id = some value) :
    (id, value) ∈ updates := by
  rcases Option.map_eq_some_iff.mp assigned with ⟨update, found, rfl⟩
  have same : update.1 = id := by simpa using List.find?_some found
  rw [← same]
  exact List.mem_reverse.mp (List.mem_of_find?_eq_some found)

theorem id_eq_none {name : String} : ps.id? name = none ↔ name ∉ ps.entries.toList.map (·.name) := by
  rw [id?, Array.findIdx?_eq_none_iff]
  simp

theorem add_eq_ok {name : String} {value lower upper : Float} {id : Nat}
    (added : ps.add name value lower upper = .ok (id, next)) :
    ps.id? name = none ∧ validBounds lower upper = true ∧ inBounds value lower upper = true ∧
      next = ⟨ps.entries.push ⟨name, value, lower, upper⟩, ps.epoch + 1⟩ := by
  unfold add at added
  split at added
  · cases added
  · rename_i new
    split at added
    · cases added
    · rename_i bounds
      split at added
      · cases added
      · rename_i inside
        cases added
        exact ⟨by simpa using new, by simpa using bounds, by simpa using inside, rfl⟩

theorem setValue_eq_ok {name : String} {value : Float} (updated : ps.setValue name value = .ok next) :
    ∃ id, ps.id? name = some id ∧ ps.setValues [(id, value)] = .ok next := by
  unfold setValue at updated
  split at updated
  · cases updated
  · rename_i id found
    exact ⟨id, found, updated⟩

/-- A change that is accepted is counted. -/
theorem epoch_attempt {change : Change} (made : ps.attempt change = .ok next) :
    next.epoch = ps.epoch + 1 := by
  cases change with
  | add name value lower upper =>
    rcases bind_eq_ok.mp made with ⟨⟨id, _⟩, added, same⟩
    cases same
    rcases add_eq_ok added with ⟨-, -, -, rfl⟩
    rfl
  | setValue name value =>
    rcases setValue_eq_ok made with ⟨id, -, updated⟩
    exact (setValues_eq_ok updated).2
  | setValues updates => exact (setValues_eq_ok made).2

/-- A change is accepted and counted, or it is no change. -/
theorem change_cases (ps : Parameters) (change : Change) :
    match ps.attempt change with
    | .ok next => ps.change change = next ∧ next.epoch = ps.epoch + 1
    | .error _ => ps.change change = ps := by
  unfold Parameters.change
  cases made : ps.attempt change with
  | error fault => rfl
  | ok next => exact ⟨rfl, epoch_attempt made⟩

/-- A registry of one parameter comes of its addition. -/
theorem after_add {name : String} {value lower upper : Float} (bounds : validBounds lower upper = true)
    (inside : inBounds value lower upper = true) :
    (⟨#[⟨name, value, lower, upper⟩], 1⟩ : Parameters) = empty.after [.add name value lower upper] := by
  have added : empty.add name value lower upper = .ok (0, ⟨#[⟨name, value, lower, upper⟩], 1⟩) := by
    simp [add, id?, empty, size, bounds, inside]
  simp only [after, List.foldl_cons, List.foldl_nil, change, attempt, added]
  rfl

namespace Coherent

theorem empty : Coherent .empty where
  distinct := List.nodup_nil
  bounds := by simp [Parameters.empty]
  inside := by simp [Parameters.empty]

variable (coherent : Coherent ps)

include coherent

theorem add {name : String} {value lower upper : Float} {id : Nat}
    (added : ps.add name value lower upper = .ok (id, next)) : Coherent next := by
  rcases add_eq_ok added with ⟨new, bounds, inside, rfl⟩
  refine ⟨?_, ?_, ?_⟩
  · rw [Array.toList_push, List.map_append, List.nodup_append]
    refine ⟨coherent.distinct, List.nodup_singleton _, fun old present other single same => ?_⟩
    cases List.mem_singleton.mp single
    rw [same] at present
    exact id_eq_none.mp new present
  · exact Array.forall_mem_push.mpr ⟨bounds, coherent.bounds⟩
  · exact Array.forall_mem_push.mpr ⟨inside, coherent.inside⟩

theorem setValues (updated : ps.setValues updates = .ok next) : Coherent next := by
  have allowed := setValues_isOk.mp ⟨next, updated⟩
  refine ⟨?_, fun q member => ?_, fun q member => ?_⟩
  · have same := congrArg Array.toList (setValues_eq_ok updated).1
    rw [Array.toList_map, Array.toList_map] at same
    rw [same]
    exact coherent.distinct
  · rcases mem_setValues updated member with ⟨id, p, present, -, rfl⟩
    exact coherent.bounds p present
  · rcases mem_setValues updated member with ⟨id, p, present, here, rfl⟩
    cases assigned : assigned? updates id with
    | none => exact coherent.inside p present
    | some value =>
      rcases allowed _ (mem_of_assigned assigned) with ⟨p', found, allows⟩
      cases here.symm.trans found
      exact inBounds_iff.mpr allows

/-- One step. -/
theorem attempt {change : Change} (made : ps.attempt change = .ok next) : Coherent next := by
  cases change with
  | add name value lower upper =>
    rcases bind_eq_ok.mp made with ⟨⟨id, _⟩, added, same⟩
    cases same
    exact coherent.add added
  | setValue name value =>
    rcases setValue_eq_ok made with ⟨id, -, updated⟩
    exact coherent.setValues updated
  | setValues updates => exact coherent.setValues made

theorem after (changes : List Change) : Coherent (ps.after changes) := by
  unfold Parameters.after
  induction changes generalizing ps with
  | nil => exact coherent
  | cons first rest ih =>
    apply ih
    unfold change
    cases made : ps.attempt first with
    | error fault => exact coherent
    | ok next => exact coherent.attempt made

theorem ordered {id : Nat} {p : Parameter} (found : ps.get? id = some p) :
    p.lower.isFinite = true ∧ p.upper.isFinite = true ∧ p.lower ≤ p.upper := by
  have bounds := coherent.bounds p (Array.mem_of_getElem? found)
  simp only [validBounds, Bool.and_eq_true, decide_eq_true_eq] at bounds
  exact ⟨bounds.1.2, bounds.2, bounds.1.1⟩

theorem bounded {id : Nat} {p : Parameter} (found : ps.get? id = some p) :
    p.lower.isFinite = true ∧ p.upper.isFinite = true ∧ Allows p p.value := by
  obtain ⟨left, right, -⟩ := coherent.ordered found
  exact ⟨left, right, inBounds_iff.mp (coherent.inside p (Array.mem_of_getElem? found))⟩

/-- Numbers and names are inverse to each other. -/
theorem id_eq_some_iff {name : String} {id : Nat} :
    ps.id? name = some id ↔ ∃ p, ps.get? id = some p ∧ p.name = name := by
  constructor
  · intro found
    rcases Array.findIdx?_eq_some_iff_getElem.mp found with ⟨inside, same, -⟩
    exact ⟨_, Array.getElem?_eq_getElem inside, by simpa using same⟩
  · intro parts
    rcases parts with ⟨p, found, rfl⟩
    cases named : ps.id? p.name with
    | none => exact absurd (List.mem_map_of_mem (Array.mem_of_getElem? found).val) (id_eq_none.mp named)
    | some other =>
      rcases Array.findIdx?_eq_some_iff_getElem.mp named with ⟨inside, same, -⟩
      have listed : other < (ps.entries.toList.map (·.name)).length := by simpa
      have equal : (ps.entries.toList.map (·.name))[other]? = (ps.entries.toList.map (·.name))[id]? := by
        rw [get?] at found
        simpa [inside, found] using same
      exact congrArg some ((List.getElem?_inj listed coherent.distinct).mp equal)

end Coherent

end Parameters

namespace Registry

open Parameters (Change)

def attempt : Change → Changing Unit
  | .add name value lower upper => do
    let _ ← add name value lower upper
  | .setValue name value => setValue name value
  | .setValues updates => setValues updates

/-- What a change leaves, whether it fails or not. -/
def change (registry : Registry) (change : Change) : Registry := (attempt change registry).2

def after (registry : Registry) (changes : List Change) : Registry := changes.foldl change registry

namespace Mirrors

variable {registry : Registry} {ps : Parameters} (mirrors : registry.Mirrors ps)

include mirrors

/-- One step. -/
theorem attempt (change : Change) :
    match ps.attempt change with
    | .ok next => ∃ later, Registry.attempt change registry = (.ok (), later) ∧ later.Mirrors next
    | .error fault => Registry.attempt change registry = (.error fault, registry) := by
  cases change with
  | add name value lower upper =>
    have added := mirrors.add name value lower upper
    rw [Parameters.attempt, Registry.attempt, run_bind]
    cases answer : ps.add name value lower upper with
    | error fault =>
      simp only [answer] at added
      rw [added]
      rfl
    | ok pair =>
      simp only [answer] at added
      obtain ⟨later, added, mirrors⟩ := added
      rw [added]
      exact ⟨later, rfl, mirrors⟩
  | setValue name value => exact mirrors.setValue name value
  | setValues updates => exact mirrors.setValues updates

theorem change (change : Change) : (registry.change change).Mirrors (ps.change change) := by
  have attempted := mirrors.attempt change
  rw [Registry.change, Parameters.change]
  cases answer : ps.attempt change with
  | error fault =>
    simp only [answer] at attempted
    rw [attempted]
    exact mirrors
  | ok next =>
    simp only [answer] at attempted
    obtain ⟨later, attempted, mirrors⟩ := attempted
    rw [attempted]
    exact mirrors

theorem after (changes : List Change) : (registry.after changes).Mirrors (ps.after changes) := by
  unfold Registry.after Parameters.after
  induction changes generalizing registry ps with
  | nil => exact mirrors
  | cons first rest ih => exact ih (mirrors.change first)

end Mirrors

end Registry

/-- A formula that has a value has one whatever the values of the parameters are. -/
theorem Formula.evaluates_of_names {ps other : Parameters} (same : SameNames ps other) {f : Formula}
    (evaluates : ∃ x, f.evaluate ps = .ok x) : ∃ x, f.evaluate other = .ok x := by
  induction f with
  | constant value => exact ⟨value, rfl⟩
  | parameter name =>
    rcases evaluates with ⟨x, evaluated⟩
    have known : (ps.value? name).isSome = true := by
      unfold evaluate at evaluated
      split at evaluated
      · rename_i value found
        rw [found]
        rfl
      · cases evaluated
    rw [Parameters.value_isSome, same, ← Parameters.value_isSome] at known
    rcases Option.isSome_iff_exists.mp known with ⟨value, found⟩
    exact ⟨value, by simp only [evaluate, found]⟩
  | negate inner ih =>
    rcases evaluates with ⟨x, evaluated⟩
    rcases bind_eq_ok.mp evaluated with ⟨a, here, -⟩
    rcases ih ⟨a, here⟩ with ⟨b, there⟩
    exact ⟨-b, by simp only [evaluate, there]; rfl⟩
  | binary op left right ihLeft ihRight =>
    rcases evaluates with ⟨x, evaluated⟩
    rcases bind_eq_ok.mp evaluated with ⟨a, first, later⟩
    rcases bind_eq_ok.mp later with ⟨b, second, -⟩
    rcases ihLeft ⟨a, first⟩ with ⟨a', first'⟩
    rcases ihRight ⟨b, second⟩ with ⟨b', second'⟩
    exact ⟨op.apply a' b', by simp only [evaluate, first', second']; rfl⟩

namespace RuleValues

/-- An update that is rejected leaves the values as they were. -/
def change (store : RuleValues) (updates : List (Nat × Float)) : RuleValues :=
  (store.setValues updates).toOption.getD store

def after (store : RuleValues) (batches : List (List (Nat × Float))) : RuleValues :=
  batches.foldl change store

variable {store next : RuleValues} {updates : List (Nat × Float)} {ps : Parameters}

namespace Evaluated

variable (evaluated : store.Evaluated)

include evaluated

theorem setValues (updated : store.parameters.setValues updates = .ok ps) :
    ∃ next, store.setValues updates = .ok next ∧ next.parameters = ps ∧ next.sources = store.sources ∧
      next.Evaluated := by
  have names := (Parameters.setValues_eq_ok updated).1
  have each : ∀ source ∈ store.sources.toList, ∃ value, source.evaluate ps = .ok value := by
    intro source member
    rcases List.mem_iff_getElem?.mp member with ⟨rule, found⟩
    rw [Array.getElem?_toList] at found
    rcases evaluated.values.2 rule source found with ⟨value, -, here⟩
    cases source with
    | certain => exact ⟨1.0, rfl⟩
    | formula f => exact f.evaluates_of_names names.symm ⟨value, here⟩
  have every : ∃ values, evaluateFrom ps 0 store.sources.toList = .ok values := evaluateFrom_isOk each
  rcases every with ⟨values, reevaluated⟩
  have all : evaluateAll store.sources ps = .ok values.toArray := by
    simp only [evaluateAll, reevaluated]
    rfl
  refine ⟨⟨ps, store.sources, values.toArray⟩, ?_, rfl, rfl, all⟩
  simp only [RuleValues.setValues, updated, all]

/-- An update of the values is an update of the parameters, and fails only as such. -/
theorem change_cases (updates : List (Nat × Float)) :
    match store.parameters.setValues updates with
    | .ok ps => ∃ next, store.setValues updates = .ok next ∧ store.change updates = next ∧
        next.parameters = ps ∧ next.sources = store.sources ∧ next.Evaluated
    | .error fault => store.setValues updates = .error (.parameter fault) ∧ store.change updates = store := by
  unfold RuleValues.change
  cases updated : store.parameters.setValues updates with
  | error fault =>
    have rejected : store.setValues updates = .error (.parameter fault) := by
      simp only [RuleValues.setValues, updated]
    exact ⟨rejected, by rw [rejected]; rfl⟩
  | ok ps =>
    rcases evaluated.setValues updated with ⟨next, made, parameters, sources, reevaluated⟩
    exact ⟨next, made, by rw [made]; rfl, parameters, sources, reevaluated⟩

theorem change (updates : List (Nat × Float)) :
    (store.change updates).Evaluated ∧ (store.change updates).sources = store.sources ∧
      (store.change updates).parameters = store.parameters.change (.setValues updates) := by
  have cases := evaluated.change_cases updates
  cases updated : store.parameters.setValues updates with
  | error fault =>
    simp only [updated] at cases
    rw [cases.2]
    refine ⟨evaluated, rfl, ?_⟩
    simp only [Parameters.change, Parameters.attempt, updated]
    rfl
  | ok ps =>
    simp only [updated] at cases
    rcases cases with ⟨next, -, changed, parameters, sources, reevaluated⟩
    rw [changed]
    refine ⟨reevaluated, sources, ?_⟩
    simp only [Parameters.change, Parameters.attempt, updated]
    exact parameters

theorem after (batches : List (List (Nat × Float))) :
    (store.after batches).Evaluated ∧ (store.after batches).sources = store.sources ∧
      (store.after batches).parameters = store.parameters.after (batches.map .setValues) := by
  unfold RuleValues.after Parameters.after
  induction batches generalizing store with
  | nil => exact ⟨evaluated, rfl, rfl⟩
  | cons updates rest ih =>
    rcases evaluated.change updates with ⟨reevaluated, sources, parameters⟩
    rcases ih reevaluated with ⟨later, sources', parameters'⟩
    rw [List.map_cons, List.foldl_cons, List.foldl_cons, ← parameters]
    exact ⟨later, sources'.trans sources, parameters'⟩

end Evaluated

end RuleValues

/-- What holds of a registry that was begun empty, and of the values of rules over it, whatever was
accepted and whatever was rejected. With a table for its names it has the same entries under the same names
and says the same of each change, and one that fails on the way leaves it as it was. The parameters below
rule values are such a registry themselves. -/
theorem registry_stays_coherent (changes : List Parameters.Change) :
    let ps := Parameters.empty.after changes
    let registry := Registry.after {} changes
    (registry.Mirrors ps ∧ ∀ change, match ps.attempt change with
        | .ok next => ∃ later, Registry.attempt change registry = (.ok (), later) ∧ later.Mirrors next
        | .error fault => Registry.attempt change registry = (.error fault, registry)) ∧
      (ps.entries.toList.map (·.name)).Nodup ∧
      (∀ name id, ps.id? name = some id ↔ ∃ p, ps.get? id = some p ∧ p.name = name) ∧
      (∀ id, (∃ p, ps.get? id = some p) ↔ id < ps.size) ∧
      (∀ id p, ps.get? id = some p →
        p.lower.isFinite = true ∧ p.upper.isFinite = true ∧ Parameters.Allows p p.value) ∧
      (∀ change, match ps.attempt change with
        | .ok next => ps.change change = next ∧ next.epoch = ps.epoch + 1
        | .error _ => ps.change change = ps) ∧
      (∀ updates, (∃ next, ps.setValues updates = .ok next) ↔
        ∀ update ∈ updates, ∃ p, ps.get? update.1 = some p ∧ Parameters.Allows p update.2) ∧
      (∀ updates next, ps.setValues updates = .ok next → ∀ id, next.get? id =
        (ps.get? id).map fun p => { p with value := (Parameters.assigned? updates id).getD p.value }) ∧
      ∀ sources store, RuleValues.ofSources ps sources = .ok store → ∀ batches,
        let now := store.after batches
        now.parameters = Parameters.empty.after (changes ++ batches.map .setValues) ∧
          now.sources = sources ∧ now.values.size = sources.size ∧
          (∀ (rule : Nat) source, sources[rule]? = some source → ∃ x, now.values[rule]? = some x ∧
            source.evaluate now.parameters = .ok x ∧ (source = .certain → x = 1.0)) ∧
          ∀ updates, match now.parameters.setValues updates with
            | .ok next => ∃ store, now.setValues updates = .ok store ∧ now.change updates = store ∧
              store.parameters = next ∧ store.epoch = now.epoch + 1
            | .error fault => now.setValues updates = .error (.parameter fault) ∧ now.change updates = now := by
  intro ps registry
  have coherent : ps.Coherent := Parameters.Coherent.empty.after changes
  have mirrors : registry.Mirrors ps := Registry.Mirrors.empty.after changes
  refine ⟨⟨mirrors, mirrors.attempt⟩, coherent.distinct, fun _ _ => coherent.id_eq_some_iff, fun id => ?_,
    fun _ _ => coherent.bounded, ps.change_cases, fun _ => Parameters.setValues_isOk,
    fun _ _ => Parameters.get?_setValues, ?_⟩
  · simp [← Option.isSome_iff_exists, Parameters.get?, Parameters.size]
  · intro sources store built batches now
    rcases RuleValues.ofSources_eq_ok.mp built with ⟨parameters, same, evaluated⟩
    rcases evaluated.after batches with ⟨reevaluated, kept, after⟩
    have reached : now.parameters = Parameters.empty.after (changes ++ batches.map .setValues) := by
      rw [after, parameters]
      simp only [ps, Parameters.after, List.foldl_append]
    rw [same] at kept
    rcases reevaluated.values with ⟨size, each⟩
    rw [kept] at size each
    refine ⟨reached, kept, size, fun rule source found => ?_, fun updates => ?_⟩
    · rcases each rule source found with ⟨x, valued, here⟩
      refine ⟨x, valued, here, fun certain => ?_⟩
      subst certain
      exact (Except.ok.inj here).symm
    · have cases := reevaluated.change_cases updates
      cases updated : now.parameters.setValues updates with
      | error fault =>
        simp only [now, updated] at cases
        exact cases
      | ok next =>
        simp only [now, updated] at cases
        rcases cases with ⟨later, made, changed, parameters, -⟩
        refine ⟨later, made, changed, parameters, ?_⟩
        rw [RuleValues.epoch, parameters]
        exact (Parameters.setValues_eq_ok updated).2

/-- Of four changes the second is rejected for its name and the last for an unknown parameter. -/
example :
    let ps := Parameters.empty.after [.add "p" 0.25 0 1, .add "p" 0.5 0 1, .setValues [(0, 0.5), (0, 0.75)],
      .setValues [(0, 0.5), (1, 0.5)]]
    ps.entries = #[⟨"p", 0.75, 0, 1⟩] ∧ ps.epoch = 2 := by decide +kernel

end StochasticGrammar
