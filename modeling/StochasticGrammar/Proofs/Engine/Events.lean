import StochasticGrammar.Proofs.Chart.Stores
import StochasticGrammar.Proofs.Engine.Objective

/-!
What an engine does to its grammar and its tables, as a log. An engine after a session is where its log
leads, event by event, and each event could happen when it did: a cell is stored only while it is not
known, with its settled weight, and tables expire only when they are of another epoch.
-/

namespace StochasticGrammar

inductive Event where
  | loaded (corpus : Array CorpusString)
  | updated (grammar : Grammar)
  /-- The tables of all strings are invalidated. -/
  | reset
  /-- The tables of a string are invalidated, as they are of another epoch. -/
  | expired (string : Nat)
  | stored (string : Nat) (stored : Stored Float)

namespace Engine

/-- The engine with other tables for a string, and with other counters. -/
def put (e : Engine) (string : Nat) (s : CorpusString) (work : Work Float) : Engine :=
  { e with corpus := e.corpus.setIfInBounds string { s with tables := work.tables }, counters := work.counters }

def apply (e : Engine) : Event → Engine
  | .loaded corpus => { grammar := e.grammar, corpus }
  | .updated grammar => { e with grammar }
  | .reset => e.resetTables
  | .expired string =>
    match e.corpus[string]? with
    | none => e
    | some s => e.put string s ⟨s.tables.sync e.grammar.epoch, e.counters⟩
  | .stored string ⟨cell, value, constant⟩ =>
    match e.corpus[string]? with
    | none => e
    | some s => e.put string s ((e.grammar.sentence s.tokens).record ⟨s.tables, e.counters⟩ cell value constant)

/-- Whether an event can happen. -/
def Allows (e : Engine) : Event → Prop
  | .loaded corpus => ∃ strings, readStrings e.grammar strings = .ok corpus.toList
  | .updated grammar => ∃ updates, e.grammar.setValues updates = .ok grammar
  | .reset => True
  | .expired string => ∃ s, e.corpus[string]? = some s ∧ ¬ s.tables.EpochsAre (some e.grammar.epoch)
  | .stored string ⟨cell, value, constant⟩ => ∃ s, e.corpus[string]? = some s ∧
      s.tables.EpochsAre (some e.grammar.epoch) ∧ (e.grammar.sentence s.tokens).known? s.tables cell = none ∧
      remembered value constant = (e.grammar.sentence s.tokens).settled cell

/-- A log that leads from one engine to another. -/
inductive Replays : Engine → List Event → Engine → Prop where
  | nil {e : Engine} : Replays e [] e
  | cons {e e' : Engine} {event : Event} {log : List Event} (allowed : e.Allows event)
      (rest : Replays (e.apply event) log e') : Replays e (event :: log) e'

instance {W : Type} (tables : Tables W) (epoch : Option Nat) : Decidable (tables.EpochsAre epoch) :=
  inferInstanceAs (Decidable (_ ∧ _))

def weighEvents (string : Nat) (cell : Cell) (e : Engine) : List Event :=
  match e.corpus[string]? with
  | none => []
  | some s =>
    let p := e.grammar.sentence s.tokens
    let stored := (p.stores ⟨s.tables.sync e.grammar.epoch, e.counters⟩ [cell]).map (.stored string)
    if s.tables.EpochsAre (some e.grammar.epoch) then stored else .expired string :: stored

def insideEvents (start stop string nt : Nat) (e : Engine) : List Event :=
  match e.checkSpan start stop string nt with
  | .error _ => []
  | .ok () => e.weighEvents string (.inside start stop nt)

def outsideEvents (start stop string nt : Nat) (e : Engine) : List Event :=
  match e.checkSpan start stop string nt with
  | .error _ => []
  | .ok () => e.weighEvents string (.outside start stop nt)

def probabilityEvents (string : Nat) (e : Engine) : List Event :=
  match e.length? string with
  | .error _ => []
  | .ok length => e.insideEvents 0 (length - 1) string e.grammar.rules.start

def sumEvents : List Nat → Engine → List Event
  | [], _ => []
  | string :: rest, e => e.probabilityEvents string ++
    match e.stringProbability string with
    | (.error _, _) => []
    | (.ok _, e) => sumEvents rest e

def updateEvents (updates : List (Nat × Float)) (e : Engine) : List Event :=
  match e.grammar.setValues updates with
  | .error _ => []
  | .ok grammar => [.updated grammar]

def events (request : Request) (e : Engine) : List Event :=
  match request with
  | .setCorpus strings =>
    match readStrings e.grammar strings with
    | .error _ => []
    | .ok corpus => [.loaded corpus.toArray]
  | .setValues updates => e.updateEvents updates
  | .updateValues values =>
    if e.grammar.used.length = values.length then e.updateEvents (e.grammar.used.zip values) else []
  | .resetTables => [.reset]
  | .inside start stop string nt => e.insideEvents start stop string nt
  | .outside start stop string nt => e.outsideEvents start stop string nt
  | .stringProbability string => e.probabilityEvents string
  | .logLikelihood => e.sumEvents (List.range e.corpus.size)
  | .compute =>
    match e.grammar.verify with
    | .error _ => []
    | .ok () => e.sumEvents (List.range e.corpus.size)
  | .bestParse _ => []

/-- All that is done in a session. -/
def log (e : Engine) : List Request → List Event
  | [] => []
  | request :: rest => e.events request ++ (e.answer request).2.log rest

variable {g : Grammar} {e e' e'' : Engine} {events later : List Event}

theorem put_self {string : Nat} {s : CorpusString} (found : e.corpus[string]? = some s) :
    e.put string s ⟨s.tables, e.counters⟩ = e := by
  rcases Array.getElem?_eq_some_iff.mp found with ⟨inside, rfl⟩
  have same : e.corpus.setIfInBounds string e.corpus[string] = e.corpus := by
    rw [Array.setIfInBounds, dif_pos inside, Array.set_getElem_self]
  exact congrArg (fun corpus => { e with corpus }) same

theorem getElem?_put {string : Nat} {s : CorpusString} (found : e.corpus[string]? = some s) (work : Work Float) :
    (e.put string s work).corpus[string]? = some { s with tables := work.tables } :=
  Array.getElem?_setIfInBounds_self_of_lt (Array.getElem?_eq_some_iff.mp found).1

theorem getElem?_put_ne {string other : Nat} (different : string ≠ other) (s : CorpusString) (work : Work Float) :
    (e.put string s work).corpus[other]? = e.corpus[other]? :=
  Array.getElem?_setIfInBounds_ne different

theorem put_put (e : Engine) (string : Nat) (s : CorpusString) (work work' : Work Float) :
    (e.put string s work).put string { s with tables := work.tables } work' = e.put string s work' := by
  simp only [put, Array.setIfInBounds_setIfInBounds]

namespace Replays

theorem append (first : Replays e events e') (second : Replays e' later e'') :
    Replays e (events ++ later) e'' := by
  induction first with
  | nil => exact second
  | cons allowed _ ih => exact .cons allowed (ih second)

theorem split (replays : Replays e (events ++ later) e'') : ∃ e', Replays e events e' ∧ Replays e' later e'' := by
  induction events generalizing e with
  | nil => exact ⟨e, .nil, replays⟩
  | cons event events ih =>
    cases replays with
    | cons allowed rest =>
      rcases ih rest with ⟨e', first, second⟩
      exact ⟨e', .cons allowed first, second⟩

theorem single {event : Event} (allowed : e.Allows event) : Replays e [event] (e.apply event) := .cons allowed .nil

/-- What every event of a kind keeps is kept by a log of them. -/
theorem keeps {P : Engine → Prop} {K : Event → Prop}
    (step : ∀ e event, P e → e.Allows event → K event → P (e.apply event)) (replays : Replays e events e')
    (kind : ∀ event ∈ events, K event) (holds : P e) : P e' := by
  induction replays with
  | nil => exact holds
  | cons allowed _ ih =>
    rw [List.forall_mem_cons] at kind
    exact ih kind.2 (step _ _ holds allowed kind.1)

/-- To fill in cells of one string is to store them one by one. -/
theorem of_fills {string : Nat} {s : CorpusString} {work : Work Float} {stored : List (Stored Float)}
    (found : e.corpus[string]? = some s) (stamped : s.tables.EpochsAre (some e.grammar.epoch))
    (fills : (e.grammar.sentence s.tokens).Fills ⟨s.tables, e.counters⟩ stored work) :
    Replays e (stored.map (.stored string)) (e.put string s work) := by
  induction stored generalizing e s with
  | nil =>
    cases fills
    rw [put_self found]
    exact .nil
  | cons first rest ih =>
    rcases first with ⟨cell, value, constant⟩
    cases fills with
    | store new settled fills =>
      have allowed : e.Allows (.stored string ⟨cell, value, constant⟩) := ⟨s, found, stamped, new, settled⟩
      have applied : e.apply (.stored string ⟨cell, value, constant⟩) = e.put string s
          ((e.grammar.sentence s.tokens).record ⟨s.tables, e.counters⟩ cell value constant) := by
        simp only [apply, found]
      have next := ih (getElem?_put found _) (epochs_record stamped cell value constant) fills
      rw [put_put, ← applied] at next
      exact .cons allowed next

end Replays

theorem replays_update (e : Engine) (updates : List (Nat × Float)) :
    Replays e (e.updateEvents updates) (e.setValues updates).2 := by
  cases set : e.grammar.setValues updates with
  | error fault =>
    simp only [updateEvents, Engine.setValues, set]
    exact .nil
  | ok grammar =>
    simp only [updateEvents, Engine.setValues, set]
    have allowed : e.Allows (.updated grammar) := ⟨updates, set⟩
    exact .single allowed

theorem Consistent.replays_weigh (consistent : Consistent g e) (string : Nat) (cell : Cell) :
    Replays e (e.weighEvents string cell) (e.weigh string cell).2 := by
  cases found : e.corpus[string]? with
  | none =>
    rw [weigh_of_missing found]
    simp only [weighEvents, found]
    exact .nil
  | some s =>
    have inDate := (consistent.corpus s (Array.mem_of_getElem? found)).inDate
    have sound : (e.grammar.sentence s.tokens).Sound
      (Work.mk (s.tables.sync e.grammar.epoch) e.counters).tables := inDate.sound
    have fills := Sentence.fills_resolve sound [cell]
    have weighed : (e.weigh string cell).2 = e.put string s ((e.grammar.sentence s.tokens).resolve
        ⟨s.tables.sync e.grammar.epoch, e.counters⟩ [cell]) := by rw [weigh_of_found found]; rfl
    rw [weighed]
    simp only [weighEvents, found]
    split
    · rename_i stamped
      rw [sync_of_epochs stamped] at fills ⊢
      exact .of_fills found stamped fills
    · rename_i other
      have allowed : e.Allows (.expired string) := ⟨s, found, other⟩
      have applied : e.apply (.expired string) =
          e.put string s ⟨s.tables.sync e.grammar.epoch, e.counters⟩ := by
        simp only [apply, found]
      have rest := Replays.of_fills (e := e.put string s ⟨s.tables.sync e.grammar.epoch, e.counters⟩)
        (getElem?_put found _) (epochs_sync s.tables e.grammar.epoch) fills
      rw [put_put, ← applied] at rest
      exact .cons allowed rest

namespace Consistent

variable (consistent : Consistent g e)

include consistent

theorem replays_inside (start stop string nt : Nat) :
    Replays e (e.insideEvents start stop string nt) (e.inside start stop string nt).2 := by
  cases checked : e.checkSpan start stop string nt with
  | error fault =>
    simp only [insideEvents, Engine.inside, checked]
    exact .nil
  | ok _ =>
    simp only [insideEvents, Engine.inside, checked]
    exact consistent.replays_weigh string _

theorem replays_outside (start stop string nt : Nat) :
    Replays e (e.outsideEvents start stop string nt) (e.outside start stop string nt).2 := by
  cases checked : e.checkSpan start stop string nt with
  | error fault =>
    simp only [outsideEvents, Engine.outside, checked]
    exact .nil
  | ok _ =>
    simp only [outsideEvents, Engine.outside, checked]
    exact consistent.replays_weigh string _

theorem replays_probability (string : Nat) :
    Replays e (e.probabilityEvents string) (e.stringProbability string).2 := by
  cases present : e.length? string with
  | error fault =>
    simp only [probabilityEvents, stringProbability, present]
    exact .nil
  | ok length =>
    simp only [probabilityEvents, stringProbability, present]
    exact consistent.replays_inside _ _ _ _

theorem replays_sum (total : Float) (strings : List Nat) :
    Replays e (e.sumEvents strings) (e.sumLogs total strings).2 := by
  induction strings generalizing e total with
  | nil => exact .nil
  | cons string rest ih =>
    have first := consistent.replays_probability string
    have after : Consistent g (e.stringProbability string).2 :=
      keeps_stringProbability (P := Consistent g) (fun _ string cell holds => (holds.weigh string cell).1)
        consistent string
    rcases answered : e.stringProbability string with ⟨fault | p, e'⟩
    · rw [answered] at first
      simp only [sumEvents, sumLogs, answered, List.append_nil]
      exact first
    · rw [answered] at first after
      simp only [sumEvents, sumLogs, answered]
      exact first.append (ih after _)

/-- One request is its events. -/
theorem replays_answer (request : Request) : Replays e (e.events request) (e.answer request).2 := by
  cases request with
  | setCorpus strings =>
    cases read : readStrings e.grammar strings with
    | error fault =>
      simp only [events, answer, reply, Engine.setCorpus, read]
      exact .nil
    | ok corpus =>
      simp only [events, answer, reply, Engine.setCorpus, read]
      have allowed : e.Allows (.loaded corpus.toArray) := ⟨strings, read⟩
      exact .single allowed
  | setValues updates => exact replays_update e updates
  | updateValues values =>
    by_cases length : e.grammar.used.length = values.length
    · simp only [events, answer, reply, updateValues, if_pos length]
      exact replays_update e _
    · simp only [events, answer, reply, updateValues, if_neg length]
      exact .nil
  | resetTables => exact .single trivial
  | inside start stop string nt => exact consistent.replays_inside start stop string nt
  | outside start stop string nt => exact consistent.replays_outside start stop string nt
  | stringProbability string => exact consistent.replays_probability string
  | logLikelihood => exact consistent.replays_sum 0.0 _
  | compute =>
    cases verified : e.grammar.verify with
    | error fault =>
      simp only [events, answer, reply, compute, verified]
      exact .nil
    | ok _ =>
      simp only [events, answer, reply, compute, verified]
      exact consistent.replays_sum 0.0 _
  | bestParse string => exact .nil

/-- A session is its log. -/
theorem replays_log (session : List Request) : Replays e (e.log session) (e.after session) := by
  induction session generalizing e with
  | nil => exact .nil
  | cons request rest ih =>
    exact (consistent.replays_answer request).append (ih (consistent.after [request]))

theorem put {string : Nat} {s : CorpusString} (found : e.corpus[string]? = some s) {work : Work Float}
    (inDate : InDate (e.grammar.sentence s.tokens) work.tables e.grammar.epoch) :
    Consistent g (e.put string s work) where
  grammar := consistent.grammar
  corpus other member := by
    have valid := consistent.corpus s (Array.mem_of_getElem? found)
    rcases Array.mem_or_eq_of_mem_setIfInBounds member with old | rfl
    · exact consistent.corpus other old
    · exact ⟨valid.nonempty, valid.tokenized, inDate⟩

/-- One step. -/
theorem apply {event : Event} (allowed : e.Allows event) : Consistent g (e.apply event) := by
  cases event with
  | loaded corpus =>
    rcases allowed with ⟨strings, read⟩
    have loaded := consistent.setCorpus strings
    simp only [Engine.setCorpus, read] at loaded
    exact loaded
  | updated grammar =>
    rcases allowed with ⟨updates, set⟩
    have updated := consistent.setValues updates
    simp only [Engine.setValues, set] at updated
    exact updated
  | reset => exact consistent.resetTables
  | expired string =>
    rcases allowed with ⟨s, found, -⟩
    have inDate := (consistent.corpus s (Array.mem_of_getElem? found)).inDate
    simp only [Engine.apply, found]
    exact consistent.put found (.of_sound (epochs_sync s.tables e.grammar.epoch) inDate.sound)
  | stored string entry =>
    rcases entry with ⟨cell, value, constant⟩
    rcases allowed with ⟨s, found, stamped, new, settled⟩
    have sound := (consistent.corpus s (Array.mem_of_getElem? found)).inDate.sound
    rw [sync_of_epochs stamped] at sound
    have work : (e.grammar.sentence s.tokens).Sound (Work.mk s.tables e.counters).tables := sound
    simp only [Engine.apply, found]
    exact consistent.put found (.of_sound (epochs_record stamped cell value constant) (work.record new settled))

theorem replays (replays : Replays e events e') : Consistent g e' := by
  induction replays with
  | nil => exact consistent
  | cons allowed _ ih => exact ih (consistent.apply allowed)

end Consistent

end Engine

end StochasticGrammar
