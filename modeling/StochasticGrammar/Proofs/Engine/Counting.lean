import StochasticGrammar.Proofs.Engine.Entries
import StochasticGrammar.Proofs.Engine.Events

/-!
What the counters count. They are the numbers of cells that were stored since a corpus was loaded. No
cell of a string is stored again before its tables are invalidated, and a constant one not even then; a
question that is asked again stores nothing.
-/

namespace StochasticGrammar

namespace Event

def loads : Event → Bool
  | loaded _ => true
  | _ => false

def updates : Event → Bool
  | updated _ => true
  | _ => false

/-- Whether the tables of the string are invalidated. -/
def invalidates (string : Nat) : Event → Bool
  | reset => true
  | expired other => other == string
  | _ => false

/-- Whether tables are brought up to date or filled, as by questions. -/
def fills : Event → Bool
  | expired _ | stored _ _ => true
  | _ => false

def storesInside : Event → Bool
  | stored _ ⟨.inside .., _, _⟩ => true
  | _ => false

def storesOutside : Event → Bool
  | stored _ ⟨.outside .., _, _⟩ => true
  | _ => false

/-- The events after the last corpus was loaded. -/
def sinceLoad (log : List Event) : List Event := log.rtakeWhile fun event => !event.loads

end Event

namespace Engine

open Event (sinceLoad)

variable {g : Grammar} {e e' : Engine} {log : List Event}

theorem counters_record {W : Type} [Weight W] {s : Sentence W} {work : Work W} {cell : Cell}
    (within : s.Within cell) (value : W) (constant : Bool) :
    (s.record work cell value constant).counters = match cell with
      | .inside .. => { work.counters with inside := work.counters.inside + 1 }
      | .outside .. => { work.counters with outside := work.counters.outside + 1 } := by
  rcases work with ⟨⟨inside, outside⟩, counters⟩
  cases cell with
  | inside start stop nt =>
    rcases Option.isSome_iff_exists.mp (SpanGrid.index_isSome_iff.mpr within) with ⟨index, here⟩
    simp only [Sentence.record, here]
  | outside start stop nt =>
    rcases Option.isSome_iff_exists.mp (SpanGrid.index_isSome_iff.mpr within) with ⟨index, here⟩
    simp only [Sentence.record, here]

/-- One step. -/
theorem counters_apply {event : Event} (allowed : e.Allows event) (stays : event.loads = false) :
    (e.apply event).counters.inside = e.counters.inside + [event].countP Event.storesInside ∧
      (e.apply event).counters.outside = e.counters.outside + [event].countP Event.storesOutside := by
  cases event with
  | loaded corpus => cases stays
  | updated grammar => exact ⟨rfl, rfl⟩
  | reset => exact ⟨rfl, rfl⟩
  | expired string =>
    rcases allowed with ⟨s, found, -⟩
    simp only [apply, found]
    exact ⟨rfl, rfl⟩
  | stored string entry =>
    rcases entry with ⟨cell, value, constant⟩
    rcases allowed with ⟨s, found, -, new, -⟩
    have within := within_of_unknown new
    simp only [apply, found, put, counters_record within]
    cases cell <;> exact ⟨rfl, rfl⟩

/-- A whole log. -/
theorem Replays.counters (replays : Replays e log e') (fresh : e.counters = {}) :
    e'.counters.inside = (sinceLoad log).countP Event.storesInside ∧
      e'.counters.outside = (sinceLoad log).countP Event.storesOutside := by
  induction log using List.reverseRecOn generalizing e' with
  | nil =>
    cases replays
    rw [fresh]
    exact ⟨rfl, rfl⟩
  | append_singleton log event ih =>
    rcases replays.split with ⟨before, first, last⟩
    cases last with
    | cons allowed rest =>
      cases rest
      by_cases loads : event.loads = true
      · have none : sinceLoad (log ++ [event]) = [] := List.rtakeWhile_concat_neg _ _ _ (by simp [loads])
        cases event with
        | loaded corpus =>
          rw [none]
          exact ⟨rfl, rfl⟩
        | updated _ | reset | expired _ | stored _ _ => cases loads
      · have stays : event.loads = false := by simpa using loads
        have more : sinceLoad (log ++ [event]) = sinceLoad log ++ [event] :=
          List.rtakeWhile_concat_pos _ _ _ (by simp [stays])
        rcases ih first with ⟨inside, outside⟩
        rcases counters_apply allowed stays with ⟨inside', outside'⟩
        rw [more, List.countP_append, List.countP_append, inside', outside', inside, outside]
        exact ⟨rfl, rfl⟩

/-- The texts stay where no corpus is loaded. -/
theorem texts_apply {event : Event} (allowed : e.Allows event) (stays : event.loads = false) :
    (e.apply event).texts = e.texts := by
  cases event with
  | loaded corpus => cases stays
  | updated grammar => rfl
  | reset => exact texts_resetTables e
  | expired string =>
    rcases allowed with ⟨s, found, -⟩
    simp only [apply, found]
    exact tokens_setIfInBounds found _
  | stored string entry =>
    rcases allowed with ⟨s, found, -⟩
    simp only [apply, found]
    exact tokens_setIfInBounds found _

theorem Replays.texts (replays : Replays e log e') (stays : ∀ event ∈ log, event.loads = false) :
    e'.texts = e.texts :=
  replays.keeps (P := fun t => t.texts = e.texts) (K := fun event => event.loads = false)
    (fun _ _ same allowed stays => (texts_apply allowed stays).trans same) stays rfl

/-- What becomes of the tables of a string where no corpus is loaded. -/
theorem apply_string {event : Event} (allowed : e.Allows event) (stays : event.loads = false) {string : Nat}
    {s : CorpusString} (found : e.corpus[string]? = some s) :
    ∃ tables, (e.apply event).corpus[string]? = some { s with tables } ∧
      (tables = s.tables ∨ event = .reset ∧ tables = s.tables.invalidate ∨
        event = .expired string ∧ ¬ s.tables.EpochsAre (some e.grammar.epoch) ∧
          tables = s.tables.sync e.grammar.epoch ∨
        ∃ cell value constant, event = .stored string ⟨cell, value, constant⟩ ∧
          s.tables.EpochsAre (some e.grammar.epoch) ∧
          (e.grammar.sentence s.tokens).known? s.tables cell = none ∧
          remembered value constant = (e.grammar.sentence s.tokens).settled cell ∧
          tables = ((e.grammar.sentence s.tokens).record ⟨s.tables, e.counters⟩ cell value constant).tables) := by
  cases event with
  | loaded corpus => cases stays
  | updated grammar => exact ⟨s.tables, found, .inl rfl⟩
  | reset =>
    refine ⟨s.tables.invalidate, ?_, .inr (.inl ⟨rfl, rfl⟩)⟩
    simp [apply, resetTables, found]
  | expired other =>
    rcases allowed with ⟨s', found', moved⟩
    by_cases same : other = string
    · subst same
      cases found.symm.trans found'
      refine ⟨_, ?_, .inr (.inr (.inl ⟨rfl, moved, rfl⟩))⟩
      simp only [apply, found]
      exact getElem?_put found _
    · refine ⟨s.tables, ?_, .inl rfl⟩
      simp only [apply, found']
      rw [getElem?_put_ne same, found]
  | stored other entry =>
    rcases entry with ⟨cell, value, constant⟩
    rcases allowed with ⟨s', found', stamped, new, settled⟩
    by_cases same : other = string
    · subst same
      cases found.symm.trans found'
      refine ⟨_, ?_, .inr (.inr (.inr ⟨cell, value, constant, rfl, stamped, new, settled, rfl⟩))⟩
      simp only [apply, found]
      exact getElem?_put found _
    · refine ⟨s.tables, ?_, .inl rfl⟩
      simp only [apply, found']
      rw [getElem?_put_ne same, found]

section

variable (consistent : Consistent g e) (tokens : Array Nat)

include consistent

/-- Where the cells of a text are kept is a matter of the rules. -/
theorem Consistent.known_eq : (e.grammar.sentence tokens).known? = (g.sentence tokens).known? := by
  rw [sentence_of_update consistent.grammar.rules consistent.grammar.sources]
  rfl

theorem Consistent.marksOne_eq : (e.grammar.sentence tokens).MarksOne = (g.sentence tokens).MarksOne := by
  rw [sentence_of_update consistent.grammar.rules consistent.grammar.sources]
  rfl

theorem Consistent.record_eq : (e.grammar.sentence tokens).record = (g.sentence tokens).record := by
  rw [sentence_of_update consistent.grammar.rules consistent.grammar.sources]
  rfl

end

/-- What the tables of a string are like. -/
def Has (string : Nat) (P : CorpusString → Prop) (e : Engine) : Prop := ∃ s, e.corpus[string]? = some s ∧ P s

/-- The tables of a string are of the present epoch. -/
def Stamped (string : Nat) (e : Engine) : Prop := e.Has string fun s => s.tables.EpochsAre (some e.grammar.epoch)

/-- The cell of a string is known. -/
def Knowing (g : Grammar) (string : Nat) (cell : Cell) : Engine → Prop :=
  Has string fun s => ((g.sentence s.tokens).known? s.tables cell).isSome

/-- The cell of a string has the entry of a constant one. -/
def Marking (g : Grammar) (string : Nat) (cell : Cell) : Engine → Prop :=
  Has string fun s => (g.sentence s.tokens).MarksOne s.tables cell

theorem grammar_apply {event : Event} (stays : event.updates = false) : (e.apply event).grammar = e.grammar := by
  cases event with
  | updated grammar => cases stays
  | loaded corpus => rfl
  | reset => rfl
  | expired string =>
    simp only [apply]
    split <;> rfl
  | stored string entry =>
    simp only [apply]
    split <;> rfl

theorem stamped_apply {event : Event} {string : Nat} (stamped : Stamped string e) (allowed : e.Allows event)
    (stays : event.loads = false ∧ event.updates = false) : Stamped string (e.apply event) := by
  rcases stamped with ⟨s, found, stamped⟩
  rcases apply_string allowed stays.1 found with ⟨tables, after, rest⟩
  refine ⟨_, after, ?_⟩
  rw [grammar_apply stays.2]
  rcases rest with same | ⟨-, cleared⟩ | ⟨-, -, synced⟩ | ⟨cell, value, constant, -, -, -, -, filled⟩
  · rw [same]
    exact stamped
  · rw [cleared]
    exact stamped
  · rw [synced]
    exact epochs_sync s.tables e.grammar.epoch
  · rw [filled]
    exact epochs_record stamped cell value constant

theorem Consistent.knowing_apply (consistent : Consistent g e) {string : Nat} {cell : Cell}
    (knowing : Knowing g string cell e) {event : Event} (allowed : e.Allows event)
    (stays : event.loads = false ∧ event.invalidates string = false) : Knowing g string cell (e.apply event) := by
  rcases knowing with ⟨s, found, known⟩
  rcases apply_string allowed stays.1 found with ⟨tables, after, rest⟩
  refine ⟨_, after, ?_⟩
  rcases rest with same | ⟨rfl, -⟩ | ⟨rfl, -⟩ | ⟨other, value, constant, rfl, stamped, new, -, filled⟩
  · rw [same]
    exact known
  · cases stays.2
  · simp [Event.invalidates] at stays
  · have sound := (consistent.corpus s (Array.mem_of_getElem? found)).inDate.sound
    rw [sync_of_epochs stamped] at sound
    have work : (e.grammar.sentence s.tokens).Sound (Work.mk s.tables e.counters).tables := sound
    rw [← consistent.known_eq] at known ⊢
    rw [filled]
    exact record_keeps_known work new value constant known

theorem Consistent.marking_apply (consistent : Consistent g e) {string : Nat} {cell : Cell}
    (marking : Marking g string cell e) {event : Event} (allowed : e.Allows event) (stays : event.loads = false) :
    Marking g string cell (e.apply event) := by
  rcases marking with ⟨s, found, marked⟩
  rcases apply_string allowed stays found with ⟨tables, after, rest⟩
  refine ⟨_, after, ?_⟩
  rcases rest with same | ⟨-, cleared⟩ | ⟨-, -, synced⟩ | ⟨other, value, constant, -, -, new, -, filled⟩
  · rw [same]
    exact marked
  · rw [cleared]
    exact marked.of_entries (fun _ one => MemoTable.one_invalidate one) fun _ one => MemoTable.one_invalidate one
  · rw [synced]
    exact marked.of_entries (fun _ one => MemoTable.one_sync one _) fun _ one => MemoTable.one_sync one _
  · rw [consistent.known_eq] at new
    rw [filled, consistent.record_eq]
    exact Sentence.marked_record marked new value constant

/-- A cell that is known stays so until the tables of its string are invalidated. -/
theorem Consistent.knowing_after (consistent : Consistent g e) {string : Nat} {cell : Cell}
    (knowing : Knowing g string cell e) (replays : Replays e log e')
    (stays : ∀ event ∈ log, event.loads = false ∧ event.invalidates string = false) :
    Knowing g string cell e' := by
  have both := replays.keeps (K := fun event => event.loads = false ∧ event.invalidates string = false)
    (P := fun t => Consistent g t ∧ Knowing g string cell t)
    (fun _ _ holds allowed kind => ⟨holds.1.apply allowed, holds.1.knowing_apply holds.2 allowed kind⟩)
    stays ⟨consistent, knowing⟩
  exact both.2

/-- An entry of a constant one stays until a corpus is loaded. -/
theorem Consistent.marking_after (consistent : Consistent g e) {string : Nat} {cell : Cell}
    (marking : Marking g string cell e) (replays : Replays e log e') (stays : ∀ event ∈ log, event.loads = false) :
    Marking g string cell e' := by
  have both := replays.keeps (K := fun event => event.loads = false)
    (P := fun t => Consistent g t ∧ Marking g string cell t)
    (fun _ _ holds allowed kind => ⟨holds.1.apply allowed, holds.1.marking_apply holds.2 allowed kind⟩)
    stays ⟨consistent, marking⟩
  exact both.2

/-- Tables expire again only after an update, or in another corpus. -/
theorem expired_again {string : Nat} (allowed : e.Allows (.expired string))
    (replays : Replays (e.apply (.expired string)) log e') (again : e'.Allows (.expired string)) :
    ∃ event ∈ log, event.loads = true ∨ event.updates = true := by
  by_contra none
  simp only [not_exists, not_and, not_or, Bool.not_eq_true] at none
  rcases allowed with ⟨s, found, -⟩
  have stamped : Stamped string (e.apply (.expired string)) := by
    simp only [apply, found]
    exact ⟨_, getElem?_put found _, epochs_sync s.tables e.grammar.epoch⟩
  rcases replays.keeps (fun _ _ holds allowed kind => stamped_apply holds allowed kind) none stamped with
    ⟨s', found', stamped'⟩
  rcases again with ⟨s'', found'', moved⟩
  cases found'.symm.trans found''
  exact moved stamped'

theorem zero_of_isOne {stored : Stored Float} (one : stored.isOne = true) :
    (stored.constant && stored.value == 0) = false := by
  rcases stored with ⟨cell, value, constant⟩
  rcases Bool.and_eq_true_iff.mp one with ⟨flag, one⟩
  have same : value = 1.0 := Double.eq_one one
  have other : ((1.0 : Float) == 0) = false := by decide +kernel
  rw [same, other, Bool.and_false]

theorem isOne_iff (stored : Stored Float) :
    stored.isOne = true ↔ remembered stored.value stored.constant = (1, true) := by
  unfold remembered
  constructor
  · intro one
    split
    · rename_i zero
      exact absurd (zero.symm.trans (zero_of_isOne one)) (by decide)
    · exact if_pos one
  · intro answer
    split at answer
    · exact absurd (congrArg Prod.fst answer) (by decide +kernel)
    · split at answer
      · assumption
      · rcases stored with ⟨cell, value, constant⟩
        cases answer
        have one : (true && (1.0 : Float) == 1) = true := by decide +kernel
        exact one

/-- Which cells are constant does not change, and neither do their weights. -/
theorem Consistent.settled_agree (consistent : Consistent g e) (consistent' : Consistent g e') (tokens : Array Nat)
    (cell : Cell) :
    Agree ((e.grammar.sentence tokens).settled cell) ((e'.grammar.sentence tokens).settled cell) := by
  have rules := consistent'.grammar.rules.trans consistent.grammar.rules.symm
  have sources := consistent'.grammar.sources.trans consistent.grammar.sources.symm
  rw [sentence_of_update rules sources]
  apply StochasticGrammar.settled_agree
  intro rule certain
  exact value_of_update sources consistent.grammar.evaluated consistent'.grammar.evaluated certain

/-- Two stores of one cell of a string, with no corpus loaded in between. -/
theorem Consistent.stored_again (consistent : Consistent g e) {string : Nat} {first second : Stored Float}
    (same : first.cell = second.cell) (allowed : e.Allows (.stored string first))
    (replays : Replays (e.apply (.stored string first)) log e') (again : e'.Allows (.stored string second))
    (stays : ∀ event ∈ log, event.loads = false) :
    (∃ event ∈ log, event.invalidates string = true) ∧ first.isOne = false ∧ second.isOne = false := by
  rcases first with ⟨cell, value, constant⟩
  rcases second with ⟨other, value', constant'⟩
  obtain rfl : cell = other := same
  have next := consistent.apply allowed
  have texts := (replays.texts stays).trans (texts_apply allowed rfl)
  rcases allowed with ⟨s, found, stamped, new, settled⟩
  rcases again with ⟨s', found', -, new', settled'⟩
  have tokens : s'.tokens = s.tokens := by
    have here := congrArg (·[string]?) texts
    simpa [Engine.texts, found, found'] using here
  have sound := (consistent.corpus s (Array.mem_of_getElem? found)).inDate.sound
  rw [sync_of_epochs stamped] at sound
  have work : (e.grammar.sentence s.tokens).Sound (Work.mk s.tables e.counters).tables := sound
  have after : (e.apply (.stored string ⟨cell, value, constant⟩)).corpus[string]? = some { s with tables :=
      ((e.grammar.sentence s.tokens).record ⟨s.tables, e.counters⟩ cell value constant).tables } := by
    simp only [Engine.apply, found]
    exact getElem?_put found _
  have known := record_knows work new value constant
  have last := next.replays replays
  rw [last.known_eq] at new'
  have other : (Stored.mk cell value constant).isOne = false := by
    rw [← Bool.not_eq_true]
    intro one
    have marked : (e.grammar.sentence s.tokens).MarksOne
        ((e.grammar.sentence s.tokens).record ⟨s.tables, e.counters⟩ cell value constant).tables cell :=
      Sentence.marked_of_isOne (within_of_unknown new) (zero_of_isOne one) one
    rw [consistent.marksOne_eq] at marked
    rcases next.marking_after ⟨_, after, marked⟩ replays stays with ⟨s'', found'', marked'⟩
    cases found'.symm.trans found''
    rw [Sentence.known_of_marked marked'] at new'
    cases new'
  refine ⟨?_, other, ?_⟩
  · by_contra none
    simp only [not_exists, not_and, Bool.not_eq_true] at none
    rw [consistent.known_eq] at known
    rcases next.knowing_after ⟨_, after, known⟩ replays fun event member => ⟨stays event member, none event member⟩
      with ⟨s'', found'', known'⟩
    cases found'.symm.trans found''
    rw [new'] at known'
    cases known'
  · rw [← Bool.not_eq_true] at other ⊢
    intro one
    have agree := consistent.settled_agree last s.tokens cell
    rw [← tokens, ← settled', (isOne_iff _).mp one, tokens, ← settled] at agree
    exact other ((isOne_iff _).mpr (agree.2 agree.1))

theorem weigh_known {string : Nat} {s : CorpusString} {cell : Cell} (found : e.corpus[string]? = some s)
    (stamped : s.tables.EpochsAre (some e.grammar.epoch))
    (known : ((e.grammar.sentence s.tokens).known? s.tables cell).isSome) : (e.weigh string cell).2 = e := by
  have done : (e.grammar.sentence s.tokens).resolve ⟨s.tables, e.counters⟩ [cell] = ⟨s.tables, e.counters⟩ :=
    Sentence.resolve_known known
  rw [weigh_of_found found, sync_of_epochs stamped]
  simp only [Sentence.demand, done]
  exact put_self found

/-- A cell that was weighed is not stored again as long as tables are but filled. -/
theorem Consistent.weighed_again (consistent : Consistent g e) {string : Nat} {s : CorpusString}
    (found : e.corpus[string]? = some s) {cell : Cell} (replays : Replays (e.weigh string cell).2 log e')
    (fills : ∀ event ∈ log, event.fills = true) : (e'.weigh string cell).2 = e' := by
  have next := (consistent.weigh string cell).1
  rcases (consistent.knows_weighed found cell).present with ⟨s', found', tokens, stamped, known⟩
  rw [← tokens, consistent.known_eq] at known
  have kept := replays.keeps (K := fun event => event.fills = true)
    (P := fun t => Consistent g t ∧ Stamped string t ∧ Knowing g string cell t) ?_ fills
    ⟨next, ⟨s', found', stamped⟩, ⟨s', found', known⟩⟩
  · rcases kept with ⟨last, ⟨s₁, found₁, stamped⟩, s₂, found₂, known⟩
    cases found₁.symm.trans found₂
    rw [← last.known_eq] at known
    exact weigh_known found₁ stamped known
  · intro t event holds allowed kind
    rcases holds with ⟨consistent, stamped, knowing⟩
    have stays : event.loads = false ∧ event.updates = false ∧ event.invalidates string = false := by
      cases event with
      | loaded _ | updated _ | reset => cases kind
      | stored _ _ => exact ⟨rfl, rfl, rfl⟩
      | expired other =>
        -- The tables of this string are of the present epoch, so that others expire.
        refine ⟨rfl, rfl, ?_⟩
        rw [Event.invalidates, beq_eq_false_iff_ne]
        rintro rfl
        rcases stamped with ⟨s, found, stamped⟩
        rcases allowed with ⟨s', found', moved⟩
        cases found.symm.trans found'
        exact moved stamped
    exact ⟨consistent.apply allowed, stamped_apply stamped allowed ⟨stays.1, stays.2.1⟩,
      consistent.knowing_apply knowing allowed ⟨stays.1, stays.2.2⟩⟩

section

variable (e : Engine)

theorem fills_weigh (string : Nat) (cell : Cell) : ∀ event ∈ e.weighEvents string cell, event.fills = true := by
  cases found : e.corpus[string]? with
  | none => simp [weighEvents, found]
  | some s =>
    simp only [weighEvents, found]
    split
    · exact List.forall_mem_map.mpr fun _ _ => rfl
    · exact List.forall_mem_cons.mpr ⟨rfl, List.forall_mem_map.mpr fun _ _ => rfl⟩

theorem fills_inside (start stop string nt : Nat) :
    ∀ event ∈ e.insideEvents start stop string nt, event.fills = true := by
  cases checked : e.checkSpan start stop string nt with
  | error fault => simp [insideEvents, checked]
  | ok _ =>
    simp only [insideEvents, checked]
    exact fills_weigh e string _

theorem fills_outside (start stop string nt : Nat) :
    ∀ event ∈ e.outsideEvents start stop string nt, event.fills = true := by
  cases checked : e.checkSpan start stop string nt with
  | error fault => simp [outsideEvents, checked]
  | ok _ =>
    simp only [outsideEvents, checked]
    exact fills_weigh e string _

theorem fills_probability (string : Nat) : ∀ event ∈ e.probabilityEvents string, event.fills = true := by
  cases present : e.length? string with
  | error fault => simp [probabilityEvents, present]
  | ok length =>
    simp only [probabilityEvents, present]
    exact fills_inside e _ _ _ _

theorem fills_sum (strings : List Nat) : ∀ event ∈ e.sumEvents strings, event.fills = true := by
  induction strings generalizing e with
  | nil => simp [sumEvents]
  | cons string rest ih =>
    rw [sumEvents, List.forall_mem_append]
    refine ⟨fills_probability e string, ?_⟩
    rcases e.stringProbability string with ⟨fault | p, e'⟩
    · simp
    · exact ih e'

/-- Questions do nothing else to tables. -/
theorem fills_events {request : Request} (asks : request.asks = true) :
    ∀ event ∈ e.events request, event.fills = true := by
  cases request with
  | setCorpus _ => cases asks
  | setValues _ => cases asks
  | updateValues _ => cases asks
  | resetTables => cases asks
  | inside start stop string nt => exact fills_inside e start stop string nt
  | outside start stop string nt => exact fills_outside e start stop string nt
  | stringProbability string => exact fills_probability e string
  | logLikelihood => exact fills_sum e _
  | compute =>
    cases verified : e.grammar.verify with
    | error fault => simp [events, verified]
    | ok _ =>
      simp only [events, verified]
      exact fills_sum e _
  | bestParse string => simp [events]

theorem fills_log {session : List Request} (asks : ∀ request ∈ session, request.asks = true) :
    ∀ event ∈ e.log session, event.fills = true := by
  induction session generalizing e with
  | nil => simp [log]
  | cons request rest ih =>
    rw [List.forall_mem_cons] at asks
    rw [log, List.forall_mem_append]
    exact ⟨fills_events e asks.1, ih _ asks.2⟩

end

/-- What a question about a span does. -/
theorem answer_span {start stop string nt : Nat} {request : Request}
    (question : request = .inside start stop string nt ∨ request = .outside start stop string nt) :
    ∃ cell, ∀ e : Engine, (e.answer request).2 = match e.checkSpan start stop string nt with
      | .error _ => e
      | .ok () => (e.weigh string cell).2 := by
  rcases question with rfl | rfl
  · refine ⟨.inside start stop nt, fun e => ?_⟩
    cases span : e.checkSpan start stop string nt <;> simp only [answer, reply, Engine.inside, span]
  · refine ⟨.outside start stop nt, fun e => ?_⟩
    cases span : e.checkSpan start stop string nt <;> simp only [answer, reply, Engine.outside, span]

/-- A question that is asked again does nothing. -/
theorem Consistent.asked_again (consistent : Consistent g e) {start stop string nt : Nat} {request : Request}
    (question : request = .inside start stop string nt ∨ request = .outside start stop string nt)
    {later : List Request} (fills : ∀ event ∈ (e.answer request).2.log later, event.fills = true) :
    ((e.after (request :: later)).answer request).2 = e.after (request :: later) := by
  have next : Consistent g (e.answer request).2 := consistent.after [request]
  have last : Consistent g (e.after (request :: later)) := consistent.after (request :: later)
  have replays : Replays (e.answer request).2 _ (e.after (request :: later)) := next.replays_log later
  rcases answer_span question with ⟨cell, answered⟩
  cases span : e.checkSpan start stop string nt with
  | error fault =>
    have stays : ∀ event ∈ (e.answer request).2.log later, event.loads = false := by
      intro event member
      have fills := fills event member
      cases event with
      | loaded _ => cases fills
      | updated _ | reset | expired _ | stored _ _ => rfl
    have texts := replays.texts stays
    rw [answered e, span] at texts
    have rules := last.grammar.rules.trans consistent.grammar.rules.symm
    rw [answered (e.after _), checkSpan_congr texts rules, span]
  | ok _ =>
    rw [answered e, span] at replays fills
    rw [answered (e.after _)]
    cases found : e.corpus[string]? with
    | none =>
      simp only [checkSpan, length?, found] at span
      cases span
    | some s =>
      have again := consistent.weighed_again found replays fills
      cases (e.after (request :: later)).checkSpan start stop string nt with
      | error _ => rfl
      | ok _ => exact again

theorem Replays.between {before between later : List Event} {first second : Event}
    (replays : Replays e (before ++ first :: between ++ second :: later) e') :
    ∃ m m', Replays e before m ∧ m.Allows first ∧ Replays (m.apply first) between m' ∧ m'.Allows second := by
  rcases replays.split with ⟨m', earlier, last⟩
  rcases earlier.split with ⟨m, start, middle⟩
  cases middle with
  | cons allowed between =>
    cases last with
    | cons again _ => exact ⟨m, m', start, allowed, between, again⟩

/-- The log of a session, and what the counters have of it. Then two stores of one cell, two expiries of
the same tables, and a question that comes again after nothing but fillings. -/
theorem stores_are_counted {d : Declarations} (built : d.grammar = .ok g) (session : List Request) :
    let e := (ofGrammar g).after session
    let log := (ofGrammar g).log session
    Replays (ofGrammar g) log e ∧
      e.counters.inside = (sinceLoad log).countP Event.storesInside ∧
      e.counters.outside = (sinceLoad log).countP Event.storesOutside ∧
      (∀ before between later string first second,
        log = before ++ .stored string first :: between ++ .stored string second :: later →
          first.cell = second.cell → (∀ event ∈ between, event.loads = false) →
            (∃ event ∈ between, event.invalidates string = true) ∧ first.isOne = false ∧ second.isOne = false) ∧
      (∀ before between later string,
        log = before ++ .expired string :: between ++ .expired string :: later →
          ∃ event ∈ between, event.loads = true ∨ event.updates = true) ∧
      ∀ start stop string nt, ∀ request ∈ [Request.inside start stop string nt, .outside start stop string nt],
        ∀ later, (∀ event ∈ (e.answer request).2.log later, event.fills = true) →
          ((e.after (request :: later)).answer request).2 = e.after (request :: later) := by
  intro e log
  have fresh : Consistent g (ofGrammar g) := consistent_ofGrammar built
  have replays : Replays (ofGrammar g) log e := fresh.replays_log session
  have counters := replays.counters rfl
  refine ⟨replays, counters.1, counters.2, ?_, ?_, ?_⟩
  · intro before between later string first second parts same stays
    rw [parts] at replays
    rcases replays.between with ⟨m, m', start, allowed, middle, again⟩
    exact (fresh.replays start).stored_again same allowed middle again stays
  · intro before between later string parts
    rw [parts] at replays
    rcases replays.between with ⟨m, m', -, allowed, middle, again⟩
    exact expired_again allowed middle again
  · intro start stop string nt request member later fills
    have question : request = .inside start stop string nt ∨ request = .outside start stop string nt := by
      simpa using member
    exact (fresh.after session).asked_again question fills

/-- A question that is asked again after others, in the epoch after an update. -/
theorem sample_stores_are_counted :
    let g := Declarations.sampleGrammar 0.25
    let session := [Request.setCorpus ["aab"], .inside 0 2 0 0, .setValues [(0, 0.5)]]
    let e := (ofGrammar g).after session
    let later := [Request.inside 0 2 0 0, .outside 1 1 0 0, .compute]
    e.counters.inside = (sinceLoad ((ofGrammar g).log session)).countP Event.storesInside ∧
      ((e.after later).answer (.inside 0 2 0 0)).2 = e.after later := by
  intro g session e later
  rcases stores_are_counted (Declarations.sample_grammar 0.25) session with ⟨-, inside, -, -, -, again⟩
  have asks : ∀ request ∈ [Request.outside 1 1 0 0, .compute], request.asks = true := by decide
  exact ⟨inside, again 0 2 0 0 (.inside 0 2 0 0) List.mem_cons_self _ (fills_log _ asks)⟩

end Engine

end StochasticGrammar
