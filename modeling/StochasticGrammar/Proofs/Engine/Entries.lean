import StochasticGrammar.Proofs.Engine.PlainWeights
import StochasticGrammar.Proofs.Grammar.Numbering
import StochasticGrammar.Proofs.Tree.Constancy

/-!
What the entries of the memo tables say of derivations. A cell that is known has no entry when nothing
leads to it, a constant one when one way alone does and all of its rules are certain, and a slot
otherwise. Constant ones say so under all values of the parameters.
-/

namespace StochasticGrammar

theorem Grammar.sources_size {d : Declarations} {g : Grammar} (built : d.grammar = .ok g) :
    g.values.sources.size = g.rules.rules.size := by
  rcases Declarations.grammar_eq_ok_iff.mp built with ⟨b, passes, rfl⟩
  have sources := (RuleValues.ofSources_eq_ok.mp passes.evaluated).2.1
  change b.values.sources.size = b.numbered.rules.size
  rw [sources, List.size_toArray, Declarations.Draft.sources, List.length_map, passes.checked_length]

namespace MemoTable

section

variable {W : Type} [Weight W] {table : MemoTable W}

/-- No slot holds a weight that is represented without one. -/
structure Proper (table : MemoTable W) : Prop where
  formed : table.WellFormed
  slots : ∀ {index slot : Nat} {value : W}, table.entries[index]? = some (.computed slot) →
    table.lookup? index = some (value, true) → (value == 0) = false ∧ (value == 1) = false

theorem proper_empty : Proper ({} : MemoTable W) where
  formed := wellFormed_empty
  slots found := by simp at found

theorem proper_invalidate (table : MemoTable W) : table.invalidate.Proper where
  formed := WellFormed.invalidate table
  slots {index} _ _ found := by
    rcases table.entry_invalidate index with ⟨kept, -⟩ | ⟨gone, -⟩
    · rw [kept] at found
      cases found
    · rw [gone] at found
      cases found

theorem Proper.sync (proper : table.Proper) (epoch : Nat) : (table.sync epoch).Proper := by
  unfold MemoTable.sync
  split
  · exact proper
  · exact ⟨⟨(proper_invalidate table).formed.stored, (proper_invalidate table).formed.apart⟩,
      (proper_invalidate table).slots⟩

theorem Proper.store (proper : table.Proper) (index : Nat) (value : W) (constant : Bool) :
    (table.store index value constant).Proper where
  formed := proper.formed.store index value constant
  slots {other slot v} found known := by
    rw [lookup_store proper.formed] at known
    by_cases same : index = other
    · subst same
      rw [if_pos rfl] at known
      rw [getElem_store_self] at found
      unfold remembered at known
      split at found
      · cases found
      · rename_i zero
        split at found
        · cases found
        · rename_i one
          rw [if_neg zero, if_neg one] at known
          cases known
          exact ⟨by simpa using zero, by simpa using one⟩
    · rw [if_neg same] at known
      rw [getElem_store_of_ne same] at found
      exact proper.slots found known

end

/-- What the entry of a cell has to say of all that leads to it. -/
structure Classifies {α : Type} (table : MemoTable Float) (index : Nat) (items : Set α)
    (free : α → Prop) : Prop where
  one : table.entry? index = some .one ↔ (∃! item, item ∈ items) ∧ ∀ item ∈ items, free item
  absent : table.entry? index = none ↔ items = ∅
  computed : (∃ slot, table.entry? index = some (.computed slot)) ↔
    items.Nonempty ∧ ¬ ((∃! item, item ∈ items) ∧ ∀ item ∈ items, free item)
  flag : ∃ value constant, table.lookup? index = some (value, constant) ∧
    (constant = true ↔ ∀ item ∈ items, free item)

end MemoTable

/-- That no rule of a way has a formula. -/
def Sentence.FormulaFree {W : Type} (s : Sentence W) (rules : List Nat) : Prop :=
  ∀ rule ∈ rules, s.certain rule = true

/-- A list of all items once, as a set. -/
structure Lists {α : Type} (list : List α) (items : Set α) : Prop where
  nodup : list.Nodup
  mem : ∀ item, item ∈ list ↔ item ∈ items

namespace Lists

variable {α : Type} {list : List α} {items : Set α}

theorem empty_iff (lists : Lists list items) : items = ∅ ↔ list = [] := by
  rw [List.eq_nil_iff_forall_not_mem, Set.eq_empty_iff_forall_notMem]
  simp only [lists.mem]

theorem unique_iff (lists : Lists list items) : (∃! item, item ∈ items) ↔ list.length = 1 := by
  simp only [← lists.mem, List.length_eq_one_iff]
  constructor
  · rintro ⟨item, member, only⟩
    refine ⟨item, List.perm_singleton.mp ?_⟩
    apply (List.perm_ext_iff_of_nodup lists.nodup (List.nodup_singleton item)).mpr
    intro other
    rw [List.mem_singleton]
    exact ⟨only other, fun same => same ▸ member⟩
  · rintro ⟨item, rfl⟩
    exact ⟨item, List.mem_singleton_self item, fun other member => List.mem_singleton.mp member⟩

variable {s : Sentence Float} {answer : Float × Bool} {rules : α → List Nat} {table : MemoTable Float}
  {index : Nat}

theorem free_iff (lists : Lists list items) :
    s.AllCertain (list.map rules) ↔ ∀ item ∈ items, s.FormulaFree (rules item) := by
  simp only [Sentence.AllCertain, List.forall_mem_map, lists.mem]
  rfl

/-- A constant one counts one way, without a formula. -/
theorem of_one (lists : Lists list items) (tells : s.Tells (1, true) (list.map rules)) :
    (∃! item, item ∈ items) ∧ ∀ item ∈ items, s.FormulaFree (rules item) := by
  have one := (tells.count rfl).eq_one
  rw [List.length_map] at one
  exact ⟨lists.unique_iff.mpr one, lists.free_iff.mp (tells.flag.mp rfl)⟩

/-- The entry of a known cell classifies it. -/
theorem classifies (lists : Lists list items) (proper : table.Proper)
    (known : table.lookup? index = some answer) (tells : s.Tells answer (list.map rules)) :
    table.Classifies index items fun item => s.FormulaFree (rules item) := by
  have flag := tells.flag.trans lists.free_iff
  have answered : ∃ value constant, table.lookup? index = some (value, constant) ∧
      (constant = true ↔ ∀ item ∈ items, s.FormulaFree (rules item)) := ⟨_, _, known, flag⟩
  cases found : table.entries[index]? with
  | none =>
    have zero : answer = (0, true) := by
      simp only [MemoTable.lookup?, found] at known
      split at known
      · exact (Option.some.inj known).symm
      · cases known
    have none : items = ∅ := by
      rw [lists.empty_iff, ← List.map_eq_nil_iff, ← tells.constantZero_iff, zero]
      rfl
    exact {
      one := iff_of_false (by simp [MemoTable.entry?, found]) fun single => by simp [none] at single
      absent := iff_of_true found none
      computed := iff_of_false (by simp [MemoTable.entry?, found]) fun other => other.1.ne_empty none
      flag := answered }
  | some entry =>
    cases entry with
    | one =>
      rw [MemoTable.lookup_one found] at known
      cases known
      obtain ⟨unique, free⟩ := lists.of_one tells
      have some : items.Nonempty := unique.exists
      exact {
        one := iff_of_true found ⟨unique, free⟩
        absent := iff_of_false (by simp [MemoTable.entry?, found]) some.ne_empty
        computed := iff_of_false (by simp [MemoTable.entry?, found]) fun other => other.2 ⟨unique, free⟩
        flag := answered }
    | computed slot =>
      obtain ⟨value, constant⟩ := answer
      have several : ¬ ((∃! item, item ∈ items) ∧ ∀ item ∈ items, s.FormulaFree (rules item)) := by
        rintro ⟨unique, free⟩
        cases flag.mpr free
        have one := tells.count rfl
        rw [List.length_map, lists.unique_iff.mp unique] at one
        have other := (proper.slots found known).2
        cases one
        cases other
      have some : items.Nonempty := by
        by_contra empty
        rw [Set.not_nonempty_iff_eq_empty] at empty
        rw [lists.empty_iff] at empty
        have zero := tells.constantZero_iff.mpr (by rw [empty, List.map_nil])
        rw [Sentence.constantZero, Bool.and_eq_true] at zero
        cases zero.2
        have other := (proper.slots found known).1
        rw [zero.1] at other
        cases other
      exact {
        one := iff_of_false (by simp [MemoTable.entry?, found]) several
        absent := iff_of_false (by simp [MemoTable.entry?, found]) some.ne_empty
        computed := iff_of_true ⟨slot, found⟩ ⟨some, several⟩
        flag := answered }

end Lists

section

variable {s : Sentence Float} {start stop nt index : Nat}

theorem lists_derivations (formed : s.rules.WellFormed) (within : s.Within (.inside start stop nt)) :
    Lists (s.derivations start stop nt) {tree | s.Derives tree start stop nt} where
  nodup := nodup_derivations formed within.1
  mem _ := mem_derivations formed within.1

theorem lists_surroundings (formed : s.rules.WellFormed) (within : s.Within (.outside start stop nt)) :
    Lists (s.surroundings start stop nt) {around | s.Surrounds around start stop nt} where
  nodup := nodup_surroundings formed within.1 within.2.1
  mem _ := mem_surroundings formed within.1 within.2.1

theorem known_inside (cell : s.grid.index? start stop nt = some index) (tables : Tables Float) :
    s.known? tables (.inside start stop nt) = tables.inside.lookup? index := by
  simp only [Sentence.known?, cell]

theorem known_outside (cell : s.grid.index? start stop nt = some index) (tables : Tables Float) :
    s.known? tables (.outside start stop nt) = tables.outside.lookup? index := by
  simp only [Sentence.known?, cell]

theorem one_sync {table : MemoTable Float} (one : table.entry? index = some .one) (epoch : Nat) :
    (table.sync epoch).lookup? index = some (1, true) := by
  apply MemoTable.lookup_one
  unfold MemoTable.sync
  split
  · exact one
  · rcases table.entry_invalidate index with ⟨kept, -⟩ | ⟨-, other⟩
    · exact kept
    · exact absurd one other

variable {tables : Tables Float} (formed : s.rules.WellFormed)
  (ones : ∀ rule < s.rules.rules.size, s.certain rule = true → s.value rule = 1.0)
  (cell : s.grid.index? start stop nt = some index)

include formed ones cell

theorem classifies_inside (sound : s.Sound tables) (proper : tables.inside.Proper)
    (known : (s.known? tables (.inside start stop nt)).isSome) :
    tables.inside.Classifies index {tree | s.Derives tree start stop nt}
      fun tree => s.FormulaFree tree.rules := by
  have within : s.Within (.inside start stop nt) := (SpanGrid.index_eq_some_iff.mp cell).1
  obtain ⟨answer, known⟩ := Option.isSome_iff_exists.mp known
  have tells := settled_tells formed ones within
  rw [← sound.answers known] at tells
  rw [known_inside cell] at known
  exact (lists_derivations formed within).classifies proper known tells

theorem classifies_outside (sound : s.Sound tables) (proper : tables.outside.Proper)
    (known : (s.known? tables (.outside start stop nt)).isSome) :
    tables.outside.Classifies index {around | s.Surrounds around start stop nt}
      fun around => s.FormulaFree around.rules := by
  have within : s.Within (.outside start stop nt) := (SpanGrid.index_eq_some_iff.mp cell).1
  obtain ⟨answer, known⟩ := Option.isSome_iff_exists.mp known
  have tells := settled_tells formed ones within
  rw [← sound.answers known] at tells
  rw [known_outside cell] at known
  exact (lists_surroundings formed within).classifies proper known tells

variable {epoch : Nat} (inDate : InDate s tables epoch)

include inDate

/-- A constant one that outlived its epoch is right in the present one. -/
theorem one_inside (one : tables.inside.entry? index = some .one) :
    s.settled (.inside start stop nt) = (1, true) ∧
      (∃! tree, tree ∈ {tree | s.Derives tree start stop nt}) ∧
        ∀ tree ∈ {tree | s.Derives tree start stop nt}, s.FormulaFree tree.rules := by
  have within : s.Within (.inside start stop nt) := (SpanGrid.index_eq_some_iff.mp cell).1
  have known := known_inside cell (tables.sync epoch)
  rw [Tables.sync, one_sync one] at known
  have settled := inDate.sound.answers known
  have tells := settled_tells formed ones within
  rw [← settled] at tells
  exact ⟨settled.symm, (lists_derivations formed within).of_one tells⟩

theorem one_outside (one : tables.outside.entry? index = some .one) :
    s.settled (.outside start stop nt) = (1, true) ∧
      (∃! around, around ∈ {around | s.Surrounds around start stop nt}) ∧
        ∀ around ∈ {around | s.Surrounds around start stop nt}, s.FormulaFree around.rules := by
  have within : s.Within (.outside start stop nt) := (SpanGrid.index_eq_some_iff.mp cell).1
  have known := known_outside cell (tables.sync epoch)
  rw [Tables.sync, one_sync one] at known
  have settled := inDate.sound.answers known
  have tells := settled_tells formed ones within
  rw [← settled] at tells
  exact ⟨settled.symm, (lists_surroundings formed within).of_one tells⟩

end

section

variable {W : Type} [Weight W] {s : Sentence W}

def Tables.Proper (tables : Tables W) : Prop := tables.inside.Proper ∧ tables.outside.Proper

theorem proper_record {work : Work W} (proper : work.tables.Proper) (cell : Cell) (value : W)
    (constant : Bool) : (s.record work cell value constant).tables.Proper := by
  obtain ⟨⟨inside, outside⟩, counters⟩ := work
  cases cell with
  | inside start stop nt =>
    simp only [Sentence.record]
    split
    · exact ⟨proper.1.store _ value constant, proper.2⟩
    · exact proper
  | outside start stop nt =>
    simp only [Sentence.record]
    split
    · exact ⟨proper.1, proper.2.store _ value constant⟩
    · exact proper

theorem proper_resolve {work : Work W} (proper : work.tables.Proper) (stack : List Cell) :
    (s.resolve work stack).tables.Proper := by
  fun_induction Sentence.resolve s work stack with
  | case1 work => exact proper
  | case2 work top rest answer known less ih => exact ih proper
  | case3 work top rest known sum constant complete fewer ih => exact ih (proper_record proper _ _ _)
  | case4 work top rest known sum constant cell cells demanded less ih => exact ih proper

end

namespace Engine

variable {g : Grammar} {e : Engine}

/-- No session puts into a slot what is represented without one. -/
theorem proper_after (g : Grammar) (session : List Request) :
    ∀ s ∈ ((ofGrammar g).after session).corpus, s.tables.Proper := by
  apply keeps_after (P := fun e : Engine => ∀ s ∈ e.corpus, s.tables.Proper)
  · intro e string cell proper
    cases found : e.corpus[string]? with
    | none =>
      rw [weigh_of_missing found]
      exact proper
    | some s =>
      have here := proper s (Array.mem_of_getElem? found)
      rw [weigh_of_found found]
      intro other member
      rcases Array.mem_or_eq_of_mem_setIfInBounds member with old | rfl
      · exact proper other old
      · exact proper_resolve ⟨here.1.sync _, here.2.sync _⟩ [cell]
  · intro e updates proper
    unfold setValues
    split
    · exact proper
    · exact proper
  · intro e proper s member
    rcases Array.mem_map.mp member with ⟨before, old, rfl⟩
    exact ⟨MemoTable.proper_invalidate _, MemoTable.proper_invalidate _⟩
  · intro e strings proper
    unfold setCorpus
    split
    · exact proper
    · rename_i corpus read
      intro s member
      have fresh := (readStrings_eq_ok read s (by simpa using member)).2.2
      rw [fresh]
      exact ⟨MemoTable.proper_empty, MemoTable.proper_empty⟩
  · intro s member
    simp [ofGrammar] at member

/-- The cell of a string is known in the present epoch. -/
structure Knows (grammar : Grammar) (string : Nat) (tokens : Array Nat) (cell : Cell) (e : Engine) :
    Prop where
  same : e.grammar = grammar
  present : ∃ s, e.corpus[string]? = some s ∧ s.tokens = tokens ∧
    s.tables.EpochsAre (some grammar.epoch) ∧ ((grammar.sentence tokens).known? s.tables cell).isSome

theorem Consistent.knows_weighed (consistent : Consistent g e) {string : Nat} {s : CorpusString}
    (found : e.corpus[string]? = some s) (cell : Cell) :
    Knows e.grammar string s.tokens cell (e.weigh string cell).2 := by
  have valid := consistent.corpus s (Array.mem_of_getElem? found)
  have inside := (Array.getElem?_eq_some_iff.mp found).1
  have sound : (e.grammar.sentence s.tokens).Sound
    (Work.mk (s.tables.sync e.grammar.epoch) e.counters).tables := valid.inDate.sound
  rw [weigh_of_found found]
  refine ⟨rfl, _, Array.getElem?_setIfInBounds_self_of_lt inside, rfl, ?_, ?_⟩
  · exact epochs_resolve (epochs_sync s.tables e.grammar.epoch) [cell]
  · exact (resolve_sound _ [cell] sound).2.2 cell List.mem_cons_self

theorem Consistent.knows_weigh {grammar : Grammar} {string : Nat} {tokens : Array Nat} {cell : Cell}
    (consistent : Consistent g e) (knows : Knows grammar string tokens cell e) (string' : Nat)
    (cell' : Cell) : Knows grammar string tokens cell (e.weigh string' cell').2 := by
  obtain ⟨rfl, s, found, rfl, stamped, known⟩ := knows
  cases found' : e.corpus[string']? with
  | none =>
    rw [weigh_of_missing found']
    exact ⟨rfl, s, found, rfl, stamped, known⟩
  | some s' =>
    by_cases same : string' = string
    · subst same
      cases found.symm.trans found'
      have valid := consistent.corpus s (Array.mem_of_getElem? found)
      have inside := (Array.getElem?_eq_some_iff.mp found).1
      have sound := valid.inDate.sound
      rw [sync_of_epochs stamped] at sound
      have sound : (e.grammar.sentence s.tokens).Sound (Work.mk s.tables e.counters).tables := sound
      rw [weigh_of_found found, sync_of_epochs stamped]
      refine ⟨rfl, _, Array.getElem?_setIfInBounds_self_of_lt inside, rfl, ?_, ?_⟩
      · exact epochs_resolve stamped [cell']
      · exact (resolve_sound _ [cell'] sound).2.1 cell known
    · rw [weigh_of_found found']
      refine ⟨rfl, s, ?_, rfl, stamped, known⟩
      rw [← found]
      exact Array.getElem?_setIfInBounds_ne same

/-- What a question evaluated stays known as long as only questions follow. -/
theorem Consistent.knows_asked {grammar : Grammar} {string : Nat} {tokens : Array Nat} {cell : Cell}
    (consistent : Consistent g e) (knows : Knows grammar string tokens cell e) {later : List Request}
    (asks : ∀ request ∈ later, request.asks = true) :
    Knows grammar string tokens cell (e.after later) := by
  have kept := keeps_asked (P := fun e => Consistent g e ∧ Knows grammar string tokens cell e)
    (fun e string' cell' holds =>
      ⟨(holds.1.weigh string' cell').1, holds.1.knows_weigh holds.2 string' cell'⟩)
    asks ⟨consistent, knows⟩
  exact kept.2

theorem Consistent.ones {d : Declarations} (built : d.grammar = .ok g) (consistent : Consistent g e)
    (tokens : Array Nat) : let p := e.grammar.sentence tokens
    ∀ rule < p.rules.rules.size, p.certain rule = true → p.value rule = 1.0 := by
  intro p rule inside certain
  have value := RuleValues.value_of_isCertain consistent.grammar.evaluated certain
  have size : e.grammar.values.sources.size = p.rules.rules.size := by
    change _ = e.grammar.rules.rules.size
    rw [consistent.grammar.sources, consistent.grammar.rules]
    exact Grammar.sources_size built
  rw [if_pos (by rw [size]; exact inside)] at value
  exact value

theorem after_append (e : Engine) (session : List Request) (request : Request) (later : List Request) :
    e.after (session ++ request :: later) = ((e.after session).answer request).2.after later := by
  simp only [after, List.foldl_append, List.foldl_cons]

/-- The tables of a string after questions, of which one was about the cell. -/
theorem Consistent.told {tokens : Array Nat} {string : Nat} {cell : Cell} {grammar : Grammar}
    (consistent : Consistent g e) (knows : Knows grammar string tokens cell e) {later : List Request}
    (asks : ∀ request ∈ later, request.asks = true) :
    ∃ s, (e.after later).corpus[string]? = some s ∧ (grammar.sentence tokens).Sound s.tables ∧
      ((grammar.sentence tokens).known? s.tables cell).isSome := by
  obtain ⟨same, s, found, text, stamped, known⟩ := consistent.knows_asked knows asks
  have sound := ((consistent.after later).corpus s (Array.mem_of_getElem? found)).inDate.sound
  rw [same, sync_of_epochs stamped, text] at sound
  exact ⟨s, found, sound, known⟩

section

variable {string start stop nt : Nat} (span : e.checkSpan start stop string nt = .ok ())

include span

theorem answer_inside : (e.answer (.inside start stop string nt)).2 =
    (e.weigh string (.inside start stop nt)).2 := by
  simp only [answer, reply, Engine.inside, span]

theorem answer_outside : (e.answer (.outside start stop string nt)).2 =
    (e.weigh string (.outside start stop nt)).2 := by
  simp only [answer, reply, Engine.outside, span]

end

/-- What an evaluated cell says of the derivations of its span and of what can surround it. First the
cells that a question is about, whatever other questions follow; then all cells that were evaluated on
the way; then the constant ones, from whichever epoch they are. -/
theorem entries_classify {d : Declarations} (built : d.grammar = .ok g) (session : List Request)
    {string : Nat} {s : CorpusString} (present : ((ofGrammar g).after session).corpus[string]? = some s)
    {start stop nt index : Nat}
    (cell : (⟨s.tokens.size, g.rules.nonTerminals⟩ : SpanGrid).index? start stop nt = some index) :
    let e := (ofGrammar g).after session
    let p := e.grammar.sentence s.tokens
    let trees := {tree : Derivation | p.Derives tree start stop nt}
    let surroundings := {around : Surrounding | p.Surrounds around start stop nt}
    let insideTold (tables : Tables Float) :=
      tables.inside.Classifies index trees fun tree => p.FormulaFree tree.rules
    let outsideTold (tables : Tables Float) :=
      tables.outside.Classifies index surroundings fun around => p.FormulaFree around.rules
    (∀ later : List Request, (∀ request ∈ later, request.asks = true) →
      (∃ s', ((ofGrammar g).after (session ++ .inside start stop string nt :: later)).corpus[string]? =
          some s' ∧ insideTold s'.tables) ∧
        ∃ s', ((ofGrammar g).after (session ++ .outside start stop string nt :: later)).corpus[string]? =
          some s' ∧ outsideTold s'.tables) ∧
      (s.tables.EpochsAre (some e.grammar.epoch) →
        ((s.tables.inside.lookup? index).isSome → insideTold s.tables) ∧
          ((s.tables.outside.lookup? index).isSome → outsideTold s.tables)) ∧
      (s.tables.inside.entry? index = some .one →
        (e.inside start stop string nt).1 = .ok 1.0 ∧ (∃! tree, tree ∈ trees) ∧
          ∀ tree ∈ trees, p.FormulaFree tree.rules) ∧
      (s.tables.outside.entry? index = some .one →
        (e.outside start stop string nt).1 = .ok 1.0 ∧ (∃! around, around ∈ surroundings) ∧
          ∀ around ∈ surroundings, p.FormulaFree around.rules) := by
  intro e p trees surroundings insideTold outsideTold
  have consistent : Consistent g e := (consistent_ofGrammar built).after session
  have rules : p.rules = g.rules := consistent.grammar.rules
  have formed : p.rules.WellFormed := by
    rw [rules]
    exact Grammar.rules_wellFormed built
  have ones := consistent.ones built s.tokens
  have valid := consistent.corpus s (Array.mem_of_getElem? present)
  have cell : p.grid.index? start stop nt = some index := by
    rw [Sentence.grid, rules]
    exact cell
  have holds := (SpanGrid.index_eq_some_iff.mp cell).1
  have span : e.checkSpan start stop string nt = .ok () := by
    rw [Consistent.checkSpan_eq present, if_pos holds]
  refine ⟨?_, ?_, ?_, ?_⟩
  · intro later asks
    have knows (cell : Cell) := consistent.knows_weighed present cell
    constructor
    · have proper := proper_after g (session ++ .inside start stop string nt :: later)
      rw [after_append, answer_inside span] at proper ⊢
      obtain ⟨s', found, sound, known⟩ := (consistent.weigh string _).1.told (knows _) asks
      have proper := (proper s' (Array.mem_of_getElem? found)).1
      exact ⟨s', found, classifies_inside formed ones cell sound proper known⟩
    · have proper := proper_after g (session ++ .outside start stop string nt :: later)
      rw [after_append, answer_outside span] at proper ⊢
      obtain ⟨s', found, sound, known⟩ := (consistent.weigh string _).1.told (knows _) asks
      have proper := (proper s' (Array.mem_of_getElem? found)).2
      exact ⟨s', found, classifies_outside formed ones cell sound proper known⟩
  · intro stamped
    have proper := proper_after g session s (Array.mem_of_getElem? present)
    have sound := valid.inDate.sound
    rw [sync_of_epochs stamped] at sound
    constructor
    · intro known
      rw [← known_inside cell] at known
      exact classifies_inside formed ones cell sound proper.1 known
    · intro known
      rw [← known_outside cell] at known
      exact classifies_outside formed ones cell sound proper.2 known
  · intro one
    obtain ⟨settled, single⟩ := one_inside formed ones cell valid.inDate one
    refine ⟨?_, single⟩
    rw [consistent.inside_eq present, if_pos holds]
    rw [settled]
    rfl
  · intro one
    obtain ⟨settled, single⟩ := one_outside formed ones cell valid.inDate one
    refine ⟨?_, single⟩
    rw [consistent.outside_eq present, if_pos holds]
    rw [settled]
    rfl

/-- The start cell of three tokens, and a token within them, after a question each. -/
theorem sample_entries_classify :
    let g := Declarations.sampleGrammar 0.25
    let e := (ofGrammar g).after [.setCorpus ["aab"]]
    let p := e.grammar.sentence #[0, 0, 1]
    (∃ s, ((ofGrammar g).after [.setCorpus ["aab"], .inside 0 2 0 0]).corpus[0]? = some s ∧
      s.tables.inside.Classifies 2 {tree | p.Derives tree 0 2 0} fun tree => p.FormulaFree tree.rules) ∧
    ∃ s, ((ofGrammar g).after [.setCorpus ["aab"], .outside 1 1 0 0]).corpus[0]? = some s ∧
      s.tables.outside.Classifies 4 {around | p.Surrounds around 1 1 0}
        fun around => p.FormulaFree around.rules := by
  intro g e p
  have present : e.corpus[0]? = some { text := "aab", tokens := #[0, 0, 1] } := by
    simp only [e, g, sample_reads]
    rfl
  have built := Declarations.sample_grammar 0.25
  have whole : (⟨3, g.rules.nonTerminals⟩ : SpanGrid).index? 0 2 0 = some 2 := by decide
  have part : (⟨3, g.rules.nonTerminals⟩ : SpanGrid).index? 1 1 0 = some 4 := by decide
  have none : ∀ request ∈ ([] : List Request), request.asks = true := by simp
  exact ⟨((entries_classify built [.setCorpus ["aab"]] present whole).1 [] none).1,
    ((entries_classify built [.setCorpus ["aab"]] present part).1 [] none).2⟩

end Engine

end StochasticGrammar
