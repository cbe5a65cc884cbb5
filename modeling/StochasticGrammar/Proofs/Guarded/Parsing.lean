import StochasticGrammar.Proofs.Double.Order
import StochasticGrammar.Proofs.Guarded.Reads
import StochasticGrammar.Proofs.Tree.Recurrence

/-!
The best parse with every read guarded. The chart has a cell for every pair of tokens, with an entry for
each non-terminal that derives the span; an entry has a weight and says how it came about, and the tree is
read off the entries in the end. The entries agree with those of the chart that holds whole trees, so that
every entry that another one names is there.
-/

namespace StochasticGrammar

/-- How an entry came about: by the rule of a token, or by a rule with a split and two non-terminals. -/
inductive Origin where
  | token (rule : Nat)
  | split (rule m left right : Nat)

structure Entry where
  weight : Float
  origin : Origin

/-- By the first and the last token of a span. -/
abbrev EntryChart := Array (Array (Std.HashMap Nat Entry))

namespace EntryChart

def cell? (chart : EntryChart) (start stop : Nat) : Option (Std.HashMap Nat Entry) := do
  let row ← chart[start]?
  row[stop]?

def put? (chart : EntryChart) (start stop : Nat) (cell : Std.HashMap Nat Entry) : Option EntryChart := do
  let row ← chart[start]?
  if stop < row.size then return chart.setIfInBounds start (row.setIfInBounds stop cell)
  else none

/-- The tree of an entry, through the entries that it names. Each names entries of shorter spans. -/
def tree? (chart : EntryChart) (start stop nt : Nat) : Option Derivation := do
  let cell ← chart.cell? start stop
  let entry ← cell[nt]?
  match entry.origin with
  | .token rule => return .leaf rule
  | .split rule m left right =>
    if inside : start ≤ m ∧ m < stop then
      let first ← tree? chart start m left
      let second ← tree? chart (m + 1) stop right
      return .node rule first second
    else none
termination_by stop - start

end EntryChart

def improve (best : Option Entry) (new : Entry) : Option Entry :=
  match best with
  | none => if 0.0 < new.weight then some new else none
  | some old => if old.weight < new.weight then some new else some old

namespace Grammar

variable (g : Grammar) (tokens : Array Nat)

def mayEnclose? (nt start stop : Nat) : Option Bool := do
  let first ← g.rules.pruning.first.get? nt (← tokens[start]?)
  let last ← g.rules.pruning.last.get? nt (← tokens[stop]?)
  return first && last

def tokenBest? (start nt : Nat) : Option (Option Entry) := do
  match ← g.terminalRule? nt (← tokens[start]?) with
  | none => return none
  | some rule => return improve none ⟨← g.value? rule, .token rule⟩

def splitBest? (chart : EntryChart) (r : BinaryRule) (value : Float) (start stop : Nat) (best : Option Entry)
    (m : Nat) : Option (Option Entry) := do
  match (← chart.cell? start m)[r.left]? with
  | none => return best
  | some left =>
    match (← chart.cell? (m + 1) stop)[r.right]? with
    | none => return best
    | some right => return improve best ⟨value * left.weight * right.weight, .split r.index m r.left r.right⟩

def ruleBest? (chart : EntryChart) (start stop : Nat) (best : Option Entry) (index : Nat) :
    Option (Option Entry) := do
  match ← g.binary? index with
  | none => return best
  | some r =>
    let value ← g.value? index
    if value ≤ 0.0 then return best
    else (upTo start stop).foldlM (splitBest? chart r value start stop) best

def spanBest? (chart : EntryChart) (start stop nt : Nat) : Option (Option Entry) := do
  if ← g.mayEnclose? tokens nt start stop then
    (← row? g.rules.index.binary nt).foldlM (g.ruleBest? chart start stop) none
  else return none

/-- The entries of all non-terminals that have one. -/
def gather? (best? : Nat → Option (Option Entry)) : Option (Std.HashMap Nat Entry) :=
  (upTo 0 g.rules.nonTerminals).foldlM (fun cell nt => do
    match ← best? nt with
    | none => return cell
    | some entry => return cell.insert nt entry) ∅

def enterToken? (chart : EntryChart) (start : Nat) : Option EntryChart := do
  chart.put? start start (← g.gather? (g.tokenBest? tokens start))

/-- The spans of a length, from the left to the right. -/
def enterLength? (chart : EntryChart) (length : Nat) : Option EntryChart := do
  (upTo 0 ((← minus? tokens.size length) + 1)).foldlM (fun chart start => do
    let stop ← minus? (start + length) 1
    chart.put? start stop (← g.gather? (g.spanBest? tokens chart start stop))) chart

def entryChart? : Option EntryChart := do
  let empty : EntryChart := .replicate tokens.size (.replicate tokens.size ∅)
  let chart ← (upTo 0 tokens.size).foldlM (g.enterToken? tokens) empty
  (upTo 2 (tokens.size + 1)).foldlM (g.enterLength? tokens) chart

def bestParse? (string : Nat) : Option (Except Error (Best Float)) := do
  if tokens.isEmpty then return .error (.noParse string)
  let chart ← g.entryChart? tokens
  let last ← minus? tokens.size 1
  match (← chart.cell? 0 last)[g.rules.start]? with
  | none => return .error (.noParse string)
  | some entry =>
    if 0.0 < entry.weight then return .ok ⟨entry.weight, ← chart.tree? 0 last g.rules.start⟩
    else return .error (.noParse string)

end Grammar

/-- Two loops over the same items, one of them guarded, whose results stay related. -/
theorem foldlM_related {α β γ : Type} {R : β → γ → Prop} {step : β → α → Option β} {next : γ → α → γ}
    {items : List α} (each : ∀ b c, R b c → ∀ a ∈ items, ∃ b', step b a = some b' ∧ R b' (next c a)) {b : β} {c : γ}
    (related : R b c) : ∃ b', items.foldlM step b = some b' ∧ R b' (items.foldl next c) := by
  induction items generalizing b c with
  | nil => exact ⟨b, rfl, related⟩
  | cons a items ih =>
    obtain ⟨b', here, related'⟩ := each b c related a List.mem_cons_self
    rw [List.foldlM_cons, here]
    exact ih (fun b c related a member => each b c related a (List.mem_cons_of_mem _ member)) related'

theorem related_cases {α β : Type} {R : α → β → Prop} {a : Option α} {b : Option β} (related : Option.Rel R a b) :
    a = none ∧ b = none ∨ ∃ x y, a = some x ∧ b = some y ∧ R x y := by
  cases related with
  | none => exact .inl ⟨rfl, rfl⟩
  | some here => exact .inr ⟨_, _, rfl, rfl, here⟩

/-- An entry says of a span what the best derivation is by, and where it goes on. -/
inductive Records (s : Sentence Float) (start stop : Nat) : Entry → Best Float → Prop where
  | token (weight : Float) (rule : Nat) : Records s start stop ⟨weight, .token rule⟩ ⟨weight, .leaf rule⟩
  | split {m left right : Nat} {first second : Best Float} (weight : Float) (rule : Nat) (low : start ≤ m)
      (high : m < stop) (left_lt : left < s.rules.nonTerminals) (right_lt : right < s.rules.nonTerminals)
      (isFirst : s.bestChart.get? start m left = some first)
      (isSecond : s.bestChart.get? (m + 1) stop right = some second) :
      Records s start stop ⟨weight, .split rule m left right⟩ ⟨weight, .node rule first.tree second.tree⟩

/-- The cells of the chart are there, and those that are done agree with the chart of trees. -/
structure EntryChart.Tracks (s : Sentence Float) (chart : EntryChart) (done : Nat → Nat → Prop) : Prop where
  present : ∀ {start stop : Nat}, start < s.tokens.size → stop < s.tokens.size →
    ∃ cell, chart.cell? start stop = some cell
  agrees : ∀ {start stop nt : Nat} {cell : Std.HashMap Nat Entry}, start ≤ stop → stop < s.tokens.size →
    done start stop → nt < s.rules.nonTerminals → chart.cell? start stop = some cell →
      Option.Rel (Records s start stop) cell[nt]? (s.bestChart.get? start stop nt)

section

variable {s : Sentence Float} {start stop : Nat}

theorem Records.weight_eq {entry : Entry} {best : Best Float} (records : Records s start stop entry best) :
    entry.weight = best.weight := by
  cases records <;> rfl

/-- The better of two is the same one, since they weigh the same. -/
theorem records_improve {old : Option Entry} {old' : Option (Best Float)} {new : Entry} {new' : Best Float}
    (related : Option.Rel (Records s start stop) old old') (records : Records s start stop new new') :
    Option.Rel (Records s start stop) (improve old new) (better old' new') := by
  cases related with
  | none =>
    change Option.Rel _ (if 0.0 < new.weight then some new else none) (if 0.0 < new'.weight then some new' else none)
    rw [records.weight_eq]
    split
    · exact .some records
    · exact .none
  | some kept =>
    simp only [improve, better, records.weight_eq, kept.weight_eq]
    split
    · exact .some records
    · exact .some kept

theorem improve_of_nan (best : Option Entry) {new : Entry} (nan : Double.number new.weight = .notANumber) :
    improve best new = best := by
  cases best with
  | none => exact if_neg (Double.not_pos_of_nan nan)
  | some old => exact if_neg (Double.not_lt_of_nan nan)

end

section

variable {g : Grammar} {tokens : Array Nat} (ranged : g.Ranged) {start stop nt : Nat}

include ranged

theorem tokenBest_related (inside : start < tokens.size) :
    ∃ entry, g.tokenBest? tokens start nt = some entry ∧
      Option.Rel (Records (g.sentence tokens) start start) entry ((g.sentence tokens).bestToken start nt) := by
  have token : tokens[start]? = some tokens[start] := Array.getElem?_eq_getElem inside
  have token' : (g.sentence tokens).tokens[start]? = some tokens[start] := token
  simp only [Grammar.tokenBest?, Sentence.bestToken, token, token', Option.bind_eq_bind, Option.bind_some,
    Grammar.terminalRule_eq ranged.formed]
  have rules : (g.sentence tokens).rules = g.rules := rfl
  rw [rules]
  cases found : g.rules.terminalRule? nt tokens[start] with
  | none => exact ⟨none, rfl, .none⟩
  | some rule =>
    have present := (RuleSet.terminalRule_eq_some_iff ranged.formed).mp found
    have numbered : rule < g.rules.rules.size := (Array.getElem?_eq_some_iff.mp present).1
    simp only [Grammar.value_eq ranged numbered, Option.bind_some]
    exact ⟨_, rfl, records_improve .none (.token _ rule)⟩

section

variable {chart : EntryChart}
  (tracks : chart.Tracks (g.sentence tokens) fun first last => last - first < stop - start)
  (inside : stop < tokens.size)

include tracks inside

theorem splitBest_related {r : BinaryRule} (member : r ∈ BinaryRule.all g.rules.rules) {m : Nat} (low : start ≤ m)
    (high : m < stop) {best : Option Entry} {best' : Option (Best Float)}
    (related : Option.Rel (Records (g.sentence tokens) start stop) best best') :
    ∃ entry, Grammar.splitBest? chart r (g.values.value r.index) start stop best m = some entry ∧
      Option.Rel (Records (g.sentence tokens) start stop) entry
        ((g.sentence tokens).trySplit (g.sentence tokens).bestChart r start stop best' m) := by
  obtain ⟨-, left, right⟩ := ranged.formed.binary_of_mem member
  have within : m < tokens.size := by omega
  obtain ⟨cell, found⟩ := tracks.present (by omega : start < tokens.size) within
  obtain ⟨cell', found'⟩ := tracks.present (by omega : m + 1 < tokens.size) inside
  have first := tracks.agrees low within (by omega) left found
  have second := tracks.agrees high inside (by omega) right found'
  simp only [Grammar.splitBest?, Sentence.trySplit, found, found', Option.bind_eq_bind, Option.bind_some]
  rcases related_cases first with ⟨gone, gone'⟩ | ⟨one, one', here, here', records⟩
  · simp only [gone, gone']
    exact ⟨best, rfl, related⟩
  · rcases related_cases second with ⟨gone, gone'⟩ | ⟨two, two', there, there', records'⟩
    · simp only [here, here', gone, gone']
      exact ⟨best, rfl, related⟩
    · simp only [here, here', there, there', records.weight_eq, records'.weight_eq]
      exact ⟨_, rfl, records_improve related (.split _ _ low high left right here' there')⟩

omit ranged in
/-- A rule whose value is not a number is tried, but nothing that comes of it is kept. -/
theorem splitBest_of_nan (r : BinaryRule) {m : Nat} (low : start ≤ m) (high : m < stop) (best : Option Entry)
    {value : Float} (nan : Double.number value = .notANumber) :
    Grammar.splitBest? chart r value start stop best m = some best := by
  obtain ⟨cell, found⟩ := tracks.present (by omega : start < tokens.size) (by omega : m < tokens.size)
  obtain ⟨cell', found'⟩ := tracks.present (by omega : m + 1 < tokens.size) inside
  simp only [Grammar.splitBest?, found, found', Option.bind_eq_bind, Option.bind_some]
  cases cell[r.left]? with
  | none => rfl
  | some left =>
    cases cell'[r.right]? with
    | none => rfl
    | some right =>
      have product := Double.nan_mul (x := value * left.weight) (y := right.weight) (.inl (Double.nan_mul (.inl nan)))
      exact congrArg some (improve_of_nan best product)

theorem ruleBest_related {r : BinaryRule} (member : r ∈ BinaryRule.all g.rules.rules) {best : Option Entry}
    {best' : Option (Best Float)} (related : Option.Rel (Records (g.sentence tokens) start stop) best best') :
    ∃ entry, g.ruleBest? chart start stop best r.index = some entry ∧
      Option.Rel (Records (g.sentence tokens) start stop) entry
        ((g.sentence tokens).tryRule (g.sentence tokens).bestChart start stop best' r) := by
  have present := mem_allBinary.mp member
  have numbered : r.index < g.rules.rules.size := (Array.getElem?_eq_some_iff.mp present).1
  simp only [Grammar.ruleBest?, Sentence.tryRule, Grammar.binary_eq present, Grammar.value_eq ranged numbered,
    Option.bind_eq_bind, Option.bind_some]
  -- A value that is not a number passes the test of the one loop, but not that of the other.
  rcases Double.pos_cases (g.values.value r.index) with ⟨low, other⟩ | ⟨other, positive⟩ | ⟨other, nan⟩
  · rw [if_pos low]
    split
    · rename_i positive
      exact absurd positive other
    · exact ⟨best, rfl, related⟩
  · rw [if_neg other]
    split
    · refine foldlM_related ?_ related
      intro best best' related m among
      obtain ⟨from_start, to_stop⟩ := mem_upTo.mp among
      exact splitBest_related ranged tracks inside member from_start to_stop related
    · rename_i zero
      exact absurd positive zero
  · rw [if_neg other]
    split
    · rename_i positive
      exact absurd positive (Double.not_pos_of_nan nan)
    · refine ⟨best, foldlM_of_kept ?_, related⟩
      intro m among
      obtain ⟨from_start, to_stop⟩ := mem_upTo.mp among
      exact splitBest_of_nan tracks inside r from_start to_stop best nan

omit tracks in
theorem mayEnclose_eq (order : start ≤ stop) (range : nt < g.rules.nonTerminals) :
    g.mayEnclose? tokens nt start stop = some ((g.sentence tokens).mayEnclose nt start stop) := by
  have first := BitTable.get_eq (RuleSet.fits_first ranged.formed) range
  have last := BitTable.get_eq (RuleSet.fits_last ranged.formed) range
  have begins : start < tokens.size := by omega
  simp [Grammar.mayEnclose?, Sentence.mayEnclose, Grammar.sentence, Grammar.weighted, begins, inside, first, last]

theorem spanBest_related (order : start < stop) (range : nt < g.rules.nonTerminals) :
    ∃ entry, g.spanBest? tokens chart start stop nt = some entry ∧
      Option.Rel (Records (g.sentence tokens) start stop) entry
        ((g.sentence tokens).bestSpan (g.sentence tokens).bestChart start stop nt) := by
  simp only [Grammar.spanBest?, Sentence.bestSpan, mayEnclose_eq ranged inside (Nat.le_of_lt order) range,
    Grammar.row_binary range, Option.bind_eq_bind, Option.bind_some, List.foldlM_map]
  split
  · refine foldlM_related ?_ .none
    intro best best' related r member
    exact ruleBest_related ranged tracks inside (Grammar.all_of_binariesOf ranged member) related
  · exact ⟨none, rfl, .none⟩

end

end

end StochasticGrammar
