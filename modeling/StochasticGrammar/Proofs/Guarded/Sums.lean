import StochasticGrammar.Proofs.Guarded.Reads

/-!
The sums of cells with every read and every difference guarded. A sum goes in loops over the rules in a
row and, for each of them, over the splits or the ends that the rule leaves; all of them stay in range, so
the sums are those that are formed without guards.
-/

namespace StochasticGrammar

/-- A loop over the rules in a row of a table and, for each of them, over a range. -/
structure Sweep where
  rows : Array (List BinaryRule)
  range? : BinaryRule → Option (List Nat)
  fits? : BinaryRule → Nat → Option Bool
  cells? : BinaryRule → Nat → Option (Cell × Cell)

namespace Grammar

variable (g : Grammar) (tokens : Array Nat)

def read? (tables : Tables Float) : Cell → Option (Option (Float × Bool))
  | .inside start stop nt =>
    match (g.sentence tokens).grid.index? start stop nt with
    | some index => tables.inside.read? index
    | none => some (some (0, true))
  | .outside start stop nt =>
    match (g.sentence tokens).grid.index? start stop nt with
    | some index => tables.outside.read? index
    | none => some (some (0, true))

/-- Adds a product. The second cell is looked up only when the first is not a constant zero. -/
def addProduct? (cell : Cell) (tables : Tables Float) (value : Float) (certain : Bool) (first second : Cell)
    (tally : Tally Float) : Option (Tally Float) := do
  match ← g.read? tokens tables first with
  | none => return { tally with missing := first :: tally.missing }
  | some (a, aConstant) =>
    if a == 0 && aConstant then return tally
    match ← g.read? tokens tables second with
    | none => return { tally with missing := second :: tally.missing }
    | some (b, bConstant) =>
      if b == 0 && bConstant then return tally
      return { tally with
        sum := tally.sum + cell.product value a b
        constant := tally.constant && (certain && aConstant && bConstant) }

def sweep? (cell : Cell) (tables : Tables Float) (sweep : Sweep) (nt : Nat) (tally : Tally Float) :
    Option (Tally Float) := do
  (← row? sweep.rows nt).foldlM (fun tally index => do
    match ← g.binary? index with
    | none => return tally
    | some r =>
      let value ← g.value? index
      let certain ← g.certain? index
      (← sweep.range? r).foldlM (fun tally m => do
        if ← sweep.fits? r m then
          let cells ← sweep.cells? r m
          g.addProduct? tokens cell tables value certain cells.1 cells.2 tally
        else return tally) tally) tally

/-- The splits of a span in two parts. A part that covers a single token leaves one split. -/
def insideSweep (start stop : Nat) : Sweep where
  rows := g.rules.index.binary
  range? r := do
    if ← g.single? r.left then return upTo start (start + 1)
    else if ← g.single? r.right then return upTo (← minus? stop 1) stop
    else return upTo start stop
  fits? r m := do return (← g.mayCover? tokens r.left start m) && (← g.mayCover? tokens r.right (m + 1) stop)
  cells? r m := some (.inside start m r.left, .inside (m + 1) stop r.right)

/-- The ends of siblings to the right of a span; the last token is `last`. -/
def rightSweep (last start stop : Nat) : Sweep where
  rows := g.rules.index.asLeft
  range? r := do
    if ← g.single? r.right then return upTo (stop + 1) (min last (stop + 1) + 1)
    else return upTo (stop + 1) (last + 1)
  fits? r e := g.mayCover? tokens r.right (stop + 1) e
  cells? r e := some (.inside (stop + 1) e r.right, .outside start e r.lhs)

/-- The beginnings of siblings to the left of a span. -/
def leftSweep (start stop : Nat) : Sweep where
  rows := g.rules.index.asRight
  range? r := do
    if ← g.single? r.left then return upTo (start - 1) start
    else return upTo 0 start
  fits? r b := do g.mayCover? tokens r.left b (← minus? start 1)
  cells? r b := do
    let before ← minus? start 1
    return (.inside b before r.left, .outside b stop r.lhs)

def tokenSum? (start nt : Nat) : Option (Tally Float) := do
  match ← g.terminalRule? nt (← tokens[start]?) with
  | some rule => return ⟨← g.value? rule, ← g.certain? rule, []⟩
  | none => return ⟨0, true, []⟩

def insideSum? (tables : Tables Float) (start stop nt : Nat) : Option (Tally Float) := do
  if !(← g.mayCover? tokens nt start stop) then return ⟨0, true, []⟩
  if start = stop then return (← g.tokenSum? tokens start nt)
  g.sweep? tokens (.inside start stop nt) tables (g.insideSweep tokens start stop) nt ⟨0, true, []⟩

/-- Whether the token before a span can stand before the non-terminal; at the beginning there is none. -/
def mayFollow? (nt start : Nat) : Option Bool :=
  if 0 < start then do g.rules.pruning.before.get? nt (← tokens[← minus? start 1]?)
  else some true

def mayPrecede? (last nt stop : Nat) : Option Bool :=
  if stop < last then do g.rules.pruning.after.get? nt (← tokens[stop + 1]?)
  else some true

def mayStand? (last nt start stop : Nat) : Option Bool := do
  return (← g.mayFollow? tokens nt start) && (← g.mayPrecede? tokens last nt stop)

def outsideSum? (tables : Tables Float) (start stop nt : Nat) : Option (Tally Float) := do
  let last ← minus? tokens.size 1
  if start = 0 ∧ stop = last then return ⟨if nt = g.rules.start then 1 else 0, true, []⟩
  if !(← g.mayStand? tokens last nt start stop) then return ⟨0, true, []⟩
  let cell := Cell.outside start stop nt
  let right ← g.sweep? tokens cell tables (g.rightSweep tokens last start stop) nt ⟨0, true, []⟩
  g.sweep? tokens cell tables (g.leftSweep tokens start stop) nt right

def sum? (tables : Tables Float) : Cell → Option (Tally Float)
  | .inside start stop nt => g.insideSum? tokens tables start stop nt
  | .outside start stop nt => g.outsideSum? tokens tables start stop nt

section

variable {g tokens} {tables : Tables Float} (inside : tables.inside.WellFormed) (outside : tables.outside.WellFormed)

include inside outside

theorem read_eq (cell : Cell) : g.read? tokens tables cell = some ((g.sentence tokens).known? tables cell) := by
  cases cell with
  | inside start stop nt =>
    simp only [read?, Sentence.known?]
    cases (g.sentence tokens).grid.index? start stop nt with
    | none => rfl
    | some index => exact MemoTable.read_eq inside index
  | outside start stop nt =>
    simp only [read?, Sentence.known?]
    cases (g.sentence tokens).grid.index? start stop nt with
    | none => rfl
    | some index => exact MemoTable.read_eq outside index

theorem addProduct_eq (cell : Cell) (rule : Nat) (first second : Cell) (tally : Tally Float) :
    g.addProduct? tokens cell tables (g.values.value rule) (g.values.isCertain rule) first second tally =
      some ((g.sentence tokens).addTerm cell tables tally ⟨rule, first, second⟩) := by
  unfold addProduct? Sentence.addTerm
  simp only [read_eq inside outside, Option.bind_eq_bind, Option.bind_some]
  cases (g.sentence tokens).known? tables first with
  | none => rfl
  | some answer =>
    cases (g.sentence tokens).known? tables second with
    | none =>
      simp only [apply_ite some]
      rfl
    | some answer' =>
      simp only [apply_ite some]
      rfl

/-- A sweep adds the terms of its rules and of what fits in their ranges. -/
theorem sweep_eq (ranged : g.Ranged) (cell : Cell) {sweep : Sweep} {nt : Nat} {row : List BinaryRule}
    (found : row? sweep.rows nt = some (row.map BinaryRule.index))
    (listed : ∀ r ∈ row, r ∈ BinaryRule.all g.rules.rules) {range : BinaryRule → List Nat}
    {fits : BinaryRule → Nat → Bool} {cells : BinaryRule → Nat → Cell × Cell}
    (ranges : ∀ r ∈ row, sweep.range? r = some (range r))
    (fitting : ∀ r ∈ row, ∀ m ∈ range r, sweep.fits? r m = some (fits r m))
    (celled : ∀ r ∈ row, ∀ m ∈ range r, sweep.cells? r m = some (cells r m)) (tally : Tally Float) :
    g.sweep? tokens cell tables sweep nt tally =
      some ((row.flatMap fun r => ((range r).filter (fits r)).map fun m =>
        (⟨r.index, (cells r m).1, (cells r m).2⟩ : Term)).foldl ((g.sentence tokens).addTerm cell tables) tally) := by
  rw [sweep?, found, List.foldl_flatMap]
  simp only [Option.bind_eq_bind, Option.bind_some, List.foldlM_map]
  apply foldlM_eq_some
  intro tally r member
  have present := mem_allBinary.mp (listed r member)
  have numbered : r.index < g.rules.rules.size := (Array.getElem?_eq_some_iff.mp present).1
  simp only [binary_eq present, value_eq ranged numbered, certain_eq ranged numbered, ranges r member,
    Option.bind_some, List.foldl_map, List.foldl_filter]
  apply foldlM_eq_some
  intro tally m here
  rw [fitting r member m here, Option.bind_some]
  cases fits r m with
  | false => rfl
  | true =>
    simp only [if_true, celled r member m here, Option.bind_some]
    exact addProduct_eq inside outside cell r.index _ _ tally

end

section

variable {g tokens} (ranged : g.Ranged) {start stop nt : Nat}

include ranged

section

variable {r : BinaryRule} (member : r ∈ BinaryRule.all g.rules.rules)

include member

theorem insideSweep_range (order : start < stop) :
    (g.insideSweep tokens start stop).range? r = some ((g.sentence tokens).splits r start stop) := by
  obtain ⟨-, left, right⟩ := ranged.formed.binary_of_mem member
  have positive : 1 ≤ stop := by omega
  have first : start + 1 - start = 1 := by omega
  have last : stop - (stop - 1) = 1 := by omega
  simp only [insideSweep, single_eq left, single_eq right, minus_eq positive, Option.bind_eq_bind, Option.bind_some,
    Sentence.splits, upTo, first, last, apply_ite some]
  rfl

theorem insideSweep_fits (order : start < stop) (inside : stop < tokens.size) {m : Nat}
    (among : m ∈ (g.sentence tokens).splits r start stop) :
    (g.insideSweep tokens start stop).fits? r m =
      some ((g.sentence tokens).mayCover r.left start m && (g.sentence tokens).mayCover r.right (m + 1) stop) := by
  obtain ⟨-, left, right⟩ := ranged.formed.binary_of_mem member
  have between := mem_splits order among
  simp only [insideSweep, mayCover_eq ranged.formed left (by omega : start < tokens.size) (by omega : m < tokens.size),
    mayCover_eq ranged.formed right (by omega : m + 1 < tokens.size) inside]
  rfl

theorem rightSweep_range (inside : stop < tokens.size) :
    (g.rightSweep tokens (tokens.size - 1) start stop).range? r = some ((g.sentence tokens).rightEnds r stop) := by
  have right := (ranged.formed.binary_of_mem member).2.2
  have one : min (tokens.size - 1) (stop + 1) + 1 - (stop + 1) = min 1 (tokens.size - (stop + 1)) := by omega
  have all : tokens.size - 1 + 1 - (stop + 1) = tokens.size - (stop + 1) := by omega
  simp only [rightSweep, single_eq right, Option.bind_eq_bind, Option.bind_some, Sentence.rightEnds,
    upTo, one, all, apply_ite (List.range' (stop + 1)), apply_ite some]
  rfl

theorem rightSweep_fits {e : Nat} (among : e ∈ (g.sentence tokens).rightEnds r stop) :
    (g.rightSweep tokens (tokens.size - 1) start stop).fits? r e =
      some ((g.sentence tokens).mayCover r.right (stop + 1) e) := by
  have right := (ranged.formed.binary_of_mem member).2.2
  have between := mem_rightEnds among
  exact mayCover_eq ranged.formed right (Nat.lt_of_le_of_lt between.1 between.2) between.2

theorem leftSweep_range : (g.leftSweep tokens start stop).range? r = some ((g.sentence tokens).leftEnds r start) := by
  have left := (ranged.formed.binary_of_mem member).2.1
  have one : start - (start - 1) = min 1 start := by omega
  simp only [leftSweep, single_eq left, Option.bind_eq_bind, Option.bind_some, Sentence.leftEnds,
    upTo, one, Nat.sub_zero, List.range_eq_range', apply_ite some]
  rfl

theorem leftSweep_fits (begins : start < tokens.size) {b : Nat}
    (among : b ∈ (g.sentence tokens).leftEnds r start) : (g.leftSweep tokens start stop).fits? r b =
      some ((g.sentence tokens).mayCover r.left b (start - 1)) := by
  have left := (ranged.formed.binary_of_mem member).2.1
  have before := mem_leftEnds among
  have positive : 1 ≤ start := by omega
  simp only [leftSweep, minus_eq positive, Option.bind_eq_bind, Option.bind_some]
  exact mayCover_eq ranged.formed left (by omega) (by omega)

end

omit ranged in
theorem leftSweep_cells {r : BinaryRule} {b : Nat} (among : b ∈ (g.sentence tokens).leftEnds r start) :
    (g.leftSweep tokens start stop).cells? r b = some (.inside b (start - 1) r.left, .outside b stop r.lhs) := by
  have before := mem_leftEnds among
  have positive : 1 ≤ start := by omega
  simp only [leftSweep, minus_eq positive, Option.bind_eq_bind, Option.bind_some]
  rfl

section

variable (known : nt < g.rules.nonTerminals)

include known

theorem mayFollow_eq (begins : start < tokens.size) : g.mayFollow? tokens nt start =
    some (start == 0 || (tokens[start - 1]?).any fun t => g.rules.pruning.before.get nt t) := by
  have before := BitTable.get_eq (RuleSet.fits_before ranged.formed) known
  by_cases first : 0 < start
  · have earlier : start - 1 < tokens.size := by omega
    have other : (start == 0) = false := by simp; omega
    simp [mayFollow?, first, minus_eq (by omega : 1 ≤ start), earlier, before, other]
  · have first : start = 0 := by omega
    simp [mayFollow?, first]

theorem mayPrecede_eq (ends : stop < tokens.size) : g.mayPrecede? tokens (tokens.size - 1) nt stop =
    some (stop + 1 == tokens.size || (tokens[stop + 1]?).any fun t => g.rules.pruning.after.get nt t) := by
  have after := BitTable.get_eq (RuleSet.fits_after ranged.formed) known
  by_cases last : stop < tokens.size - 1
  · have later : stop + 1 < tokens.size := by omega
    have other : (stop + 1 == tokens.size) = false := by simp; omega
    simp [mayPrecede?, last, later, after, other]
  · have last : stop + 1 = tokens.size := by omega
    simp [mayPrecede?, ← last]

theorem mayStand_eq (begins : start < tokens.size) (ends : stop < tokens.size) :
    g.mayStand? tokens (tokens.size - 1) nt start stop = some ((g.sentence tokens).mayStand nt start stop) := by
  rw [mayStand?, mayFollow_eq ranged known begins, mayPrecede_eq ranged known ends]
  rfl

end

theorem tokenSum_eq (begins : start < tokens.size) (covers : (g.sentence tokens).mayCover nt start start = true)
    (tables : Tables Float) : g.tokenSum? tokens start nt =
      some ((g.sentence tokens).combine tables (.inside start start nt)) := by
  have token : (g.sentence tokens).tokens[start]? = some tokens[start] := Array.getElem?_eq_getElem begins
  have here : tokens[start]? = some tokens[start] := token
  have rules : (g.sentence tokens).rules = g.rules := rfl
  simp only [tokenSum?, here, terminalRule_eq ranged.formed, Option.bind_eq_bind, Option.bind_some, Sentence.combine,
    Sentence.plan, covers, Bool.not_true, Bool.false_eq_true, if_false, Nat.lt_irrefl, token, rules]
  cases found : g.rules.terminalRule? nt tokens[start] with
  | none => rfl
  | some rule =>
    have present := (RuleSet.terminalRule_eq_some_iff ranged.formed).mp found
    have numbered : rule < g.rules.rules.size := (Array.getElem?_eq_some_iff.mp present).1
    simp only [value_eq ranged numbered, certain_eq ranged numbered, Option.bind_some]
    rfl

variable {tables : Tables Float} (stored : tables.inside.WellFormed) (stored' : tables.outside.WellFormed)
  (inside : stop < tokens.size) (known : nt < g.rules.nonTerminals)

include stored stored' inside known

/-- Of a longer span, all products that the pruning tables leave. -/
theorem insideSweep_eq (order : start < stop) :
    g.sweep? tokens (.inside start stop nt) tables (g.insideSweep tokens start stop) nt ⟨0, true, []⟩ =
      some (((g.sentence tokens).insideTerms start stop nt).foldl
        ((g.sentence tokens).addTerm (.inside start stop nt) tables) ⟨0, true, []⟩) :=
  sweep_eq stored stored' ranged _ (row_binary known) (fun _ => all_of_binariesOf ranged)
    (fun _ member => insideSweep_range ranged (all_of_binariesOf ranged member) order)
    (fun _ member _ => insideSweep_fits ranged (all_of_binariesOf ranged member) order inside)
    (fun _ _ _ _ => rfl) _

theorem rightSweep_eq (tally : Tally Float) :
    g.sweep? tokens (.outside start stop nt) tables (g.rightSweep tokens (tokens.size - 1) start stop) nt tally =
      some (((g.sentence tokens).rightTerms start stop nt).foldl
        ((g.sentence tokens).addTerm (.outside start stop nt) tables) tally) :=
  sweep_eq stored stored' ranged _ (row_asLeft known) (fun _ => all_of_withLeft ranged)
    (fun _ member => rightSweep_range ranged (all_of_withLeft ranged member) inside)
    (fun _ member _ => rightSweep_fits ranged (all_of_withLeft ranged member)) (fun _ _ _ _ => rfl) tally

theorem leftSweep_eq (order : start ≤ stop) (tally : Tally Float) :
    g.sweep? tokens (.outside start stop nt) tables (g.leftSweep tokens start stop) nt tally =
      some (((g.sentence tokens).leftTerms start stop nt).foldl
        ((g.sentence tokens).addTerm (.outside start stop nt) tables) tally) := by
  have begins : start < tokens.size := by omega
  exact sweep_eq stored stored' ranged _ (row_asRight known) (fun _ => all_of_withRight ranged)
    (fun _ member => leftSweep_range ranged (all_of_withRight ranged member))
    (fun _ member _ => leftSweep_fits ranged (all_of_withRight ranged member) begins)
    (fun _ _ _ => leftSweep_cells) tally

theorem insideSum_eq (order : start ≤ stop) : g.insideSum? tokens tables start stop nt =
    some ((g.sentence tokens).combine tables (.inside start stop nt)) := by
  have begins : start < tokens.size := by omega
  rw [insideSum?, mayCover_eq ranged.formed known begins inside]
  simp only [Option.bind_eq_bind, Option.bind_some]
  cases covers : (g.sentence tokens).mayCover nt start stop with
  | false =>
    simp only [Sentence.combine, Sentence.plan, covers]
    rfl
  | true =>
    by_cases same : start = stop
    · subst same
      simp only [Bool.not_true, Bool.false_eq_true, if_false, if_true, tokenSum_eq ranged begins covers tables]
    · have longer : start < stop := by omega
      simp only [Sentence.combine, Sentence.plan, covers, Bool.not_true, Bool.false_eq_true, if_false, if_neg same,
        if_pos longer, insideSweep_eq ranged stored stored' inside known longer]
      rfl

theorem outsideSum_eq (order : start ≤ stop) : g.outsideSum? tokens tables start stop nt =
    some ((g.sentence tokens).combine tables (.outside start stop nt)) := by
  have length : 1 ≤ tokens.size := by omega
  have whole : stop = tokens.size - 1 ↔ stop + 1 = (g.sentence tokens).tokens.size := by
    change stop = tokens.size - 1 ↔ stop + 1 = tokens.size
    omega
  rw [outsideSum?, minus_eq length]
  simp only [Option.bind_eq_bind, Option.bind_some, Sentence.combine, Sentence.plan, whole,
    mayStand_eq ranged known (Nat.lt_of_le_of_lt order inside) inside]
  split
  · rfl
  · cases (g.sentence tokens).mayStand nt start stop with
    | false => rfl
    | true =>
      simp only [Bool.not_true, Bool.false_eq_true, if_false, rightSweep_eq ranged stored stored' inside known,
        leftSweep_eq ranged stored stored' inside known order, Option.bind_some, List.foldl_append]
      rfl

end

end Grammar

end StochasticGrammar
