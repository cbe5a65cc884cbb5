import StochasticGrammar.RuleSet
import StochasticGrammar.Weight

/-!
The cells of a chart and the sums they hold. The inside weight of a span and a non-terminal is that
of its derivations; the outside weight that of what stands around them in derivations of the whole
string. Each cell is a sum of products, and each product reads two cells of lower rank: an inside
cell the two parts of its span, an outside cell a sibling and the cell of the parent. Products that
the pruning tables rule out are not in the sum.
-/

namespace StochasticGrammar

structure WeightedRules (W : Type) where
  rules : RuleSet
  value : Nat → W
  certain : Nat → Bool

/-- Tokens to be derived by weighted rules. -/
structure Sentence (W : Type) extends WeightedRules W where
  tokens : Array Nat

inductive Cell where
  | inside (start stop nt : Nat)
  | outside (start stop nt : Nat)
  deriving DecidableEq, Repr

/-- Short spans come first on the inside, long ones on the outside, which comes after the inside. -/
def Cell.rank (length : Nat) : Cell → Nat
  | inside start stop _ => stop - start
  | outside start stop _ => length + (length - (stop - start))

structure Term where
  rule : Nat
  first : Cell
  second : Cell
  deriving DecidableEq, Repr

/-- What a cell adds up: its terms, on top of a base that is zero unless there are no terms. -/
structure Plan (W : Type) where
  base : W
  constant : Bool := true
  terms : List Term := []

namespace Sentence

variable {W : Type} (s : Sentence W)

def mayCover (nt start stop : Nat) : Bool :=
  match s.tokens[start]?, s.tokens[stop]? with
  | some a, some b =>
    s.rules.pruning.first.get nt a && s.rules.pruning.last.get nt b &&
      (start == stop || !s.rules.isSingle nt)
  | _, _ => false

def splits (r : BinaryRule) (start stop : Nat) : List Nat :=
  if s.rules.isSingle r.left then [start]
  else if s.rules.isSingle r.right then [stop - 1]
  else List.range' start (stop - start)

def insideTerms (start stop nt : Nat) : List Term :=
  (s.rules.binariesOf nt).flatMap fun r =>
    ((s.splits r start stop).filter fun m =>
      s.mayCover r.left start m && s.mayCover r.right (m + 1) stop).map fun m =>
        ⟨r.index, .inside start m r.left, .inside (m + 1) stop r.right⟩

/-- The ends of a right sibling of a span that stops at `stop`. -/
def rightEnds (r : BinaryRule) (stop : Nat) : List Nat :=
  let count := s.tokens.size - (stop + 1)
  List.range' (stop + 1) (if s.rules.isSingle r.right then min 1 count else count)

/-- The beginnings of a left sibling of a span that starts at `start`. -/
def leftEnds (r : BinaryRule) (start : Nat) : List Nat :=
  if s.rules.isSingle r.left then List.range' (start - 1) (min 1 start) else List.range start

def rightTerms (start stop nt : Nat) : List Term :=
  (s.rules.withLeft nt).flatMap fun r =>
    ((s.rightEnds r stop).filter fun e => s.mayCover r.right (stop + 1) e).map fun e =>
      ⟨r.index, .inside (stop + 1) e r.right, .outside start e r.lhs⟩

def leftTerms (start stop nt : Nat) : List Term :=
  (s.rules.withRight nt).flatMap fun r =>
    ((s.leftEnds r start).filter fun b => s.mayCover r.left b (start - 1)).map fun b =>
      ⟨r.index, .inside b (start - 1) r.left, .outside b stop r.lhs⟩

/-- Whether the tokens next to the span can stand next to `nt`. -/
def mayStand (nt start stop : Nat) : Bool :=
  (start == 0 || (s.tokens[start - 1]?).any fun t => s.rules.pruning.before.get nt t) &&
    (stop + 1 == s.tokens.size ||
      (s.tokens[stop + 1]?).any fun t => s.rules.pruning.after.get nt t)

variable [Weight W]

def plan : Cell → Plan W
  | .inside start stop nt =>
    if !s.mayCover nt start stop then ⟨0, true, []⟩
    else if start < stop then ⟨0, true, s.insideTerms start stop nt⟩
    else match (s.tokens[start]?).bind (s.rules.terminalRule? nt) with
      | some rule => ⟨s.value rule, s.certain rule, []⟩
      | none => ⟨0, true, []⟩
  | .outside start stop nt =>
    if start = 0 ∧ stop + 1 = s.tokens.size then ⟨if nt = s.rules.start then 1 else 0, true, []⟩
    else if !s.mayStand nt start stop then ⟨0, true, []⟩
    else ⟨0, true, s.rightTerms start stop nt ++ s.leftTerms start stop nt⟩

end Sentence

/-- The product of a term, in the order of its factors: on the outside the parent comes first. -/
def Cell.product {W : Type} [Weight W] (cell : Cell) (rule first second : W) : W :=
  match cell with
  | inside .. => rule * first * second
  | outside .. => second * rule * first

section

variable {W : Type} {s : Sentence W}

theorem mem_splits {r : BinaryRule} {start stop m : Nat} (order : start < stop)
    (h : m ∈ s.splits r start stop) : start ≤ m ∧ m < stop := by
  unfold Sentence.splits at h
  split at h
  · simp only [List.mem_singleton] at h; omega
  · split at h
    · simp only [List.mem_singleton] at h; omega
    · simp only [List.mem_range'_1] at h; omega

theorem mem_rightEnds {r : BinaryRule} {stop e : Nat} (h : e ∈ s.rightEnds r stop) :
    stop < e ∧ e < s.tokens.size := by
  unfold Sentence.rightEnds at h
  simp only [List.mem_range'_1] at h
  split at h <;> omega

theorem mem_leftEnds {r : BinaryRule} {start b : Nat} (h : b ∈ s.leftEnds r start) : b < start := by
  unfold Sentence.leftEnds at h
  split at h
  · simp only [List.mem_range'_1] at h; omega
  · exact List.mem_range.mp h

theorem insideTerms_rank {length start stop nt : Nat} {t : Term} (order : start < stop)
    (h : t ∈ s.insideTerms start stop nt) :
    t.first.rank length < stop - start ∧ t.second.rank length < stop - start := by
  simp only [Sentence.insideTerms, List.mem_flatMap, List.mem_map, List.mem_filter] at h
  obtain ⟨r, -, m, ⟨hm, -⟩, rfl⟩ := h
  have := mem_splits order hm
  simp only [Cell.rank]
  omega

theorem rightTerms_rank {start stop nt : Nat} {t : Term} (order : start ≤ stop)
    (h : t ∈ s.rightTerms start stop nt) :
    t.first.rank s.tokens.size < (Cell.outside start stop nt).rank s.tokens.size ∧
      t.second.rank s.tokens.size < (Cell.outside start stop nt).rank s.tokens.size := by
  simp only [Sentence.rightTerms, List.mem_flatMap, List.mem_map, List.mem_filter] at h
  obtain ⟨r, -, e, ⟨he, -⟩, rfl⟩ := h
  have := mem_rightEnds he
  simp only [Cell.rank]
  omega

theorem leftTerms_rank {start stop nt : Nat} {t : Term} (order : start ≤ stop)
    (inside : stop < s.tokens.size) (h : t ∈ s.leftTerms start stop nt) :
    t.first.rank s.tokens.size < (Cell.outside start stop nt).rank s.tokens.size ∧
      t.second.rank s.tokens.size < (Cell.outside start stop nt).rank s.tokens.size := by
  simp only [Sentence.leftTerms, List.mem_flatMap, List.mem_map, List.mem_filter] at h
  obtain ⟨r, -, b, ⟨hb, -⟩, rfl⟩ := h
  have := mem_leftEnds hb
  simp only [Cell.rank]
  omega

end

end StochasticGrammar
