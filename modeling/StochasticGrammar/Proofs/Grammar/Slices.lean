import StochasticGrammar.Proofs.Double.Amounts
import StochasticGrammar.Proofs.Grammar.Sampling

/-!
The slices of the ranges that samples are drawn from. Over a run every parameter has one sample in each of
as many equal slices of its range as there are samples, and each value is drawn with a word of its own.
-/

namespace StochasticGrammar

namespace RandomSource

variable {σ : Type} [RandomSource σ]

/-- The next so many words, and the source after them. -/
def stream : Nat → σ → List UInt64 × σ
  | 0, source => ([], source)
  | n + 1, source =>
    let (word, source) := next64 source
    let (words, source) := stream n source
    (word :: words, source)

theorem stream_add (m n : Nat) (source : σ) :
    stream (m + n) source =
      ((stream m source).1 ++ (stream n (stream m source).2).1, (stream n (stream m source).2).2) := by
  induction m generalizing source with
  | zero => rw [Nat.zero_add, stream, List.nil_append]
  | succ m ih =>
    rw [Nat.add_right_comm]
    simp only [stream, ih, List.cons_append]

end RandomSource

/-- Which part of the range lies below a draw, before rounding. -/
def Draw.fraction (samples : Nat) (draw : Draw) : ℚ :=
  (draw.stratum + Double.amount (RandomSource.unit draw.word)) / samples

namespace Parameter

/-- The value of a draw before rounding. -/
def exactDrawn (p : Parameter) (samples : Nat) (draw : Draw) : ℚ :=
  Double.amount p.lower + (Double.amount p.upper - Double.amount p.lower) * draw.fraction samples

/-- One of so many equal slices of the range, without its upper end. -/
def slice (p : Parameter) (samples j : Nat) : Set ℚ :=
  Set.Ico (Double.amount p.lower + (Double.amount p.upper - Double.amount p.lower) * (j / samples))
    (Double.amount p.lower + (Double.amount p.upper - Double.amount p.lower) * ((j + 1) / samples))

end Parameter

section

variable {samples : Nat} (some : 0 < samples)

include some

theorem fraction_mem_iff (draw : Draw) (j : Nat) :
    draw.fraction samples ∈ Set.Ico ((j : ℚ) / samples) ((j + 1) / samples) ↔ draw.stratum = j := by
  obtain ⟨low, high⟩ := Double.amount_unit_bounds draw.word
  have positive : (0 : ℚ) < samples := Nat.cast_pos.mpr some
  rw [Draw.fraction, Set.mem_Ico, div_le_div_iff_of_pos_right positive, div_lt_div_iff_of_pos_right positive]
  constructor
  · rintro ⟨above, below⟩
    have least : (j : ℚ) < draw.stratum + 1 := by linarith
    have most : (draw.stratum : ℚ) < j + 1 := by linarith
    norm_cast at least most
    omega
  · rintro rfl
    constructor <;> linarith

theorem exactDrawn_mem_iff {p : Parameter} (proper : Double.amount p.lower < Double.amount p.upper) (draw : Draw)
    (j : Nat) : p.exactDrawn samples draw ∈ p.slice samples j ↔ draw.stratum = j := by
  have width : 0 < Double.amount p.upper - Double.amount p.lower := sub_pos.mpr proper
  rw [← fraction_mem_iff some draw j, Parameter.exactDrawn, Parameter.slice, Set.mem_Ico, Set.mem_Ico,
    add_le_add_iff_left, add_lt_add_iff_left, mul_le_mul_iff_right₀ width, mul_lt_mul_iff_right₀ width]

end

theorem existsUnique_of_perm {n j : Nat} {f : Nat → Nat} (perm : ((List.range n).map f).Perm (List.range n))
    (inside : j < n) : ∃! i, i < n ∧ f i = j := by
  have listed : j ∈ (List.range n).map f := perm.mem_iff.mpr (List.mem_range.mpr inside)
  have distinct : ((List.range n).map f).Nodup := perm.nodup_iff.mpr List.nodup_range
  obtain ⟨i, place, value⟩ := List.mem_map.mp listed
  refine ⟨i, ⟨List.mem_range.mp place, value⟩, fun i' other => ?_⟩
  exact List.inj_on_of_nodup_map distinct (List.mem_range.mpr other.1) place (other.2.trans value.symm)

theorem map_order {samples : Nat} {order : Array Nat} (perm : order.Perm (Array.range samples)) :
    (List.range samples).map (fun i => order[i]?.getD 0) = order.toList := by
  have size : order.size = samples := by simpa using perm.size_eq
  apply List.ext_getElem
  · simpa using size.symm
  · intro i here there
    have inside : i < order.size := by simpa using there
    simp [inside]

namespace Grammar

variable {σ : Type} [RandomSource σ]

theorem drawWords_stream (sample : Nat) (strata : List (Nat × Array Nat)) (source : σ) :
    (drawWords sample strata source).1.map (·.word) = (RandomSource.stream strata.length source).1 ∧
      (drawWords sample strata source).2 = (RandomSource.stream strata.length source).2 := by
  induction strata generalizing source with
  | nil => exact ⟨rfl, rfl⟩
  | cons head rest ih =>
    rcases ih (RandomSource.next64 source).2 with ⟨words, left⟩
    exact ⟨congrArg ((RandomSource.next64 source).1 :: ·) words, left⟩

theorem drawRun_stream (strata : List (Nat × Array Nat)) (items : List Nat) (source : σ) :
    (drawRun strata items source).flatMap (·.2.map (·.word)) =
      (RandomSource.stream (items.length * strata.length) source).1 := by
  induction items generalizing source with
  | nil =>
    rw [List.length_nil, Nat.zero_mul]
    rfl
  | cons item rest ih =>
    rcases drawWords_stream item strata source with ⟨words, left⟩
    rw [List.length_cons, Nat.succ_mul, Nat.add_comm, RandomSource.stream_add]
    simp only [drawRun, List.flatMap_cons, ih, words, left]

theorem drawWords_getElem (sample : Nat) {k id : Nat} {strata : List (Nat × Array Nat)} {order : Array Nat}
    (found : strata[k]? = some (id, order)) (source : σ) :
    ∃ word, (drawWords sample strata source).1[k]? = some ⟨id, order[sample]?.getD 0, word⟩ := by
  induction strata generalizing k source with
  | nil => cases found
  | cons head rest ih =>
    cases k with
    | zero =>
      cases found
      exact ⟨_, rfl⟩
    | succ k => exact ih found _

/-- The draws for one of the parameters are from strata in some order, one for each sample. -/
theorem draws_cover {g : Grammar} {samples : Nat} {source : σ} {run : List (Nat × List Draw)}
    (drawn : g.draws samples source = some run) {k id : Nat} (used : g.used[k]? = some id) :
    ∃ (stratum : Nat → Nat) (word : Nat → UInt64), ((List.range samples).map stratum).Perm (List.range samples) ∧
      ∀ sample ∈ run, sample.2[k]? = some ⟨id, stratum sample.1, word sample.1⟩ := by
  have distinct : (run.map (·.1)).Nodup := (draws_spec drawn).1 ▸ List.nodup_range
  obtain ⟨strata, middle, ordered, rfl⟩ := draws_eq_some_iff.mp drawn
  obtain ⟨ids, orders⟩ := drawStrata_spec ordered
  have found : ∃ order, strata[k]? = some (id, order) := by
    rw [← ids, List.getElem?_map] at used
    obtain ⟨⟨id', order⟩, found, rfl⟩ := Option.map_eq_some_iff.mp used
    exact ⟨order, found⟩
  rcases found with ⟨order, found⟩
  have perm : order.Perm (Array.range samples) := orders _ (List.mem_of_getElem? found)
  have permuted : ((List.range samples).map fun i => order[i]?.getD 0).Perm (List.range samples) := by
    rw [map_order perm, ← Array.toList_range]
    exact perm.toList
  have drawn : ∀ i, ∃ word, ∀ sample ∈ drawRun strata (List.range samples) middle, sample.1 = i →
      sample.2[k]? = some ⟨id, order[i]?.getD 0, word⟩ := by
    intro i
    by_cases listed : ∃ sample ∈ drawRun strata (List.range samples) middle, sample.1 = i
    · obtain ⟨sample, member, rfl⟩ := listed
      rcases mem_drawRun member with ⟨-, source', words⟩
      obtain ⟨word, here⟩ := drawWords_getElem sample.1 found source'
      refine ⟨word, fun other member' same => ?_⟩
      rw [List.inj_on_of_nodup_map distinct member' member same, words]
      exact here
    · exact ⟨0, fun sample member same => absurd ⟨sample, member, same⟩ listed⟩
  choose word drawn using drawn
  exact ⟨_, word, permuted, fun sample member => drawn sample.1 sample member rfl⟩

theorem verify_eq_error_iff {g : Grammar} {fault : Inconsistency} :
    g.verify = .error fault.error ↔ g.inconsistency? g.values.values = some fault := by
  unfold verify
  split
  · rename_i reason found
    rw [found, Except.error.injEq, Option.some.injEq]
    constructor
    · intro same
      injection same with subject cause
      cases reason
      cases fault
      congr
    · exact congrArg Inconsistency.error
  · rename_i none
    rw [none]
    exact iff_of_false (fun same => by cases same) (fun same => by cases same)

/-- What a report says of a sample. -/
def named (g : Grammar) (samples : Nat) (draws : List Draw) : List (String × Float) :=
  draws.filterMap fun draw => (g.parameters.get? draw.id).map fun p => (p.name, p.drawn samples draw)

theorem named_point (g : Grammar) (samples : Nat) (draws : List Draw) :
    (g.point samples draws).filterMap (fun (id, value) => (g.parameters.get? id).map fun p => (p.name, value)) =
      g.named samples draws := by
  rw [point, named, List.filterMap_filterMap]
  congr 1
  funext draw
  cases found : g.parameters.get? draw.id with
  | none => rfl
  | some p => simp [found]

/-- A failure is reported where the grammar with the drawn values is refused. -/
theorem failure_eq_some_iff {g : Grammar} {sample samples : Nat} {draws : List Draw} {failure : SampleFailure} :
    g.failure? sample (g.point samples draws) = some failure ↔
      ∃ next, g.setValues (g.point samples draws) = .ok next ∧ next.verify = .error failure.inconsistency.error ∧
        failure.sample = sample ∧ failure.values = g.named samples draws := by
  rw [failure?, named_point]
  cases g.setValues (g.point samples draws) with
  | error fault =>
    refine iff_of_false (fun same => by cases same) ?_
    rintro ⟨next, same, -⟩
    cases same
  | ok next =>
    constructor
    · intro reported
      obtain ⟨fault, found, rfl⟩ := Option.map_eq_some_iff.mp reported
      exact ⟨next, rfl, verify_eq_error_iff.mpr found, rfl, rfl⟩
    · rintro ⟨next', same, refused, number, values⟩
      cases same
      exact Option.map_eq_some_iff.mpr ⟨_, verify_eq_error_iff.mp refused, by rw [← number, ← values]⟩

theorem point_ids {g : Grammar} (samples : Nat) {draws : List Draw}
    (known : ∀ draw ∈ draws, ∃ p, g.parameters.get? draw.id = some p) :
    (g.point samples draws).map (·.1) = draws.map (·.id) := by
  induction draws with
  | nil => rfl
  | cons draw draws ih =>
    rw [List.forall_mem_cons] at known
    obtain ⟨p, found⟩ := known.1
    simp only [point, List.filterMap_cons, found, Option.map_some, List.map_cons]
    exact congrArg (draw.id :: ·) (ih known.2)

/-- What is reported of some entries comes in their order. -/
theorem pairwise_reports {run : List (Nat × List Draw)} {report : Nat × List Draw → Option SampleFailure}
    (increasing : (run.map (·.1)).Pairwise (· < ·))
    (numbered : ∀ sample ∈ run, ∀ failure ∈ report sample, failure.sample = sample.1) :
    ((run.filterMap report).map (·.sample)).Pairwise (· < ·) := by
  rw [List.pairwise_map] at increasing ⊢
  apply List.Pairwise.filterMap report _ (increasing.imp_of_mem fun {a b} first second less => ?_)
  · exact fun a b => ∀ failure ∈ report a, ∀ failure' ∈ report b, failure.sample < failure'.sample
  · exact fun a b below failure found failure' found' => below failure found failure' found'
  · intro failure found failure' found'
    rw [numbered a first failure found, numbered b second failure' found']
    exact less

namespace Sampleable

variable {g : Grammar} (sampleable : g.Sampleable) {samples : Nat} (small : samples < 2 ^ 64) {source last : σ}
  {report : SampleReport} (answer : g.verifySamples samples source = some (.ok report, last))
  {run : List (Nat × List Draw)} (drawn : g.draws samples source = some run)

omit sampleable small in
include answer in
theorem exists_draws : ∃ run, g.draws samples source = some run := by
  rw [← Option.ne_none_iff_exists']
  intro none
  rw [← verifySamples_eq_none_iff, answer] at none
  cases none

include sampleable small answer drawn

/-- A run that ends well accepts every point. -/
theorem report_eq : (∀ sample ∈ run, ∃ next, g.setValues (g.point samples sample.2) = .ok next) ∧
    report = ⟨samples, run.filterMap fun sample => g.failure? sample.1 (g.point samples sample.2)⟩ := by
  rcases sampleable.verifySamples_cases small drawn with ⟨reported, stopped⟩
  rw [answer] at reported stopped
  have stays : ∀ sample ∈ run, ∀ draw ∈ sample.2, ¬ g.Escapes draw := by
    intro sample member draw listed escapes
    rcases stopped ⟨sample, member, draw, listed, escapes⟩ with ⟨_, _, _, _, _, _, _, failed⟩
    cases failed
  have outcome := reported stays
  rw [Option.map_some, Option.some.injEq, Except.ok.injEq] at outcome
  exact outcome

theorem mem_failures_iff (failure : SampleFailure) : failure ∈ report.failures ↔
    ∃ sample ∈ run, ∃ next, g.setValues (g.point samples sample.2) = .ok next ∧
      next.verify = .error failure.inconsistency.error ∧ failure.sample = sample.1 ∧
        failure.values = g.named samples sample.2 := by
  rw [(sampleable.report_eq small answer drawn).2, List.mem_filterMap]
  simp only [failure_eq_some_iff]

theorem failures_increasing : (report.failures.map (·.sample)).Pairwise (· < ·) := by
  rw [(sampleable.report_eq small answer drawn).2]
  apply pairwise_reports
  · rw [(draws_spec drawn).1]
    exact List.pairwise_lt_range
  · intro sample member failure found
    obtain ⟨next, -, -, number, -⟩ := failure_eq_some_iff.mp found
    exact number

end Sampleable

end Grammar

end StochasticGrammar
