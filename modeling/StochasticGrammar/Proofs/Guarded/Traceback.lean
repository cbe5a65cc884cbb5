import StochasticGrammar.Proofs.Guarded.Parsing

/-!
The chart of entries as a whole, and the tree that is read off it. It is filled span by span, from the
shorter to the longer; each cell that is filled agrees with the chart of trees and the others are left as
they are.
-/

namespace StochasticGrammar

/-- A loop over numbers whose steps each keep what holds up to their number. -/
theorem foldlM_upTo {β : Type} (P : Nat → β → Prop) {step : β → Nat → Option β} {low high : Nat} {b : β}
    (order : low ≤ high) (start : P low b)
    (each : ∀ k b, low ≤ k → k < high → P k b → ∃ b', step b k = some b' ∧ P (k + 1) b') :
    ∃ b', (upTo low high).foldlM step b = some b' ∧ P high b' := by
  obtain ⟨count, rfl⟩ := Nat.exists_eq_add_of_le order
  rw [upTo, Nat.add_sub_cancel_left]
  clear order
  induction count with
  | zero => exact ⟨b, rfl, start⟩
  | succ count ih =>
    obtain ⟨b', before, kept⟩ := ih fun k b above below => each k b above (by omega)
    obtain ⟨b'', last, kept'⟩ := each (low + count) b' (by omega) (by omega) kept
    refine ⟨b'', ?_, kept'⟩
    rw [List.range'_1_concat, List.foldlM_append, before]
    simpa using last

theorem gather_related {g : Grammar} {R : Entry → Best Float → Prop} {best? : Nat → Option (Option Entry)}
    {best : Nat → Option (Best Float)}
    (each : ∀ nt < g.rules.nonTerminals, ∃ entry, best? nt = some entry ∧ Option.Rel R entry (best nt)) :
    ∃ cell, g.gather? best? = some cell ∧ ∀ nt < g.rules.nonTerminals, Option.Rel R cell[nt]? (best nt) := by
  obtain ⟨cell, made, kept, -⟩ : ∃ cell, g.gather? best? = some cell ∧
      (∀ nt < g.rules.nonTerminals, Option.Rel R cell[nt]? (best nt)) ∧
        ∀ nt, g.rules.nonTerminals ≤ nt → cell[nt]? = none := by
    -- Those still to come have no entry, which is what one that is left out agrees with.
    refine foldlM_upTo (fun k (cell : Std.HashMap Nat Entry) =>
      (∀ nt < k, Option.Rel R cell[nt]? (best nt)) ∧ ∀ nt, k ≤ nt → cell[nt]? = none)
      (Nat.zero_le _) ⟨by simp, by simp⟩ ?_
    rintro k cell - below ⟨kept, later⟩
    obtain ⟨entry, made, related⟩ := each k below
    cases entry with
    | none =>
      refine ⟨cell, by simp [made], ?_, fun nt above => later nt (by omega)⟩
      intro nt among
      by_cases here : nt = k
      · subst here
        rwa [later nt (Nat.le_refl _)]
      · exact kept nt (by omega)
    | some entry =>
      refine ⟨cell.insert k entry, by simp [made], ?_, ?_⟩
      · intro nt among
        rw [Std.HashMap.getElem?_insert]
        by_cases here : k = nt
        · subst here
          simpa using related
        · simpa [here] using kept nt (by omega)
      · intro nt above
        have other : k ≠ nt := by omega
        simpa [Std.HashMap.getElem?_insert, other] using later nt (by omega)
  exact ⟨cell, made, kept⟩

namespace EntryChart

theorem exists_put {chart : EntryChart} {start stop : Nat} {old : Std.HashMap Nat Entry}
    (there : chart.cell? start stop = some old) (cell : Std.HashMap Nat Entry) :
    ∃ next, chart.put? start stop cell = some next ∧
      ∀ a b, next.cell? a b = if a = start ∧ b = stop then some cell else chart.cell? a b := by
  obtain ⟨row, found, place⟩ := Option.bind_eq_some_iff.mp there
  have inside : stop < row.size := (Array.getElem?_eq_some_iff.mp place).1
  have inside' : start < chart.size := (Array.getElem?_eq_some_iff.mp found).1
  refine ⟨chart.setIfInBounds start (row.setIfInBounds stop cell), ?_, ?_⟩
  · simp [put?, found, inside]
  · intro a b
    simp only [cell?, Array.getElem?_setIfInBounds, inside', if_true]
    by_cases first : start = a
    · subst first
      simp [found, Array.getElem?_setIfInBounds, inside, eq_comm]
    · simp [first, Ne.symm first]

variable {s : Sentence Float} {chart : EntryChart} {done : Nat → Nat → Prop}

theorem Tracks.mono {done' : Nat → Nat → Prop} (tracks : chart.Tracks s done)
    (weaker : ∀ start stop, start ≤ stop → stop < s.tokens.size → done' start stop → done start stop) :
    chart.Tracks s done' where
  present := tracks.present
  agrees order inside here range found := tracks.agrees order inside (weaker _ _ order inside here) range found

/-- A cell that agrees with the chart of trees is put in its place. -/
theorem Tracks.put (tracks : chart.Tracks s done) {start stop : Nat} (begins : start < s.tokens.size)
    (ends : stop < s.tokens.size) {cell : Std.HashMap Nat Entry}
    (agrees : ∀ nt < s.rules.nonTerminals,
      Option.Rel (Records s start stop) cell[nt]? (s.bestChart.get? start stop nt)) :
    ∃ next, chart.put? start stop cell = some next ∧
      next.Tracks s fun a b => done a b ∨ a = start ∧ b = stop := by
  obtain ⟨old, before⟩ := tracks.present begins ends
  obtain ⟨next, made, cells⟩ := exists_put before cell
  refine ⟨next, made, ?_, ?_⟩
  · intro a b inside inside'
    rw [cells]
    split
    · exact ⟨cell, rfl⟩
    · exact tracks.present inside inside'
  · intro a b nt found order inside here range there
    rw [cells] at there
    split at there
    · rename_i same
      obtain ⟨rfl, rfl⟩ := same
      cases there
      exact agrees nt range
    · rename_i other
      exact tracks.agrees order inside (here.resolve_right other) range there

theorem tracks_empty (s : Sentence Float) (n : Nat) (size : n = s.tokens.size) :
    Tracks s (.replicate n (.replicate n ∅)) fun start stop => start = stop ∧ start < 0 where
  present begins ends := by
    rw [← size] at begins ends
    exact ⟨∅, by simp [cell?, begins, ends]⟩
  agrees _ _ here := absurd here.2 (Nat.not_lt_zero _)

/-- Every entry that a traceback comes to is there. -/
theorem Tracks.tree (tracks : chart.Tracks s fun _ _ => True) {start stop nt : Nat} (order : start ≤ stop)
    (inside : stop < s.tokens.size) (range : nt < s.rules.nonTerminals) {best : Best Float}
    (found : s.bestChart.get? start stop nt = some best) : chart.tree? start stop nt = some best.tree := by
  induction span : stop - start using Nat.strongRecOn generalizing start stop nt best with
  | ind width ih =>
    obtain ⟨cell, there⟩ := tracks.present (Nat.lt_of_le_of_lt order inside) inside
    have agrees := tracks.agrees order inside trivial range there
    rcases related_cases agrees with ⟨-, gone⟩ | ⟨entry, best', entered, same, records⟩
    · rw [found] at gone
      cases gone
    · rw [found] at same
      cases same
      rw [tree?, there]
      simp only [Option.bind_eq_bind, Option.bind_some, entered]
      cases records with
      | token weight rule => rfl
      | split weight rule low high left right isFirst isSecond =>
        have first := ih _ (by omega) low (by omega) left isFirst rfl
        have second := ih _ (by omega) high inside right isSecond rfl
        simp only [dif_pos (And.intro low high), first, second, Option.bind_some]
        rfl

theorem Tracks.mem (tracks : chart.Tracks s fun _ _ => True) {start stop nt : Nat} {cell : Std.HashMap Nat Entry}
    {best : Best Float} (order : start ≤ stop) (inside : stop < s.tokens.size) (range : nt < s.rules.nonTerminals)
    (there : chart.cell? start stop = some cell) (found : s.bestChart.get? start stop nt = some best) :
    nt ∈ cell := by
  rcases related_cases (tracks.agrees order inside trivial range there) with ⟨-, gone⟩ | ⟨entry, -, entered, -, -⟩
  · rw [found] at gone
    cases gone
  · rw [Std.HashMap.mem_iff_isSome_getElem?, entered]
    rfl

/-- Every entry that another one names is there, and of a shorter span. -/
theorem Tracks.named (tracks : chart.Tracks s fun _ _ => True) {start stop nt : Nat} {cell : Std.HashMap Nat Entry}
    {entry : Entry} (order : start ≤ stop) (inside : stop < s.tokens.size) (range : nt < s.rules.nonTerminals)
    (there : chart.cell? start stop = some cell) (entered : cell[nt]? = some entry) {rule m left right : Nat}
    (origin : entry.origin = .split rule m left right) : start ≤ m ∧ m < stop ∧
      ∃ first second, chart.cell? start m = some first ∧ chart.cell? (m + 1) stop = some second ∧
        left ∈ first ∧ right ∈ second := by
  have agrees := tracks.agrees order inside trivial range there
  rw [entered] at agrees
  rcases related_cases agrees with ⟨gone, -⟩ | ⟨_, best, same, -, records⟩
  · cases gone
  · cases same
    cases records with
    | token weight rule => cases origin
    | split weight rule low high leftRange rightRange isFirst isSecond =>
      cases origin
      obtain ⟨first, here⟩ := tracks.present (by omega : start < s.tokens.size) (by omega : m < s.tokens.size)
      obtain ⟨second, here'⟩ := tracks.present (by omega : m + 1 < s.tokens.size) inside
      exact ⟨low, high, first, second, here, here',
        tracks.mem low (by omega) leftRange here isFirst, tracks.mem high inside rightRange here' isSecond⟩

end EntryChart

/-- The best parse is what the chart holds for the whole string. -/
theorem bestParse_elim (g : Grammar) (tokens : Array Nat) (string : Nat) : g.bestParse tokens string =
    (if tokens.isEmpty then none else (g.sentence tokens).bestChart.get? 0 (tokens.size - 1) g.rules.start).elim
      (.error (.noParse string)) .ok := by
  have named : ({ g.weighted with tokens } : Sentence Float) = g.sentence tokens := rfl
  have whole : (g.sentence tokens).bestParse? = if tokens.isEmpty then none
      else (g.sentence tokens).bestChart.get? 0 (tokens.size - 1) g.rules.start := rfl
  rw [Grammar.bestParse, named, ← whole]
  cases (g.sentence tokens).bestParse? <;> rfl

section

variable {g : Grammar} {tokens : Array Nat} (ranged : g.Ranged)

include ranged

theorem enterToken_tracks {chart : EntryChart} {k : Nat} (inside : k < tokens.size)
    (tracks : chart.Tracks (g.sentence tokens) fun start stop => start = stop ∧ start < k) :
    ∃ next, g.enterToken? tokens chart k = some next ∧
      next.Tracks (g.sentence tokens) fun start stop => start = stop ∧ start < k + 1 := by
  have entries : ∀ nt < g.rules.nonTerminals, ∃ entry, g.tokenBest? tokens k nt = some entry ∧
      Option.Rel (Records (g.sentence tokens) k k) entry ((g.sentence tokens).bestChart.get? k k nt) := by
    intro nt range
    rw [bestChart_recurs k k nt (Nat.le_refl k) (by rw [Nat.sub_self]; exact Nat.zero_lt_of_lt inside) inside range,
      if_pos rfl]
    exact tokenBest_related ranged inside
  obtain ⟨cell, gathered, agrees⟩ := gather_related entries
  obtain ⟨next, put, tracks'⟩ := tracks.put inside inside agrees
  refine ⟨next, ?_, tracks'.mono ?_⟩
  · rw [Grammar.enterToken?, gathered]
    exact put
  · intro start stop _ _ here
    omega

/-- One span of a length, after all that are shorter and those further to the left. -/
theorem enterSpan_tracks {chart : EntryChart} {length k : Nat} (long : 2 ≤ length) (fits : k + length ≤ tokens.size)
    (tracks : chart.Tracks (g.sentence tokens) fun start stop =>
      stop - start + 1 < length ∨ stop - start + 1 = length ∧ start < k) :
    ∃ cell next, g.gather? (g.spanBest? tokens chart k (k + length - 1)) = some cell ∧
      chart.put? k (k + length - 1) cell = some next ∧ next.Tracks (g.sentence tokens) fun start stop =>
        stop - start + 1 < length ∨ stop - start + 1 = length ∧ start < k + 1 := by
  have inside : k + length - 1 < tokens.size := by omega
  have shorter : chart.Tracks (g.sentence tokens) fun start stop => stop - start < k + length - 1 - k :=
    tracks.mono fun start stop _ _ short => .inl (by omega)
  have entries : ∀ nt < g.rules.nonTerminals, ∃ entry, g.spanBest? tokens chart k (k + length - 1) nt = some entry ∧
      Option.Rel (Records (g.sentence tokens) k (k + length - 1)) entry
        ((g.sentence tokens).bestChart.get? k (k + length - 1) nt) := by
    intro nt range
    have reach : k + length - 1 - k < (g.sentence tokens).tokens.size := by
      change k + length - 1 - k < tokens.size
      omega
    rw [bestChart_recurs k (k + length - 1) nt (by omega) reach inside range, if_neg (by omega)]
    exact spanBest_related ranged shorter inside (by omega) range
  obtain ⟨cell, gathered, agrees⟩ := gather_related entries
  obtain ⟨next, put, tracks'⟩ := tracks.put (show k < tokens.size by omega) inside agrees
  refine ⟨cell, next, gathered, put, tracks'.mono ?_⟩
  intro start stop order _ here
  omega

theorem enterLength_tracks {chart : EntryChart} {length : Nat} (long : 2 ≤ length) (fits : length ≤ tokens.size)
    (tracks : chart.Tracks (g.sentence tokens) fun start stop => stop - start + 1 < length) :
    ∃ next, g.enterLength? tokens chart length = some next ∧
      next.Tracks (g.sentence tokens) fun start stop => stop - start + 1 < length + 1 := by
  have begun : chart.Tracks (g.sentence tokens) fun start stop =>
      stop - start + 1 < length ∨ stop - start + 1 = length ∧ start < 0 :=
    tracks.mono fun start stop _ _ here => by omega
  obtain ⟨next, made, tracks'⟩ : ∃ next, g.enterLength? tokens chart length = some next ∧
      next.Tracks (g.sentence tokens) fun start stop =>
        stop - start + 1 < length ∨ stop - start + 1 = length ∧ start < tokens.size - length + 1 := by
    simp only [Grammar.enterLength?, minus_eq fits, Option.bind_eq_bind, Option.bind_some]
    refine foldlM_upTo (fun k (chart : EntryChart) => chart.Tracks (g.sentence tokens) fun start stop =>
      stop - start + 1 < length ∨ stop - start + 1 = length ∧ start < k) (Nat.zero_le _) begun ?_
    intro k chart _ below tracks
    obtain ⟨cell, next, gathered, put, tracks'⟩ := enterSpan_tracks ranged long (by omega) tracks
    refine ⟨next, ?_, tracks'⟩
    simp only [minus_eq (by omega : 1 ≤ k + length), Option.bind_some, gathered, put]
  refine ⟨next, made, tracks'.mono ?_⟩
  intro start stop order inside here
  have bound : stop < tokens.size := inside
  omega

theorem entryChart_tracks (nonempty : 1 ≤ tokens.size) :
    ∃ chart, g.entryChart? tokens = some chart ∧ chart.Tracks (g.sentence tokens) fun _ _ => True := by
  obtain ⟨tokenChart, first, tracks⟩ := foldlM_upTo (fun k (chart : EntryChart) =>
      chart.Tracks (g.sentence tokens) fun start stop => start = stop ∧ start < k) (Nat.zero_le tokens.size)
    (EntryChart.tracks_empty (g.sentence tokens) tokens.size rfl)
    fun k chart _ below tracks => enterToken_tracks ranged below tracks
  have begun : tokenChart.Tracks (g.sentence tokens) fun start stop => stop - start + 1 < 2 := by
    refine tracks.mono ?_
    intro start stop order inside here
    have bound : stop < tokens.size := inside
    omega
  obtain ⟨chart, second, tracks'⟩ := foldlM_upTo (fun k (chart : EntryChart) =>
      chart.Tracks (g.sentence tokens) fun start stop => stop - start + 1 < k) (Nat.succ_le_succ nonempty) begun
    fun k chart long below tracks => enterLength_tracks ranged long (by omega) tracks
  refine ⟨chart, ?_, tracks'.mono ?_⟩
  · simp only [Grammar.entryChart?, first, Option.bind_eq_bind, Option.bind_some]
    exact second
  · intro start stop order inside _
    have bound : stop < tokens.size := inside
    omega

/-- The guarded parse is the best parse, whatever the tokens are. -/
theorem bestParse_eq (string : Nat) : g.bestParse? tokens string = some (g.bestParse tokens string) := by
  rw [bestParse_elim]
  by_cases empty : tokens.isEmpty = true
  · rw [if_pos empty, Grammar.bestParse?, if_pos empty]
    rfl
  · have nonempty : 1 ≤ tokens.size := by
      rw [Array.isEmpty_iff_size_eq_zero] at empty
      omega
    have last : tokens.size - 1 < (g.sentence tokens).tokens.size := by
      change tokens.size - 1 < tokens.size
      omega
    obtain ⟨chart, made, tracks⟩ := entryChart_tracks ranged nonempty
    obtain ⟨cell, there⟩ := tracks.present (Nat.zero_lt_of_lt last) last
    have agrees := tracks.agrees (Nat.zero_le _) last trivial ranged.formed.start there
    rw [if_neg empty, Grammar.bestParse?, if_neg empty]
    simp only [made, minus_eq nonempty, there, Option.bind_eq_bind, Option.bind_some]
    rcases related_cases agrees with ⟨gone, gone'⟩ | ⟨entry, best, entered, found, records⟩
    · rw [gone, gone']
      rfl
    · have positive := bestChart_pos (Nat.zero_le _) last ranged.formed.start found
      have tree := tracks.tree (Nat.zero_le _) last ranged.formed.start found
      rw [entered, found]
      simp only [records.weight_eq, tree, Option.bind_some]
      exact if_pos positive

end

end StochasticGrammar
