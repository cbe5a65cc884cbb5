import StochasticGrammar.Engine
import StochasticGrammar.Proofs.Chart.Filling

/-!
Tables that outlive updates of the parameters. They are in date when bringing them up to the present
epoch makes them sound; this survives demands, resets and updates, the last since only constant ones
are carried over to another epoch.
-/

namespace StochasticGrammar

def Tables.EpochsAre {W : Type} (tables : Tables W) (epoch : Option Nat) : Prop :=
  tables.inside.epoch = epoch ∧ tables.outside.epoch = epoch

section

variable {W : Type} [Weight W] {s : Sentence W}

theorem epochs_record {work : Work W} {epoch : Option Nat} (stamped : work.tables.EpochsAre epoch)
    (cell : Cell) (value : W) (constant : Bool) :
    (s.record work cell value constant).tables.EpochsAre epoch := by
  obtain ⟨⟨inside, outside⟩, counters⟩ := work
  cases cell with
  | inside start stop nt =>
    simp only [Sentence.record]
    split
    · exact ⟨(MemoTable.epoch_store ..).trans stamped.1, stamped.2⟩
    · exact stamped
  | outside start stop nt =>
    simp only [Sentence.record]
    split
    · exact ⟨stamped.1, (MemoTable.epoch_store ..).trans stamped.2⟩
    · exact stamped

theorem epochs_resolve {work : Work W} {epoch : Option Nat} (stamped : work.tables.EpochsAre epoch)
    (stack : List Cell) : (s.resolve work stack).tables.EpochsAre epoch := by
  fun_induction Sentence.resolve s work stack with
  | case1 work => exact stamped
  | case2 work top rest answer known less ih => exact ih stamped
  | case3 work top rest known sum constant complete fewer ih => exact ih (epochs_record stamped _ _ _)
  | case4 work top rest known sum constant cell cells demanded less ih => exact ih stamped

end

variable {s : Sentence Float} {tables : Tables Float} {epoch : Nat}

/-- What is known after an invalidation is a constant one, and was known before. -/
theorem known_invalidate {cell : Cell} {answer : Float × Bool} (within : s.Within cell)
    (known : s.known? tables.invalidate cell = some answer) :
    answer = (1, true) ∧ s.known? tables cell = some (1, true) := by
  cases cell with
  | inside start stop nt =>
    obtain ⟨index, here⟩ := Option.isSome_iff_exists.mp (SpanGrid.index_isSome_iff.mpr within)
    simp only [Sentence.known?, here, Tables.invalidate] at known ⊢
    obtain ⟨one, rfl⟩ := MemoTable.lookup_invalidate known
    exact ⟨rfl, MemoTable.lookup_one one⟩
  | outside start stop nt =>
    obtain ⟨index, here⟩ := Option.isSome_iff_exists.mp (SpanGrid.index_isSome_iff.mpr within)
    simp only [Sentence.known?, here, Tables.invalidate] at known ⊢
    obtain ⟨one, rfl⟩ := MemoTable.lookup_invalidate known
    exact ⟨rfl, MemoTable.lookup_one one⟩

theorem Sentence.Sound.invalidate (sound : s.Sound tables) : s.Sound tables.invalidate where
  inside := MemoTable.WellFormed.invalidate _
  outside := MemoTable.WellFormed.invalidate _
  answers {cell answer} known := by
    by_cases within : s.Within cell
    · obtain ⟨rfl, before⟩ := known_invalidate within known
      exact sound.answers before
    · rw [known_of_not_within within] at known
      rw [settled_of_not_within within]
      exact (Option.some.inj known).symm

/-- What an invalidation leaves of sound tables is right under all values of the rules. -/
theorem Sentence.Sound.revalued (sound : s.Sound tables.invalidate) {value : Nat → Float}
    (certain : ∀ rule, s.certain rule = true → value rule = s.value rule) :
    (s.revalued value).Sound tables.invalidate where
  inside := sound.inside
  outside := sound.outside
  answers {cell answer} known := by
    by_cases within : s.Within cell
    · obtain ⟨rfl, -⟩ := known_invalidate (s := s) within known
      have settled := sound.answers known
      exact settled.trans ((settled_agree certain cell).2 (by rw [← settled]))
    · have beyond : ¬ (s.revalued value).Within cell := within
      rw [known_of_not_within beyond] at known
      rw [settled_of_not_within beyond]
      exact (Option.some.inj known).symm

/-- The tables know nothing of later epochs, and are sound once they are brought up to this one. -/
structure InDate (s : Sentence Float) (tables : Tables Float) (epoch : Nat) : Prop where
  past : ∃ filled : Option Nat, tables.EpochsAre filled ∧ ∀ before ∈ filled, before ≤ epoch
  sound : s.Sound (tables.sync epoch)

theorem sync_of_epochs (stamped : tables.EpochsAre (some epoch)) : tables.sync epoch = tables := by
  obtain ⟨inside, outside⟩ := tables
  simp only [Tables.sync, MemoTable.sync, if_pos stamped.1, if_pos stamped.2]

theorem epoch_sync {W : Type} (table : MemoTable W) (epoch : Nat) :
    (table.sync epoch).epoch = some epoch := by
  unfold MemoTable.sync
  split
  · assumption
  · rfl

theorem epochs_sync (tables : Tables Float) (epoch : Nat) :
    (tables.sync epoch).EpochsAre (some epoch) :=
  ⟨epoch_sync tables.inside epoch, epoch_sync tables.outside epoch⟩

theorem known_sync_of_ne {filled : Option Nat} (stamped : tables.EpochsAre filled)
    (moved : filled ≠ some epoch) (cell : Cell) :
    s.known? (tables.sync epoch) cell = s.known? tables.invalidate cell := by
  have left : ¬ tables.inside.epoch = some epoch := stamped.1 ▸ moved
  have right : ¬ tables.outside.epoch = some epoch := stamped.2 ▸ moved
  simp only [Tables.sync, MemoTable.sync, if_neg left, if_neg right]
  rfl

theorem Sentence.Sound.sync_of_ne {filled : Option Nat} (stamped : tables.EpochsAre filled)
    (moved : filled ≠ some epoch) (sound : s.Sound tables.invalidate) :
    s.Sound (tables.sync epoch) where
  inside := by
    have left : ¬ tables.inside.epoch = some epoch := stamped.1 ▸ moved
    simp only [Tables.sync, MemoTable.sync, if_neg left]
    exact ⟨sound.inside.stored, sound.inside.apart⟩
  outside := by
    have right : ¬ tables.outside.epoch = some epoch := stamped.2 ▸ moved
    simp only [Tables.sync, MemoTable.sync, if_neg right]
    exact ⟨sound.outside.stored, sound.outside.apart⟩
  answers known := sound.answers (by rwa [known_sync_of_ne stamped moved] at known)

theorem sound_empty {W : Type} [Weight W] (s : Sentence W) : s.Sound {} where
  inside := MemoTable.wellFormed_empty
  outside := MemoTable.wellFormed_empty
  answers {cell answer} known := by
    by_cases within : s.Within cell
    · cases cell with
      | inside start stop nt =>
        obtain ⟨index, here⟩ := Option.isSome_iff_exists.mp (SpanGrid.index_isSome_iff.mpr within)
        simp [Sentence.known?, here, MemoTable.lookup?] at known
      | outside start stop nt =>
        obtain ⟨index, here⟩ := Option.isSome_iff_exists.mp (SpanGrid.index_isSome_iff.mpr within)
        simp [Sentence.known?, here, MemoTable.lookup?] at known
    · rw [known_of_not_within within] at known
      rw [settled_of_not_within within]
      exact (Option.some.inj known).symm

namespace InDate

theorem empty (s : Sentence Float) (epoch : Nat) : InDate s {} epoch where
  past := ⟨none, ⟨rfl, rfl⟩, by simp⟩
  sound := by
    have stamped : ({} : Tables Float).EpochsAre none := ⟨rfl, rfl⟩
    exact .sync_of_ne stamped (by simp) (sound_empty s).invalidate

theorem of_sound (stamped : tables.EpochsAre (some epoch)) (sound : s.Sound tables) :
    InDate s tables epoch where
  past := ⟨some epoch, stamped, by simp⟩
  sound := by rwa [sync_of_epochs stamped]

/-- A demand in tables that are in date is answered by the settled weight. -/
theorem demand (inDate : InDate s tables epoch) (counters : Counters) (cell : Cell) :
    (s.demand ⟨tables.sync epoch, counters⟩ cell).1 = s.settled cell ∧
      InDate s (s.demand ⟨tables.sync epoch, counters⟩ cell).2.tables epoch := by
  have sound : s.Sound (Work.mk (tables.sync epoch) counters).tables := inDate.sound
  have stamped : (Work.mk (tables.sync epoch) counters).tables.EpochsAre (some epoch) :=
    epochs_sync tables epoch
  obtain ⟨answered, after⟩ := demand_settled sound cell
  exact ⟨answered, of_sound (epochs_resolve stamped [cell]) after⟩

theorem sound_invalidate (inDate : InDate s tables epoch) : s.Sound tables.invalidate := by
  obtain ⟨⟨filled, stamped, -⟩, sound⟩ := inDate
  by_cases present : filled = some epoch
  · subst present
    rw [sync_of_epochs stamped] at sound
    exact sound.invalidate
  · refine ⟨MemoTable.WellFormed.invalidate _, MemoTable.WellFormed.invalidate _, ?_⟩
    intro cell answer known
    exact sound.answers (by rwa [known_sync_of_ne stamped present])

theorem invalidate (inDate : InDate s tables epoch) : InDate s tables.invalidate epoch := by
  have sound := inDate.sound_invalidate
  obtain ⟨⟨filled, stamped, past⟩, -⟩ := inDate
  have kept : tables.invalidate.EpochsAre filled := stamped
  refine ⟨⟨filled, kept, past⟩, ?_⟩
  by_cases present : filled = some epoch
  · subst present
    rwa [sync_of_epochs kept]
  · exact .sync_of_ne kept present sound.invalidate

/-- The next epoch may give any values to the rules that are not certain. -/
theorem revalued (inDate : InDate s tables epoch) {value : Nat → Float}
    (certain : ∀ rule, s.certain rule = true → value rule = s.value rule) :
    InDate (s.revalued value) tables (epoch + 1) := by
  have sound := inDate.sound_invalidate
  obtain ⟨⟨filled, stamped, past⟩, -⟩ := inDate
  refine ⟨⟨filled, stamped, fun before found => Nat.le_succ_of_le (past before found)⟩, ?_⟩
  have moved : filled ≠ some (epoch + 1) := by
    intro same
    have early := past (epoch + 1) same
    omega
  exact .sync_of_ne stamped moved (sound.revalued certain)

end InDate

end StochasticGrammar
