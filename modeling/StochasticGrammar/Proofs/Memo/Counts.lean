import Mathlib.Data.List.Dedup
import StochasticGrammar.Proofs.Memo.Lookup

/-!
The numbers that a memo table reports, as numbers of cells. Entries and visits are kept by cell, so each
cell counts once.
-/

namespace StochasticGrammar

theorem size_eq_countP {V : Type} {entries : Std.HashMap Nat V} {bound : Nat}
    (below : ∀ index ∈ entries, index < bound) :
    entries.size = (List.range bound).countP fun index => entries.contains index := by
  rw [← Std.HashMap.length_keys, List.countP_eq_length_filter]
  refine List.Perm.length_eq ?_
  rw [List.perm_ext_iff_of_nodup Std.HashMap.nodup_keys (List.nodup_range.filter _)]
  intro index
  rw [Std.HashMap.mem_keys, List.mem_filter, List.mem_range, Std.HashMap.contains_iff_mem]
  exact ⟨fun present => ⟨below index present, present⟩, And.right⟩

theorem size_eq_length_dedup {visits : Std.HashSet Nat} {cells : List Nat}
    (same : ∀ index, index ∈ visits ↔ index ∈ cells) : visits.size = cells.dedup.length := by
  have distinct : visits.toList.Nodup := Std.HashSet.distinct_toList.imp ne_of_beq_false
  rw [← Std.HashSet.length_toList]
  refine List.Perm.length_eq ?_
  rw [List.perm_ext_iff_of_nodup distinct (List.nodup_dedup cells)]
  intro index
  rw [Std.HashSet.mem_toList, same, List.mem_dedup]

namespace MemoTable

variable {W : Type}

/-- The entries of constant ones are those that an invalidation leaves. -/
theorem ones_eq (table : MemoTable W) : table.ones = table.invalidate.size := by
  have counted (entries : List (Nat × MemoEntry)) (count : Nat) :
      entries.foldl (fun count entry => if entry.2 == .one then count + 1 else count) count =
        count + entries.countP fun entry => entry.2 == .one := by
    induction entries generalizing count with
    | nil => rfl
    | cons entry entries ih =>
      rw [List.foldl_cons, ih, List.countP_cons]
      cases entry.2 == .one
      · simp
      · simp [Nat.add_assoc, Nat.add_comm 1]
  have left : table.invalidate.size = (table.entries.toList.filter fun entry => entry.2 == .one).length := by
    simp only [size, invalidate]
    rw [← Std.HashMap.length_toList]
    exact Std.HashMap.toList_filter.length_eq
  rw [left, ← List.countP_eq_length_filter, ones, Std.HashMap.fold_eq_foldl_toList, counted, Nat.zero_add]

end MemoTable

end StochasticGrammar
