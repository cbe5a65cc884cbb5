import StochasticGrammar.Proofs.Tree.Totals

/-!
What can stand around a node, as the way from it up to the root of a derivation of the whole string,
with the sibling at every step. A tree fits into exactly the surroundings of its span and its
non-terminal.
-/

namespace StochasticGrammar

inductive Surrounding where
  /-- Nothing: the node is the root. -/
  | whole
  /-- The node is the left child of a node with the given rule. -/
  | left (rule : Nat) (sibling : Derivation) (above : Surrounding)
  | right (rule : Nat) (sibling : Derivation) (above : Surrounding)
  deriving DecidableEq, Repr, Inhabited

namespace Surrounding

def rules : Surrounding → List Nat
  | whole => []
  | left rule sibling above => rule :: (sibling.rules ++ above.rules)
  | right rule sibling above => rule :: (sibling.rules ++ above.rules)

end Surrounding

/-- That a surrounding leaves room for a tree that derives the tokens from `start` to `stop` from a
non-terminal. -/
inductive Sentence.Surrounds {W : Type} (s : Sentence W) : Surrounding → Nat → Nat → Nat → Prop where
  | whole {stop : Nat} (last : stop + 1 = s.tokens.size) : Surrounds s .whole 0 stop s.rules.start
  | left {rule start stop e nt b parent : Nat} {sibling : Derivation} {above : Surrounding}
      (found : s.rules.rules[rule]? = some ⟨parent, .binary nt b⟩)
      (derives : s.Derives sibling (stop + 1) e b) (surrounds : Surrounds s above start e parent) :
      Surrounds s (.left rule sibling above) start stop nt
  | right {rule start m stop a nt parent : Nat} {sibling : Derivation} {above : Surrounding}
      (found : s.rules.rules[rule]? = some ⟨parent, .binary a nt⟩)
      (derives : s.Derives sibling start m a) (surrounds : Surrounds s above start stop parent) :
      Surrounds s (.right rule sibling above) (m + 1) stop nt

namespace Sentence

variable {W : Type} (s : Sentence W)

/-- All surroundings of a span and a non-terminal. -/
def surroundings (start stop nt : Nat) : List Surrounding :=
  if start = 0 ∧ stop + 1 = s.tokens.size then if nt = s.rules.start then [.whole] else []
  else
    ((BinaryRule.all s.rules.rules).filter fun r => r.left == nt).flatMap (fun r =>
      (List.finRange (s.tokens.size - (stop + 1))).flatMap fun (k : Fin (s.tokens.size - (stop + 1))) =>
        (s.derivations (stop + 1) (stop + 1 + k) r.right).flatMap fun sibling =>
          (surroundings start (stop + 1 + k) r.lhs).map fun above => .left r.index sibling above) ++
    ((BinaryRule.all s.rules.rules).filter fun r => r.right == nt).flatMap fun r =>
      (List.finRange start).flatMap fun (b : Fin start) =>
        (s.derivations b (start - 1) r.left).flatMap fun sibling =>
          (surroundings b stop r.lhs).map fun above => .right r.index sibling above
termination_by start + (s.tokens.size - stop)

def surroundingsAt : Cell → List Surrounding
  | .inside .. => []
  | .outside start stop nt => s.surroundings start stop nt

/-- The surroundings that a term puts together, on the side given. -/
def framed (side : Nat → Derivation → Surrounding → Surrounding) (term : Term) : List Surrounding :=
  (s.derivationsAt term.first).flatMap fun sibling =>
    (s.surroundingsAt term.second).map fun above => side term.rule sibling above

end Sentence

section

variable {W : Type} {s : Sentence W} {start stop nt : Nat}

theorem surroundings_full (full : start = 0 ∧ stop + 1 = s.tokens.size) :
    s.surroundings start stop nt = if nt = s.rules.start then [.whole] else [] := by
  rw [Sentence.surroundings, if_pos full]

theorem surroundings_part (part : ¬ (start = 0 ∧ stop + 1 = s.tokens.size)) :
    s.surroundings start stop nt = (s.allRightTerms start stop nt).flatMap (s.framed .left) ++
      (s.allLeftTerms start stop nt).flatMap (s.framed .right) := by
  have left : List.range start = List.range' 0 start := List.range_eq_range'
  rw [Sentence.surroundings, if_neg part, Sentence.allRightTerms, Sentence.allLeftTerms,
    List.flatMap_assoc, List.flatMap_assoc, left]
  simp only [range'_eq_map, List.map_map, List.flatMap_map, Nat.zero_add]
  rfl

theorem mem_framed {side : Nat → Derivation → Surrounding → Surrounding} {term : Term}
    {around : Surrounding} :
    around ∈ s.framed side term ↔ ∃ sibling ∈ s.derivationsAt term.first,
      ∃ above ∈ s.surroundingsAt term.second, around = side term.rule sibling above := by
  simp only [Sentence.framed, List.mem_flatMap, List.mem_map, eq_comm]

theorem mem_surroundings (formed : s.rules.WellFormed) (order : start ≤ stop)
    (inside : stop < s.tokens.size) {around : Surrounding} :
    around ∈ s.surroundings start stop nt ↔ s.Surrounds around start stop nt := by
  induction room : start + (s.tokens.size - stop) using Nat.strongRecOn
    generalizing start stop nt around with
  | _ room ih =>
    subst room
    by_cases full : start = 0 ∧ stop + 1 = s.tokens.size
    · rw [surroundings_full full]
      rcases full with ⟨rfl, last⟩
      constructor
      · intro member
        split at member
        · rename_i root
          rw [List.mem_singleton.mp member, root]
          exact .whole last
        · cases member
      · intro surrounds
        cases surrounds with
        | whole _ => simp
        | left found derives surrounds =>
          have above := derives.order
          have below := derives.span.2
          omega
    · rw [surroundings_part full, List.mem_append, List.mem_flatMap, List.mem_flatMap]
      constructor
      · intro member
        rcases member with ⟨term, member, made⟩ | ⟨term, member, made⟩
        · rcases mem_allRightTerms.mp member with ⟨r, present, rfl, e, low, high, rfl⟩
          rcases mem_framed.mp made with ⟨sibling, derived, above, around, rfl⟩
          have sibling := (mem_derivations formed low).mp derived
          have parent := (ih (start + (s.tokens.size - e)) (by omega) (by omega) high rfl).mp around
          exact .left (mem_allBinary.mp present) sibling parent
        · rcases mem_allLeftTerms.mp member with ⟨r, present, rfl, b, before, rfl⟩
          rcases mem_framed.mp made with ⟨sibling, derived, above, around, rfl⟩
          have sibling := (mem_derivations formed (by omega)).mp derived
          have parent := (ih (b + (s.tokens.size - stop)) (by omega) (by omega) inside rfl).mp around
          have next : start - 1 + 1 = start := by omega
          rw [← next]
          exact .right (mem_allBinary.mp present) sibling parent
      · intro surrounds
        cases surrounds with
        | whole last => exact absurd ⟨rfl, last⟩ full
        | @left rule _ _ e _ b parent sibling above found derives surrounds =>
          have low := derives.order
          have high := derives.span.2
          refine .inl ⟨_, mem_allRightTerms.mpr
            ⟨⟨rule, parent, nt, b⟩, mem_allBinary.mpr found, rfl, e, low, high, rfl⟩, mem_framed.mpr ?_⟩
          exact ⟨sibling, (mem_derivations formed low).mpr derives, above,
            (ih (start + (s.tokens.size - e)) (by omega) (by omega) high rfl).mpr surrounds, rfl⟩
        | @right rule b m _ a _ parent sibling above found derives surrounds =>
          have low := derives.order
          refine .inr ⟨_, mem_allLeftTerms.mpr
            ⟨⟨rule, parent, a, nt⟩, mem_allBinary.mpr found, rfl, b, by omega, rfl⟩, mem_framed.mpr ?_⟩
          exact ⟨sibling, (mem_derivations formed low).mpr derives, above,
            (ih (b + (s.tokens.size - stop)) (by omega) (by omega) inside rfl).mpr surrounds, rfl⟩

theorem nodup_framed {side : Nat → Derivation → Surrounding → Surrounding}
    (distinct : ∀ {rule sibling above sibling' above'},
      side rule sibling above = side rule sibling' above' → sibling = sibling' ∧ above = above')
    {term : Term} (first : (s.derivationsAt term.first).Nodup)
    (second : (s.surroundingsAt term.second).Nodup) : (s.framed side term).Nodup := by
  have pairs : s.framed side term =
      ((s.derivationsAt term.first).product (s.surroundingsAt term.second)).map
        fun pair => side term.rule pair.1 pair.2 := by
    simp only [Sentence.framed, List.product, List.map_flatMap, List.map_map]
    rfl
  rw [pairs]
  apply (first.product second).map
  intro pair pair' same
  exact Prod.ext (distinct same).1 (distinct same).2

theorem nodup_surroundings (formed : s.rules.WellFormed) (order : start ≤ stop)
    (inside : stop < s.tokens.size) : (s.surroundings start stop nt).Nodup := by
  induction room : start + (s.tokens.size - stop) using Nat.strongRecOn generalizing start stop nt with
  | _ room ih =>
    subst room
    by_cases full : start = 0 ∧ stop + 1 = s.tokens.size
    · rw [surroundings_full full]
      split
      · exact List.nodup_singleton _
      · exact List.nodup_nil
    · -- the width of the sibling tells at which term a surrounding was put together
      let place : Surrounding → Nat × Nat
        | .whole => (0, 0)
        | .left rule sibling _ => (rule, stop + sibling.width)
        | .right rule sibling _ => (rule, start - sibling.width)
      rw [surroundings_part full]
      apply List.Nodup.append
      · apply nodup_flatMap_of_key place fun term => (term.rule, term.second.stop)
        · intro term member around made
          rcases mem_allRightTerms.mp member with ⟨r, present, rfl, e, low, high, rfl⟩
          rcases mem_framed.mp made with ⟨sibling, derived, above, -, rfl⟩
          have span := ((mem_derivations formed low).mp derived).span.1
          have ends : stop + sibling.width = e := by omega
          change (r.index, stop + sibling.width) = (r.index, e)
          rw [ends]
        · rw [Sentence.allRightTerms, List.map_flatMap]
          simp only [List.map_map]
          exact nodup_places (nodup_index _ _) List.nodup_range'
        · intro term member
          rcases mem_allRightTerms.mp member with ⟨r, present, rfl, e, low, high, rfl⟩
          apply nodup_framed
          · intro rule sibling above sibling' above' same
            cases same
            exact ⟨rfl, rfl⟩
          · exact nodup_derivations formed low
          · exact ih (start + (s.tokens.size - e)) (by omega) (by omega) high rfl
      · apply nodup_flatMap_of_key place fun term => (term.rule, term.second.start)
        · intro term member around made
          rcases mem_allLeftTerms.mp member with ⟨r, present, rfl, b, before, rfl⟩
          rcases mem_framed.mp made with ⟨sibling, derived, above, -, rfl⟩
          have span := ((mem_derivations formed (by omega)).mp derived).span.1
          have begins : start - sibling.width = b := by omega
          change (r.index, start - sibling.width) = (r.index, b)
          rw [begins]
        · rw [Sentence.allLeftTerms, List.map_flatMap]
          simp only [List.map_map]
          exact nodup_places (nodup_index _ _) List.nodup_range
        · intro term member
          rcases mem_allLeftTerms.mp member with ⟨r, present, rfl, b, before, rfl⟩
          apply nodup_framed
          · intro rule sibling above sibling' above' same
            cases same
            exact ⟨rfl, rfl⟩
          · exact nodup_derivations formed (by omega)
          · exact ih (b + (s.tokens.size - stop)) (by omega) (by omega) inside rfl
      · intro around isLeft isRight
        rcases List.mem_flatMap.mp isLeft with ⟨term, -, made⟩
        rcases mem_framed.mp made with ⟨_, -, _, -, rfl⟩
        rcases List.mem_flatMap.mp isRight with ⟨term', -, made'⟩
        rcases mem_framed.mp made' with ⟨_, -, _, -, same⟩
        cases same

end

end StochasticGrammar
