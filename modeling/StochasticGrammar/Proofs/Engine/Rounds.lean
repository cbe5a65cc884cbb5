import StochasticGrammar.Proofs.Chart.Rounds
import StochasticGrammar.Proofs.Engine.History

/-!
The rounds of a demand on the tables of a corpus string, in any state that a session can leave them in.
-/

namespace StochasticGrammar

namespace Engine

variable {d : Declarations} {g : Grammar}

/-- The rounds end and leave the cell known, with all that was known before. Each changes the tables by
what it records; a cell is recorded once, at a time when all cells that its sum looks up are known and
it is not, nor ever was. -/
theorem rounds_complete (built : d.grammar = .ok g) (session : List Request) {string : Nat} {s : CorpusString}
    (present : ((ofGrammar g).after session).corpus[string]? = some s) (cell : Cell) :
    let e := (ofGrammar g).after session
    let p := e.grammar.sentence s.tokens
    let work : Work Float := ⟨s.tables.sync e.grammar.epoch, e.counters⟩
    let after (n : Nat) := p.rounds n ⟨work, [cell]⟩
    (∃ last, after last = ⟨p.resolve work [cell], []⟩) ∧
      p.known? (p.resolve work [cell]).tables cell = some (p.demand work cell).1 ∧
      (∀ other answer, p.known? work.tables other = some answer →
        p.known? (p.resolve work [cell]).tables other = some answer) ∧
      (∀ n, (after (n + 1)).work = (p.recorded? (after n)).elim (after n).work fun stored =>
        p.record (after n).work stored.cell stored.value stored.constant) ∧
      ∀ n stored, p.recorded? (after n) = some stored →
        p.known? work.tables stored.cell = none ∧
        (∀ other ∈ p.reads (after n).work.tables stored.cell, (p.known? (after n).work.tables other).isSome) ∧
        (∀ m stored', p.recorded? (after m) = some stored' → stored'.cell = stored.cell → m = n) := by
  intro e p work after
  have consistent : Consistent g e := (consistent_ofGrammar built).after session
  have sound : p.Sound (Pass.mk work [cell]).work.tables :=
    (consistent.corpus s (Array.mem_of_getElem? present)).inDate.sound
  obtain ⟨last, ends⟩ := Sentence.exists_rounds (s := p) work [cell]
  refine ⟨⟨last, ends⟩, ?_, ?_, ?_, ?_⟩
  · have known := (resolve_sound work [cell] sound).2.2 cell List.mem_cons_self
    obtain ⟨answer, known⟩ := Option.isSome_iff_exists.mp known
    simp only [Sentence.demand, known, Option.getD_some]
  · intro other answer known
    have still := Sentence.known_rounds sound known last
    rwa [ends] at still
  · intro n
    have next : after (n + 1) = p.round (after n) := Sentence.rounds_succ n ⟨work, [cell]⟩
    rw [next]
    exact Sentence.work_round (after n)
  · intro n stored next
    obtain ⟨new, complete⟩ := Sentence.recorded_eq_some next
    refine ⟨?_, ?_, ?_⟩
    · -- What was known at the beginning would still be.
      cases before : p.known? work.tables stored.cell with
      | none => rfl
      | some answer =>
        have still := Sentence.known_rounds sound before n
        rw [new] at still
        cases still
    · exact Sentence.missing_combine_iff.mp (congrArg Tally.missing complete)
    · intro m stored' again same
      exact Sentence.recorded_once sound next again same

/-- Outside of a token in the middle, when an update has left nothing but the constant ones. -/
theorem sample_rounds_complete :
    let e := (ofGrammar (Declarations.sampleGrammar 0.25)).after
      [.setCorpus ["aab"], .inside 0 2 0 0, .setValues [(0, 0.5)]]
    ∃ s, e.corpus[0]? = some s ∧
      let p := e.grammar.sentence s.tokens
      let work : Work Float := ⟨s.tables.sync e.grammar.epoch, e.counters⟩
      (∃ last, p.rounds last ⟨work, [.outside 1 1 0]⟩ = ⟨p.resolve work [.outside 1 1 0], []⟩) ∧
        p.known? (p.resolve work [.outside 1 1 0]).tables (.outside 1 1 0) =
          some (p.demand work (.outside 1 1 0)).1 := by
  intro e
  have corpus : e.corpus.size = 1 := by
    simp only [e, Engine.after, List.foldl_cons, List.foldl_nil]
    rw [size_answer _ (by simp), size_answer _ (by simp)]
    simp only [answer, reply]
    rw [setCorpus_single (by decide) (sample_tokenize 0.25)]
    rfl
  have present : e.corpus[0]? = some e.corpus[0] := by simp [corpus]
  obtain ⟨ends, known, -⟩ := rounds_complete (Declarations.sample_grammar 0.25)
    [.setCorpus ["aab"], .inside 0 2 0 0, .setValues [(0, 0.5)]] present (.outside 1 1 0)
  exact ⟨_, present, ends, known⟩

end Engine

end StochasticGrammar
