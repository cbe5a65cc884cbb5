import StochasticGrammar.Proofs.Formula.Derivations
import StochasticGrammar.Proofs.Grammar.Conditions
import StochasticGrammar.Proofs.Grammar.Updates
import StochasticGrammar.Proofs.GrammarText.Soundness

/-!
Declarations with the texts of their formulas as they are written. The text of a formula stands for
the formula that was read, so that such declarations make the same grammar.
-/

namespace StochasticGrammar

open GrammarText

namespace RuleSource

def text? : RuleSource → Option String
  | certain => none
  | formula f => some f.text

def constants : RuleSource → List Float
  | certain => []
  | formula f => f.constants

def Readable : RuleSource → Prop
  | certain => True
  | formula f => f.Readable

end RuleSource

def TerminalDeclaration.rewritten (rule : TerminalDeclaration) (source : RuleSource) : TerminalDeclaration :=
  { rule with formula := source.text? }

def BinaryDeclaration.rewritten (rule : BinaryDeclaration) (source : RuleSource) : BinaryDeclaration :=
  { rule with formula := source.text? }

theorem trimmed_text {f : Formula} (readable : f.Readable) : Trimmed f.text.toList := by
  have shape : f.text.toList = f.write 0 false [] := String.toList_ofList
  have ends := Formula.endsInked_write readable 0 false []
  rw [shape]
  refine ⟨?_, Formula.write_head readable 0 false [], ends⟩
  obtain ⟨front, c, same, inked, all⟩ := ends
  rw [same]
  exact plain_append all (plain_of_inked (by simpa using inked))

theorem RuleSource.Readable.trimmed {source : RuleSource} (readable : source.Readable) :
    ∀ text ∈ source.text?, Trimmed text.toList := by
  intro text written
  cases source with
  | certain => cases written
  | formula f =>
    cases written
    exact trimmed_text readable

namespace Declarations

section

variable {ps : Parameters} {label : DeclarationLabel} {text : Option String} {rule : RuleSource}

theorem source_readable (known : source ps label text = .ok rule)
    (bounded : ∀ value ∈ rule.constants, value.isInf = false) : rule.Readable := by
  cases rule with
  | certain => trivial
  | formula f =>
    unfold source at known
    split at known
    · cases known
    · split at known
      · cases known
      · split at known
        · cases known
        · rename_i parsed
          split at known
          · cases known
          · cases known
            exact Formula.readable_of_parse parsed bounded

/-- The text of a formula that was read stands for the same formula. -/
theorem source_rewritten (known : source ps label text = .ok rule) (readable : rule.Readable) :
    source ps label rule.text? = .ok rule := by
  cases rule with
  | certain => rfl
  | formula f =>
    have names : f.names.find? (fun name => (ps.id? name).isNone) = none := by
      unfold source at known
      split at known
      · cases known
      · split at known
        · cases known
        · split at known
          · cases known
          · split at known
            · cases known
            · cases known
              assumption
    have trimmed := trimmed_text readable
    have some : (Text.trimChars f.text.toList).isEmpty = false := by
      rw [Text.trimChars_eq trimmed.begins.head (endsInked_getLast trimmed.ends)]
      simpa using trimmed.begins.ne_nil
    simp [source, RuleSource.text?, some, Formula.parse_text readable, names]

end

section

variable {α : Type} {redo : α → RuleSource → α}

theorem checkAll_rewritten {check : Nat → α → Except Error Checked} {items : List α}
    {results : List Checked}
    (again : ∀ n item result, result ∈ results → check n item = .ok result →
      check n (redo item result.source) = .ok result)
    {number : Nat} (checked : checkAll check number items = .ok results) :
    checkAll check number (List.zipWith redo items (results.map (·.source))) = .ok results := by
  induction items generalizing number results with
  | nil =>
    cases checked
    rfl
  | cons item items ih =>
    obtain ⟨result, first, later⟩ := bind_eq_ok.mp checked
    obtain ⟨others, second, made⟩ := bind_eq_ok.mp later
    cases made
    have here := again number item result List.mem_cons_self first
    have there := ih (fun n other result' member =>
      again n other result' (List.mem_cons_of_mem result member)) second
    rw [List.map_cons, List.zipWith_cons_cons, checkAll, here]
    simp only [bind, Except.bind, there]
    rfl

theorem addAll_rewritten {add : Numbered → Nat → α → Except Error Numbered}
    (same : ∀ numbered n item source, add numbered n (redo item source) = add numbered n item)
    {items : List α} {sources : List RuleSource} (length : sources.length = items.length) (number : Nat)
    (numbered : Numbered) :
    addAll add number numbered (List.zipWith redo items sources) = addAll add number numbered items := by
  induction items generalizing number numbered sources with
  | nil => simp
  | cons item items ih =>
    cases sources with
    | nil => cases length
    | cons source sources =>
      rw [List.zipWith_cons_cons, addAll, addAll, same]
      congr 1
      funext next
      exact ih (Nat.succ_inj.mp length) (number + 1) next

end

/-- The declarations with the texts of these sources for their formulas. -/
def rewritten (d : Declarations) (sources : List RuleSource) : Declarations :=
  { d with
    terminalRules := (List.zipWith .rewritten d.terminalRules.toList sources).toArray
    binaryRules :=
      (List.zipWith .rewritten d.binaryRules.toList (sources.drop d.terminalRules.size)).toArray }

section

variable {ps : Parameters} {number : Nat} {result : Checked}

theorem checkTerminal_rewritten {rule : TerminalDeclaration} (readable : result.source.Readable)
    (checked : checkTerminal ps number rule = .ok result) :
    checkTerminal ps number (rule.rewritten result.source) = .ok result := by
  simp only [checkTerminal, bind_eq_ok] at checked ⊢
  obtain ⟨lhs, known, checked⟩ := checked
  refine ⟨lhs, known, ?_⟩
  split at checked
  · cases checked
  · rename_i some
    rw [bind_eq_ok] at checked
    obtain ⟨source, found, made⟩ := checked
    cases made
    have same : (rule.rewritten source).literal = rule.literal := rfl
    rw [same, if_neg some]
    exact bind_eq_ok.mpr ⟨source, source_rewritten found readable, rfl⟩

theorem checkBinary_rewritten {rule : BinaryDeclaration} (readable : result.source.Readable)
    (checked : checkBinary ps number rule = .ok result) :
    checkBinary ps number (rule.rewritten result.source) = .ok result := by
  simp only [checkBinary, bind_eq_ok] at checked ⊢
  obtain ⟨lhs, first, left, second, right, third, source, found, made⟩ := checked
  cases made
  exact ⟨lhs, first, left, second, right, third, source, source_rewritten found readable, rfl⟩

end

theorem zipWith_take {α β γ : Type} (f : α → β → γ) (items : List α) (others : List β) :
    List.zipWith f items others = List.zipWith f items (others.take items.length) := by
  induction items generalizing others with
  | nil => simp
  | cons item items ih =>
    cases others with
    | nil => simp
    | cons other others => simp [ih others]

theorem rewritten_parts {d : Declarations} {sources first second : List RuleSource}
    (split : sources = first ++ second) (length : first.length = d.terminalRules.size) :
    (d.rewritten sources).terminalRules.toList = List.zipWith .rewritten d.terminalRules.toList first ∧
      (d.rewritten sources).binaryRules.toList = List.zipWith .rewritten d.binaryRules.toList second := by
  constructor
  · rw [rewritten, List.toList_toArray, zipWith_take, split, Array.length_toList, List.take_left' length]
  · rw [rewritten, List.toList_toArray, split, List.drop_left' length]

/-- The sources of a grammar are those of its terminal rules, then those of the others. -/
theorem Passes.sources {d : Declarations} {b : Stages} (passes : d.Passes b) :
    ∃ terminal binary, checkAll (checkTerminal d.parameters) 0 d.terminalRules.toList = .ok terminal ∧
      checkAll (checkBinary d.parameters) 0 d.binaryRules.toList = .ok binary ∧
      b.checked = terminal ++ binary ∧
      b.values.sources.toList = terminal.map (·.source) ++ binary.map (·.source) := by
  obtain ⟨terminal, binary, leaves, nodes, checked⟩ := passes.checked
  refine ⟨terminal, binary, leaves, nodes, checked, ?_⟩
  rw [(RuleValues.ofSources_eq_ok.mp passes.evaluated).2.1, Draft.sources, checked, List.map_append]

/-- Declarations make the same grammar when their formulas are written anew. -/
theorem rewritten_grammar {d : Declarations} {g : Grammar} (built : d.grammar = .ok g)
    (readable : ∀ source ∈ g.values.sources, source.Readable) :
    (d.rewritten g.values.sources.toList).grammar = .ok g := by
  obtain ⟨b, passes, rfl⟩ := grammar_eq_ok_iff.mp built
  obtain ⟨terminal, binary, leaves, nodes, checked, sources⟩ := passes.sources
  obtain ⟨middle, first, second⟩ := passes.numbered
  have length : (terminal.map (·.source)).length = d.terminalRules.toList.length := by
    rw [List.length_map, checkAll_length leaves]
  have length' : (binary.map (·.source)).length = d.binaryRules.toList.length := by
    rw [List.length_map, checkAll_length nodes]
  obtain ⟨terminals, binaries⟩ := rewritten_parts sources (length.trans Array.length_toList)
  have member : ∀ result ∈ terminal ++ binary, result.source.Readable := by
    intro result inside
    apply readable
    rw [← Array.mem_toList_iff, Stages.grammar, sources, ← List.map_append]
    exact List.mem_map_of_mem inside
  have sameTerminal : ∀ numbered n (item : TerminalDeclaration) source,
      addTerminal numbered n (item.rewritten source) = addTerminal numbered n item := fun _ _ _ _ => rfl
  have sameBinary : ∀ numbered n (item : BinaryDeclaration) source,
      addBinary numbered n (item.rewritten source) = addBinary numbered n item := fun _ _ _ _ => rfl
  apply grammar_eq_ok_iff.mpr
  refine ⟨b, ?_, rfl⟩
  exact {
    nonempty := by
      have some := passes.nonempty
      rw [← Array.isEmpty_toList] at some ⊢
      rw [Stages.grammar, terminals, ← Bool.not_eq_true, List.isEmpty_iff_length_eq_zero,
        List.length_zipWith, length, Nat.min_self, ← List.isEmpty_iff_length_eq_zero, some]
      exact Bool.false_ne_true
    start := passes.start
    checked := by
      refine ⟨terminal, binary, ?_, ?_, checked⟩
      · rw [Stages.grammar, terminals]
        exact checkAll_rewritten (fun n item result inside => checkTerminal_rewritten
          (member result (List.mem_append_left binary inside))) leaves
      · rw [Stages.grammar, binaries]
        exact checkAll_rewritten (fun n item result inside => checkBinary_rewritten
          (member result (List.mem_append_right terminal inside))) nodes
    numbered := by
      refine ⟨middle, ?_, ?_⟩
      · rw [Stages.grammar, terminals, addAll_rewritten sameTerminal length]
        exact first
      · rw [Stages.grammar, binaries, addAll_rewritten sameBinary length']
        exact second
    fits := passes.fits
    ruled := passes.ruled
    reached := passes.reached
    evaluated := passes.evaluated }

end Declarations

end StochasticGrammar
