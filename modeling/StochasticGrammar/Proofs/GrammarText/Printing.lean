import StochasticGrammar.GrammarText.Printer
import StochasticGrammar.Proofs.GrammarText.Redeclaration

/-!
The text of a grammar is that of the declarations it was made of, with the formulas written anew: a
line for a rule leads back through the numbers of its terminals to the declaration of the rule.
-/

namespace StochasticGrammar

open GrammarText

namespace Grammar

/-- The line of a rule whose value is that of `source`. -/
def ruleLine (g : Grammar) (rule : Rule) (source : RuleSource) : String :=
  let body := s!"{rule.lhs} -> {g.productionText rule.production}"
  match source with
  | .certain => body
  | .formula formula => s!"{body} : {formula.text}"

theorem ruleText_eq {g : Grammar} (size : g.values.sources.size = g.rules.size) :
    (List.range g.rules.size).map g.ruleText =
      List.zipWith g.ruleLine g.rules.rules.toList g.values.sources.toList := by
  have size' : g.rules.rules.size = g.rules.size := rfl
  apply List.ext_getElem
  · simp [size, size']
  · intro i left right
    have inside : i < g.rules.size := by simpa using left
    have inside' : i < g.values.sources.size := by omega
    have rule : g.rules.rule? i = some g.rules.rules[i] := Array.getElem?_eq_getElem inside
    have source : g.source? i = some g.values.sources[i] := Array.getElem?_eq_getElem inside'
    rw [List.getElem_map, List.getElem_range, List.getElem_zipWith, ruleText, rule]
    simp only [source, Array.getElem_toList]
    unfold ruleLine
    cases g.values.sources[i] <;> rfl

end Grammar

theorem toString_toNat {i : Int} (nonnegative : 0 ≤ i) : toString i.toNat = toString i := by
  obtain ⟨n, rfl⟩ := Int.eq_ofNat_of_zero_le nonnegative
  rfl

theorem toList_rule (body : String) (source : RuleSource) :
    (match source with
      | .certain => body
      | .formula formula => s!"{body} : {formula.text}").toList =
      body.toList ++ formulaSuffix source.text? := by
  cases source with
  | certain => exact (List.append_nil _).symm
  | formula f =>
    have colon : " : ".toList = [' ', ':', ' '] := rfl
    change (body ++ " : " ++ f.text).toList = _
    rw [String.toList_append, String.toList_append, colon, List.append_assoc]
    rfl

theorem toList_ruleLine (g : Grammar) (rule : Rule) (source : RuleSource) :
    (g.ruleLine rule source).toList = (toString rule.lhs).toList ++ ' ' :: '-' :: '>' :: ' ' ::
      ((g.productionText rule.production).toList ++ formulaSuffix source.text?) := by
  have arrow : " -> ".toList = [' ', '-', '>', ' '] := rfl
  have body : s!"{rule.lhs} -> {g.productionText rule.production}" =
      toString rule.lhs ++ " -> " ++ g.productionText rule.production := rfl
  unfold Grammar.ruleLine
  simp only
  rw [toList_rule, body, String.toList_append, String.toList_append, arrow]
  simp

theorem ruleLine_terminal {g : Grammar} {declaration : TerminalDeclaration} {rule : Rule}
    (nonnegative : 0 ≤ declaration.lhs) (declared : Declarations.Declares g.alphabet declaration rule)
    (source : RuleSource) : (g.ruleLine rule source).toList =
      (Line.terminalRule (declaration.rewritten source)).text := by
  obtain ⟨terminal, rfl, literal⟩ := declared
  have found : g.literal? terminal = some declaration.literal := literal
  have quoted : (g.productionText (.terminal terminal)).toList =
      Text.literalChars declaration.literal.toList := by
    rw [Grammar.productionText, found]
    exact String.toList_ofList
  rw [toList_ruleLine, toString_toNat nonnegative, quoted]
  rfl

theorem ruleLine_binary {g : Grammar} {declaration : BinaryDeclaration} (nonnegative : 0 ≤ declaration.lhs)
    (left : 0 ≤ declaration.left) (right : 0 ≤ declaration.right) (source : RuleSource) :
    (g.ruleLine ⟨declaration.lhs.toNat, .binary declaration.left.toNat declaration.right.toNat⟩
      source).toList = (Line.binaryRule (declaration.rewritten source)).text := by
  have space : " ".toList = [' '] := rfl
  have pair : (g.productionText (.binary declaration.left.toNat declaration.right.toNat)).toList =
      (toString declaration.left).toList ++ ' ' :: (toString declaration.right).toList := by
    change (toString declaration.left.toNat ++ " " ++ toString declaration.right.toNat).toList = _
    rw [String.toList_append, String.toList_append, space, toString_toNat left, toString_toNat right,
      List.append_assoc]
    rfl
  rw [toList_ruleLine, toString_toNat nonnegative, pair]
  simp [Line.text, BinaryDeclaration.rewritten]

theorem toList_parameterText (p : Parameter) :
    (parameterText p).toList = (parameterLine p).text := by
  have words : "param ".toList = ['p', 'a', 'r', 'a', 'm', ' '] ∧ " = ".toList = [' ', '=', ' '] ∧
      " in [".toList = [' ', 'i', 'n', ' ', '['] ∧ ", ".toList = [',', ' '] ∧ "]".toList = [']'] :=
    ⟨rfl, rfl, rfl, rfl, rfl⟩
  have shape : parameterText p = "param " ++ p.name ++ " = " ++ Decimal.text p.value ++ " in [" ++
      Decimal.text p.lower ++ ", " ++ Decimal.text p.upper ++ "]" := rfl
  rw [shape]
  simp only [String.toList_append, words]
  simp [parameterLine, Line.text, boundsSuffix]

namespace Declarations

theorem nonTerminal_nonneg {label : DeclarationLabel} {index : Int} {nt : Nat}
    (known : nonTerminal label index = .ok nt) : 0 ≤ index := by
  unfold nonTerminal at known
  split at known
  · assumption
  · cases known

/-- The symbols of accepted declarations are not negative. -/
structure Nonnegative (d : Declarations) : Prop where
  start : 0 ≤ d.start
  terminal : ∀ rule ∈ d.terminalRules.toList, 0 ≤ rule.lhs
  binary : ∀ rule ∈ d.binaryRules.toList, 0 ≤ rule.lhs ∧ 0 ≤ rule.left ∧ 0 ≤ rule.right

theorem Passes.nonnegative {d : Declarations} {b : Stages} (passes : d.Passes b) : d.Nonnegative := by
  obtain ⟨terminal, binary, leaves, nodes, -⟩ := passes.checked
  refine ⟨nonTerminal_nonneg passes.start, ?_, ?_⟩
  · intro rule member
    obtain ⟨n, result, -, checked⟩ := checkAll_eq_ok leaves rule member
    simp only [checkTerminal, bind_eq_ok] at checked
    obtain ⟨lhs, known, -⟩ := checked
    exact nonTerminal_nonneg known
  · intro rule member
    obtain ⟨n, result, -, checked⟩ := checkAll_eq_ok nodes rule member
    simp only [checkBinary, bind_eq_ok] at checked
    obtain ⟨lhs, first, left, second, right, third, -⟩ := checked
    exact ⟨nonTerminal_nonneg first, nonTerminal_nonneg second, nonTerminal_nonneg third⟩

end Declarations

theorem terminal_lines {g : Grammar} {declarations : List TerminalDeclaration} {rules : List Rule}
    (all : List.Forall₂ (Declarations.Declares g.alphabet) declarations rules)
    (nonnegative : ∀ rule ∈ declarations, 0 ≤ rule.lhs) (sources : List RuleSource) :
    (List.zipWith g.ruleLine rules sources).map String.toList =
      (List.zipWith .rewritten declarations sources).map fun rule => (Line.terminalRule rule).text := by
  induction all generalizing sources with
  | nil => simp
  | cons declared others ih =>
    cases sources with
    | nil => simp
    | cons source sources =>
      rw [List.forall_mem_cons] at nonnegative
      simp only [List.zipWith_cons_cons, List.map_cons, ruleLine_terminal nonnegative.1 declared,
        ih nonnegative.2]

theorem binary_lines (g : Grammar) {declarations : List BinaryDeclaration}
    (nonnegative : ∀ rule ∈ declarations, 0 ≤ rule.lhs ∧ 0 ≤ rule.left ∧ 0 ≤ rule.right)
    (sources : List RuleSource) :
    (List.zipWith g.ruleLine (declarations.map fun rule =>
        ⟨rule.lhs.toNat, .binary rule.left.toNat rule.right.toNat⟩) sources).map String.toList =
      (List.zipWith .rewritten declarations sources).map fun rule => (Line.binaryRule rule).text := by
  induction declarations generalizing sources with
  | nil => simp
  | cons declaration declarations ih =>
    cases sources with
    | nil => simp
    | cons source sources =>
      rw [List.forall_mem_cons] at nonnegative
      obtain ⟨⟨lhs, left, right⟩, others⟩ := nonnegative
      simp only [List.map_cons, List.zipWith_cons_cons, ruleLine_binary lhs left right, ih others]

theorem toList_join (texts : List String) : (String.join (texts.map (· ++ "\n"))).toList =
    (texts.map String.toList).flatMap (· ++ ['\n']) := by
  have feed : "\n".toList = ['\n'] := rfl
  induction texts with
  | nil => rfl
  | cons text texts ih =>
    rw [List.map_cons, String.join_cons, String.toList_append, ih, String.toList_append, feed,
      List.map_cons, List.flatMap_cons]

theorem start_line {d : Declarations} {b : Declarations.Stages} (passes : d.Passes b) :
    (s!"start {b.start}").toList = (Line.start d.start).text := by
  have word : "start ".toList = ['s', 't', 'a', 'r', 't', ' '] := rfl
  have shape : s!"start {b.start}" = "start " ++ toString b.start := rfl
  rw [shape, String.toList_append, word, Declarations.nonTerminal_eq_ok passes.start,
    toString_toNat passes.nonnegative.start]
  rfl

theorem rule_lines {d : Declarations} {b : Declarations.Stages} (passes : d.Passes b) :
    ((List.range b.numbered.rules.size).map (b.grammar d.parameters).ruleText).map String.toList =
      ((d.rewritten b.values.sources.toList).terminalRules.toList.map Line.terminalRule ++
        (d.rewritten b.values.sources.toList).binaryRules.toList.map Line.binaryRule).map Line.text := by
  obtain ⟨terminal, binary, leaves, -, checked, sources⟩ := passes.sources
  obtain ⟨rules, numbered, all⟩ := passes.rules
  have nonnegative := passes.nonnegative
  have length : (terminal.map (·.source)).length = d.terminalRules.size := by
    rw [List.length_map, Declarations.checkAll_length leaves, Array.length_toList]
  have length' : rules.length = (terminal.map (·.source)).length := by
    rw [length, ← all.length_eq, Array.length_toList]
  obtain ⟨terminals, binaries⟩ := Declarations.rewritten_parts sources length
  have size : b.values.sources.size = b.numbered.rules.size := by
    rw [← Array.length_toList, sources, ← List.map_append, List.length_map, ← checked,
      passes.checked_length]
  have texts : (List.range b.numbered.rules.size).map (b.grammar d.parameters).ruleText =
      List.zipWith (b.grammar d.parameters).ruleLine b.numbered.rules.toList b.values.sources.toList :=
    Grammar.ruleText_eq size
  rw [texts, numbered, sources, List.zipWith_append length', List.map_append,
    terminal_lines all nonnegative.terminal, binary_lines _ nonnegative.binary, ← sources, terminals,
    binaries]
  simp

/-- A grammar is written as the declarations that it was made of. -/
theorem write_eq {d : Declarations} {g : Grammar} (built : d.grammar = .ok g) :
    write g = (d.rewritten g.values.sources.toList).text := by
  obtain ⟨b, passes, rfl⟩ := Declarations.grammar_eq_ok_iff.mp built
  have parameters : (b.grammar d.parameters).parameters = d.parameters :=
    (RuleValues.ofSources_eq_ok.mp passes.evaluated).1
  have texts : (d.parameters.entries.toList.map parameterText).map String.toList =
      (d.parameters.entries.toList.map parameterLine).map Line.text := by
    rw [List.map_map, List.map_map]
    exact List.map_congr_left fun p _ => toList_parameterText p
  have rules := rule_lines passes
  have all : (lines (b.grammar d.parameters)).map String.toList =
      (d.rewritten b.values.sources.toList).lines.map Line.text := by
    rw [lines, parameters]
    change ((s!"start {b.start}" :: _) ++
      (List.range b.numbered.rules.size).map (b.grammar d.parameters).ruleText).map String.toList = _
    rw [List.map_append, List.map_cons, start_line passes, texts, rules, List.cons_append, ← List.map_append]
    rfl
  apply String.toList_inj.mp
  rw [write, toList_join, Declarations.text, String.toList_ofList, all]
  rfl

end StochasticGrammar
