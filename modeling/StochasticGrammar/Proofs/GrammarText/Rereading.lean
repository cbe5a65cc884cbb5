import StochasticGrammar.Proofs.Grammar.Registry
import StochasticGrammar.Proofs.GrammarText.Contents

/-!
Declarations as a text. Their lines are the start symbol, the parameters and the rules, terminal rules
first; declarations whose lines can be printed and whose parameters are valid are read back from them.
-/

namespace StochasticGrammar

open GrammarText

/-- Parameters that could have been added one after the other. -/
structure Parameters.Sound (ps : Parameters) : Prop where
  named : ∀ p ∈ ps.entries, Formula.IsName p.name
  distinct : (ps.entries.toList.map (·.name)).Nodup
  bounds : ∀ p ∈ ps.entries, validBounds p.lower p.upper = true
  inside : ∀ p ∈ ps.entries, inBounds p.value p.lower p.upper = true

theorem Parameters.Sound.coherent {ps : Parameters} (sound : ps.Sound) : ps.Coherent :=
  ⟨sound.distinct, sound.bounds, sound.inside⟩

theorem Parameters.Coherent.sound {ps : Parameters} (coherent : ps.Coherent)
    (named : ∀ p ∈ ps.entries, Formula.IsName p.name) : ps.Sound :=
  ⟨named, coherent.distinct, coherent.bounds, coherent.inside⟩

def parameterLine (p : Parameter) : Line := .parameter p.name p.value (some (p.lower, p.upper))

namespace Declarations

def lines (d : Declarations) : List Line :=
  .start d.start :: (d.parameters.entries.toList.map parameterLine ++
    (d.terminalRules.toList.map .terminalRule ++ d.binaryRules.toList.map .binaryRule))

def text (d : Declarations) : String :=
  String.ofList ((d.lines.map Line.text).flatMap (· ++ ['\n']))

/-- Declarations that read back from their text. -/
structure Printable (d : Declarations) : Prop where
  start : Fits d.start
  parameters : d.parameters.Sound
  terminal : ∀ rule ∈ d.terminalRules, (Line.terminalRule rule).Printable
  binary : ∀ rule ∈ d.binaryRules, (Line.binaryRule rule).Printable

end Declarations

theorem inBounds_isFinite {value lower upper : Float} (inside : Parameters.inBounds value lower upper = true) :
    value.isFinite = true := by
  simp only [Parameters.inBounds, Bool.and_eq_true] at inside
  exact inside.1.1

theorem validBounds_isFinite {lower upper : Float} (valid : Parameters.validBounds lower upper = true) :
    lower.isFinite = true ∧ upper.isFinite = true := by
  simp only [Parameters.validBounds, Bool.and_eq_true] at valid
  exact ⟨valid.1.2, valid.2⟩

theorem Parameters.Sound.printable {ps : Parameters} (sound : ps.Sound) {p : Parameter}
    (member : p ∈ ps.entries) : (parameterLine p).Printable := by
  refine ⟨sound.named p member, inBounds_isFinite (sound.inside p member), ?_⟩
  intro b same
  cases same
  exact validBounds_isFinite (sound.bounds p member)

namespace GrammarText

variable {number : Nat} {progress : Progress} {rest : List (List Char)}

theorem readLines_cons {line : Line} {next : Progress} (printable : line.Printable)
    (declared : line.declare number progress = .ok next) :
    readLines number progress (line.text :: rest) = readLines (number + 1) next rest := by
  rw [readLines, readLine_text printable, declared]

theorem readLines_parameters {entries : List Parameter} {d : Declarations} {line : Option Nat}
    (printable : ∀ p ∈ entries, (parameterLine p).Printable)
    (bounds : ∀ p ∈ entries, Parameters.validBounds p.lower p.upper = true)
    (inside : ∀ p ∈ entries, Parameters.inBounds p.value p.lower p.upper = true)
    (distinct : ((d.parameters.entries.toList ++ entries).map (·.name)).Nodup) :
    readLines number ⟨d, line⟩ (entries.map (fun p => (parameterLine p).text) ++ rest) =
      readLines (number + entries.length) ⟨{ d with parameters :=
        ⟨d.parameters.entries ++ entries.toArray, d.parameters.epoch + entries.length⟩ }, line⟩ rest := by
  induction entries generalizing number d with
  | nil => simp
  | cons p entries ih =>
    have new : (d.parameters.id? p.name).isSome = false := by
      rw [Option.isSome_eq_false_iff, Option.isNone_iff_eq_none, Parameters.id_eq_none]
      intro old
      rw [List.map_append, List.nodup_append] at distinct
      exact distinct.2.2 _ old _ List.mem_cons_self rfl
    have declared : (parameterLine p).declare number ⟨d, line⟩ = .ok ⟨{ d with parameters :=
        ⟨d.parameters.entries.push p, d.parameters.epoch + 1⟩ }, line⟩ := by
      simp [parameterLine, Line.declare, Parameters.add, new, bounds p List.mem_cons_self,
        inside p List.mem_cons_self]
    rw [List.map_cons, List.cons_append, readLines_cons (printable p List.mem_cons_self) declared,
      ih (fun q member => printable q (List.mem_cons_of_mem p member))
        (fun q member => bounds q (List.mem_cons_of_mem p member))
        (fun q member => inside q (List.mem_cons_of_mem p member))
        (by simpa using distinct)]
    simp [Nat.add_assoc, Nat.add_comm 1]

theorem readLines_terminal {rules : List TerminalDeclaration} {d : Declarations} {line : Option Nat}
    (printable : ∀ rule ∈ rules, (Line.terminalRule rule).Printable) :
    readLines number ⟨d, line⟩ (rules.map (fun rule => (Line.terminalRule rule).text) ++ rest) =
      readLines (number + rules.length)
        ⟨{ d with terminalRules := d.terminalRules ++ rules.toArray }, line⟩ rest := by
  induction rules generalizing number d with
  | nil => simp
  | cons rule rules ih =>
    have declared : (Line.terminalRule rule).declare number ⟨d, line⟩ =
        .ok ⟨{ d with terminalRules := d.terminalRules.push rule }, line⟩ := rfl
    rw [List.map_cons, List.cons_append, readLines_cons (printable rule List.mem_cons_self) declared,
      ih fun other member => printable other (List.mem_cons_of_mem rule member)]
    simp [Nat.add_assoc, Nat.add_comm 1]

theorem readLines_binary {rules : List BinaryDeclaration} {d : Declarations} {line : Option Nat}
    (printable : ∀ rule ∈ rules, (Line.binaryRule rule).Printable) :
    readLines number ⟨d, line⟩ (rules.map (fun rule => (Line.binaryRule rule).text) ++ rest) =
      readLines (number + rules.length)
        ⟨{ d with binaryRules := d.binaryRules ++ rules.toArray }, line⟩ rest := by
  induction rules generalizing number d with
  | nil => simp
  | cons rule rules ih =>
    have declared : (Line.binaryRule rule).declare number ⟨d, line⟩ =
        .ok ⟨{ d with binaryRules := d.binaryRules.push rule }, line⟩ := rfl
    rw [List.map_cons, List.cons_append, readLines_cons (printable rule List.mem_cons_self) declared,
      ih fun other member => printable other (List.mem_cons_of_mem rule member)]
    simp [Nat.add_assoc, Nat.add_comm 1]

theorem printable_lines {d : Declarations} (printable : d.Printable) :
    ∀ line ∈ d.lines, line.Printable := by
  intro line member
  simp only [Declarations.lines, List.mem_cons, List.mem_append, List.mem_map] at member
  rcases member with rfl | ⟨p, inside, rfl⟩ | ⟨rule, inside, rfl⟩ | ⟨rule, inside, rfl⟩
  · exact printable.start
  · exact printable.parameters.printable (Array.mem_toList_iff.mp inside)
  · exact printable.terminal rule (Array.mem_toList_iff.mp inside)
  · exact printable.binary rule (Array.mem_toList_iff.mp inside)

/-- Declarations read back from their text. -/
theorem read_text {d : Declarations} (printable : d.Printable) :
    read d.text = .ok { d with parameters := ⟨d.parameters.entries, d.parameters.entries.size⟩ } := by
  have all := printable_lines printable
  have single : ∀ line ∈ d.lines.map Line.text, '\n' ∉ line := by
    intro text member
    obtain ⟨line, inside, rfl⟩ := List.mem_map.mp member
    exact (whole_text (all line inside)).single
  have declared : (Line.start d.start).declare 1 {} = .ok ⟨{ start := d.start }, some 1⟩ := rfl
  have lines : d.lines.map Line.text = (Line.start d.start).text ::
      (d.parameters.entries.toList.map (fun p => (parameterLine p).text) ++
        (d.terminalRules.toList.map (fun rule => (Line.terminalRule rule).text) ++
          (d.binaryRules.toList.map (fun rule => (Line.binaryRule rule).text) ++ []))) := by
    simp [Declarations.lines, Function.comp_def]
  have sound := printable.parameters
  have first : (Line.start d.start).Printable := printable.start
  have parts : readLines 1 {} (d.lines.map Line.text) =
      .ok ⟨{ d with parameters := ⟨d.parameters.entries, d.parameters.entries.size⟩ }, some 1⟩ := by
    rw [lines, readLines_cons first declared,
      readLines_parameters (fun p member => sound.printable (Array.mem_toList_iff.mp member))
        (fun p member => sound.bounds p (Array.mem_toList_iff.mp member))
        (fun p member => sound.inside p (Array.mem_toList_iff.mp member))
        (by simpa [Parameters.empty] using sound.distinct),
      readLines_terminal fun rule member => printable.terminal rule (Array.mem_toList_iff.mp member),
      readLines_binary fun rule member => printable.binary rule (Array.mem_toList_iff.mp member)]
    simp [readLines, Parameters.empty]
  rw [read, Declarations.text, String.toList_ofList, splitLines_join single, parts]
  rfl

end GrammarText

end StochasticGrammar
