import StochasticGrammar.Proofs.Grammar.Numbering

/-!
What is checked of each declaration apart from the others. A check succeeds just under its condition,
with a result that is described, and otherwise fails with an error in the declarations. So does a
sequence of checks.
-/

namespace StochasticGrammar

namespace Formula

inductive Mentions : Formula → String → Prop where
  | parameter {name} : Mentions (.parameter name) name
  | negate {inner name} (inside : Mentions inner name) : Mentions (.negate inner) name
  | left {op left right name} (inside : Mentions left name) : Mentions (.binary op left right) name
  | right {op left right name} (inside : Mentions right name) : Mentions (.binary op left right) name

theorem mem_insertName {name other : String} {names : List String} :
    other ∈ insertName name names ↔ other = name ∨ other ∈ names := by
  induction names with
  | nil => simp [insertName]
  | cons first rest ih =>
    rw [insertName]
    split
    · simp
    · split
      · rename_i same
        simp [same]
      · rw [List.mem_cons, ih, List.mem_cons]
        tauto

theorem mem_collect {f : Formula} {name : String} {names : List String} :
    name ∈ f.collect names ↔ f.Mentions name ∨ name ∈ names := by
  induction f generalizing names with
  | constant value =>
    refine ⟨.inr, ?_⟩
    rintro (mentions | old)
    · cases mentions
    · exact old
  | parameter other =>
    rw [collect, mem_insertName]
    constructor
    · rintro (rfl | old)
      · exact .inl .parameter
      · exact .inr old
    · rintro (mentions | old)
      · cases mentions
        exact .inl rfl
      · exact .inr old
  | negate inner ih =>
    rw [collect, ih]
    constructor
    · exact Or.imp_left .negate
    · rintro (mentions | old)
      · cases mentions with
        | negate inside => exact .inl inside
      · exact .inr old
  | binary op left right ihLeft ihRight =>
    rw [collect, ihRight, ihLeft]
    constructor
    · rintro (inside | inside | old)
      · exact .inl (.right inside)
      · exact .inl (.left inside)
      · exact .inr old
    · rintro (mentions | old)
      · cases mentions with
        | left inside => exact .inr (.inl inside)
        | right inside => exact .inl inside
      · exact .inr (.inr old)

theorem mem_names {f : Formula} {name : String} : name ∈ f.names ↔ f.Mentions name := by
  rw [names, mem_collect]
  simp

end Formula

theorem Text.trimChars_isEmpty {text : List Char} :
    (trimChars text).isEmpty = true ↔ ∀ c ∈ text, isBlank c = true := by
  rw [List.isEmpty_iff, trimChars, dropTrailing, List.reverse_eq_nil_iff, List.dropWhile_eq_nil_iff]
  constructor
  · intro blank
    have none : text.dropWhile isBlank = [] := by
      by_contra some
      have first := List.head_dropWhile_not isBlank some
      have member := List.head_mem some
      rw [blank _ (List.mem_reverse.mpr member)] at first
      cases first
    exact List.dropWhile_eq_nil_iff.mp none
  · intro blank c member
    exact blank c ((List.dropWhile_suffix isBlank).subset (List.mem_reverse.mp member))

def Parameters.Registered (ps : Parameters) (name : String) : Prop := ∃ p ∈ ps.entries, p.name = name

theorem Parameters.id_isNone {ps : Parameters} {name : String} :
    (ps.id? name).isNone = true ↔ ¬ ps.Registered name := by
  rw [id?, Option.isNone_iff_eq_none, Array.findIdx?_eq_none_iff]
  simp [Registered]

namespace Declarations

/-- The declarations are answered under the condition, with a result as described, and otherwise with
an error in them. -/
def Answers {α : Type} (condition : Prop) (describes : α → Prop) : Except Error α → Prop
  | .ok result => condition ∧ describes result
  | .error fault => ¬ condition ∧ ∃ label cause, fault = .definition label cause

section

variable {α β : Type} {condition condition' : Prop} {describes : α → Prop} {describes' : β → Prop}
  {x : Except Error α}

theorem Answers.bind {next : α → Except Error β} (first : Answers condition describes x)
    (second : ∀ a, condition → describes a → Answers condition' describes' (next a)) :
    Answers (condition ∧ condition') describes' (x >>= next) := by
  cases x with
  | error fault => exact ⟨fun both => first.1 both.1, first.2⟩
  | ok a =>
    have second := second a first.1 first.2
    change Answers _ _ (next a)
    cases result : next a with
    | ok b =>
      rw [result] at second
      exact ⟨⟨first.1, second.1⟩, second.2⟩
    | error fault =>
      rw [result] at second
      exact ⟨fun both => second.1 both.2, second.2⟩

theorem Answers.map {f : α → β} (first : Answers condition describes x)
    (implies : ∀ a, describes a → describes' (f a)) :
    Answers condition describes' (x >>= fun a => pure (f a)) := by
  cases x with
  | ok a => exact ⟨first.1, implies a first.2⟩
  | error fault => exact first

theorem Answers.imp {describes' : α → Prop} (answers : Answers condition describes x)
    (same : condition ↔ condition') (implies : ∀ a, describes a → describes' a) :
    Answers condition' describes' x := by
  cases x with
  | ok a => exact ⟨same.mp answers.1, implies a answers.2⟩
  | error fault => exact ⟨mt same.mpr answers.1, answers.2⟩

end

/-- The formula may be left out or blank; else it is an expression over registered names. -/
def Formulated (ps : Parameters) (formula : Option String) : Prop :=
  ∀ text ∈ formula, (∀ c ∈ text.toList, Text.isBlank c = true) ∨
    ∃ f, Formula.parse text = .ok f ∧ ∀ name, f.Mentions name → ps.Registered name

/-- What the formula of a rule stands for. -/
inductive Stands (ps : Parameters) : Option String → RuleSource → Prop where
  | absent : Stands ps none .certain
  | blank {text : String} (blank : ∀ c ∈ text.toList, Text.isBlank c = true) :
      Stands ps (some text) .certain
  | formula {text : String} {f : Formula} (inked : ¬ ∀ c ∈ text.toList, Text.isBlank c = true)
      (read : Formula.parse text = .ok f) (registered : ∀ name, f.Mentions name → ps.Registered name) :
      Stands ps (some text) (.formula f)

section

variable {ps : Parameters}

theorem nonTerminal_answers (label : DeclarationLabel) (index : Int) :
    Answers (0 ≤ index) (· = index.toNat) (nonTerminal label index) := by
  unfold nonTerminal
  split
  · rename_i sign
    exact ⟨sign, rfl⟩
  · rename_i negative
    exact ⟨negative, _, _, rfl⟩

theorem source_answers (label : DeclarationLabel) (text : Option String) :
    Answers (Formulated ps text) (Stands ps text) (source ps label text) := by
  cases text with
  | none => exact ⟨fun _ same => (nomatch same), .absent⟩
  | some text =>
    have formulated : Formulated ps (some text) ↔ (∀ c ∈ text.toList, Text.isBlank c = true) ∨
        ∃ f, Formula.parse text = .ok f ∧ ∀ name, f.Mentions name → ps.Registered name := by
      simp [Formulated]
    rw [formulated]
    unfold source
    simp only
    split
    · rename_i blank
      rw [Text.trimChars_isEmpty] at blank
      exact ⟨.inl blank, .blank blank⟩
    · rename_i inked
      rw [Text.trimChars_isEmpty] at inked
      split
      · rename_i fault unread
        refine ⟨?_, _, _, rfl⟩
        rintro (blank | ⟨f, read, -⟩)
        · exact inked blank
        · simp [unread] at read
      · rename_i f read
        split
        · rename_i name missing
          refine ⟨?_, _, _, rfl⟩
          rintro (blank | ⟨f', read', registered⟩)
          · exact inked blank
          · rw [read] at read'
            cases read'
            have mentions := Formula.mem_names.mp (List.mem_of_find?_eq_some missing)
            have unknown : (ps.id? name).isNone = true :=
              List.find?_some (p := fun name => (ps.id? name).isNone) missing
            exact Parameters.id_isNone.mp unknown (registered name mentions)
        · rename_i none
          have registered (name : String) (mentions : f.Mentions name) : ps.Registered name := by
            have known := List.find?_eq_none.mp none name (Formula.mem_names.mpr mentions)
            exact Classical.not_not.mp (mt Parameters.id_isNone.mpr known)
          exact ⟨.inr ⟨f, read, registered⟩, .formula inked read registered⟩

/-- The end of every check. -/
theorem sourced_answers (label : DeclarationLabel) (text : Option String) (mentioned : List Nat) :
    Answers (Formulated ps text)
      (fun checked : Checked => checked.mentioned = mentioned ∧ Stands ps text checked.source)
      (source ps label text >>= fun s => pure ⟨mentioned, s⟩) :=
  (source_answers label text).map fun _ stands => ⟨rfl, stands⟩

/-- What is kept of a terminal rule. -/
def KeepsTerminal (ps : Parameters) (rule : TerminalDeclaration) (checked : Checked) : Prop :=
  checked.mentioned = [rule.lhs.toNat] ∧ Stands ps rule.formula checked.source

def KeepsBinary (ps : Parameters) (rule : BinaryDeclaration) (checked : Checked) : Prop :=
  checked.mentioned = [rule.lhs.toNat, rule.left.toNat, rule.right.toNat] ∧
    Stands ps rule.formula checked.source

theorem checkTerminal_answers (number : Nat) (rule : TerminalDeclaration) :
    Answers (0 ≤ rule.lhs ∧ rule.literal ≠ "" ∧ Formulated ps rule.formula) (KeepsTerminal ps rule)
      (checkTerminal ps number rule) := by
  refine (nonTerminal_answers (rule.label number) rule.lhs).bind fun lhs _ same => ?_
  subst same
  by_cases empty : rule.literal = ""
  · rw [if_pos (by simpa using empty)]
    exact ⟨fun both => both.1 empty, _, _, rfl⟩
  · rw [if_neg (by simpa using empty)]
    exact (sourced_answers _ _ _).imp (and_iff_right empty).symm fun _ kept => kept

theorem checkBinary_answers (number : Nat) (rule : BinaryDeclaration) :
    Answers (0 ≤ rule.lhs ∧ 0 ≤ rule.left ∧ 0 ≤ rule.right ∧ Formulated ps rule.formula)
      (KeepsBinary ps rule) (checkBinary ps number rule) := by
  refine (nonTerminal_answers _ rule.lhs).bind fun lhs _ same => ?_
  refine (nonTerminal_answers _ rule.left).bind fun left _ same' => ?_
  refine (nonTerminal_answers _ rule.right).bind fun right _ same'' => ?_
  subst same same' same''
  exact sourced_answers _ _ _

theorem checkAll_answers {α β : Type} {check : Nat → α → Except Error β} {proper : α → Prop}
    {keeps : α → β → Prop} (each : ∀ number item, Answers (proper item) (keeps item) (check number item))
    (number : Nat) (items : List α) :
    Answers (∀ item ∈ items, proper item) (List.Forall₂ keeps items) (checkAll check number items) := by
  induction items generalizing number with
  | nil => exact ⟨fun _ inside => (nomatch inside), .nil⟩
  | cons item items ih =>
    have rest (result : β) (here : keeps item result) :
        Answers (∀ other ∈ items, proper other) (List.Forall₂ keeps (item :: items))
          (checkAll check (number + 1) items >>= fun results => pure (result :: results)) :=
      (ih (number + 1)).map fun _ later => .cons here later
    have answers := (each number item).bind fun result _ here => rest result here
    exact answers.imp List.forall_mem_cons.symm fun _ kept => kept

end

end Declarations

end StochasticGrammar
