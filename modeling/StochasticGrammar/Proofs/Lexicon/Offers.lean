import StochasticGrammar.Proofs.Lexicon.Tokens

/-!
Literals offered to a lexicon one after the other. An offer makes the places that its literal lacks
while it goes along the literal, and may be refused on the way; nothing is left behind then, since the
places up to there are those of literals. So a lexicon after any offers is that of the literals that
were accepted, which are a prefix code.
-/

namespace StochasticGrammar

namespace Forest

/-- An insertion that makes missing places as it goes on, and the forest that it leaves. -/
def walk (literal : String) (number : Nat) :
    Forest → (first : Char) → (rest : List Char) → Except InsertFault Unit × Forest
  | nil, d, [] => (.ok (), tree d (some number) nil nil)
  | nil, d, e :: rest =>
    let (result, below) := walk literal number nil e rest
    (result, tree d none below nil)
  | tree c terminal below beside, d, rest =>
    if d = c then
      match rest with
      | [] =>
        if below.isEmpty then (.ok (), tree c (some number) below beside)
        else (.error (.startsLiteral literal), tree c terminal below beside)
      | e :: rest =>
        if terminal.isSome then (.error (.extendsLiteral literal), tree c terminal below beside)
        else
          let (result, below) := walk literal number below e rest
          (result, tree c terminal below beside)
    else
      let (result, beside) := walk literal number beside d rest
      (result, tree c terminal below beside)
termination_by f _ rest => sizeOf f + rest.length

variable {f : Forest} {literal : String} {n i : Nat} {d : Char} {rest : List Char}

theorem walk_nil : nil.walk literal n d rest = (.ok (), chain n d rest nil) := by
  induction rest generalizing d with
  | nil => rw [walk, chain]
  | cons e rest ih => rw [walk, ih, chain]

/-- A literal that is not there is inserted, or the forest stays as it was. -/
theorem walk_eq (absent : f.find? (d :: rest) = none) :
    f.walk literal n d rest =
      match f.insert n d rest with
      | .ok made => (.ok (), made)
      | .error .extendsLiteral => (.error (.extendsLiteral literal), f)
      | .error _ => (.error (.startsLiteral literal), f) := by
  fun_induction insert n f d rest with
  | case1 d rest => exact walk_nil
  | case2 below beside d i =>
    rw [find_end] at absent
    cases absent
  | case3 below beside d empty =>
    rw [walk, if_pos rfl]
    simp only [empty]
    rfl
  | case4 below beside d filled =>
    rw [walk, if_pos rfl]
    simp only [filled]
    rfl
  | case5 terminal below beside d e rest ended =>
    rw [walk, if_pos rfl]
    simp only [ended]
    rfl
  | case6 terminal below beside d e rest open' ih =>
    rw [find_below] at absent
    rw [walk, if_pos rfl]
    simp only [open', ih absent]
    cases below.insert n e rest with
    | ok made => rfl
    | error clash => cases clash <;> rfl
  | case7 c terminal below beside d rest other ih =>
    rw [find_beside other] at absent
    rw [walk.eq_def]
    simp only [if_neg other, ih absent]
    cases beside.insert n d rest with
    | ok made => rfl
    | error clash => cases clash <;> rfl

/-- A literal that is there is found again. -/
theorem Sound.insert_of_find (sound : f.Sound) (found : f.find? (d :: rest) = some i) :
    f.insert n d rest = .error (.present i) := by
  have outcome := insert_outcome sound n d rest
  have has : f.Has (d :: rest) := Option.isSome_iff_exists.mpr ⟨i, found⟩
  cases result : f.insert n d rest with
  | ok made =>
    rw [result] at outcome
    exact absurd (List.prefix_refl _) (outcome.2.1 _ has).1
  | error clash =>
    rw [result] at outcome
    cases clash with
    | present j => rw [Option.some.inj (found.symm.trans outcome)]
    | extendsLiteral =>
      rcases outcome with ⟨u, has', begins, other⟩
      exact absurd (sound.prefixFree has' has begins) other
    | startsLiteral =>
      rcases outcome with ⟨u, has', begins, other⟩
      exact absurd (sound.prefixFree has has' begins).symm other

end Forest

instance Comparable.decidable (literal other : String) : Decidable (Comparable literal other) :=
  inferInstanceAs (Decidable (_ ∨ _))

/-- The literals with these numbers make up the text. -/
def Spells (stored : List String) (numbers : List Nat) (text : String) : Prop :=
  ∃ literals : List String, numbers.map (stored[·]?) = literals.map some ∧ text = String.join literals

namespace Lexicon

/-- The answer to an offer, and the lexicon that it leaves. -/
def offer (lexicon : Lexicon) (literal : String) : Except InsertFault Insertion × Lexicon :=
  match literal.toList with
  | [] => (.error .empty, lexicon)
  | c :: rest =>
    match lexicon.forest.get? c rest with
    | some number => (.ok (.existing number), lexicon)
    | none =>
      match lexicon.forest.walk literal lexicon.size c rest with
      | (.ok (), forest) => (.ok (.added lexicon.size), ⟨forest, lexicon.size + 1⟩)
      | (.error fault, forest) => (.error fault, ⟨forest, lexicon.size⟩)

/-- The lexicon after offers, whatever the answers were. -/
def after (offers : List String) : Lexicon := offers.foldl (fun lexicon literal => (lexicon.offer literal).2) {}

/-- A literal is taken up at the end if it is not empty and neither begins another one nor begins with one. -/
def accept (stored : List String) (literal : String) : List String :=
  if literal ≠ "" ∧ ∀ other ∈ stored, ¬ Comparable other literal then stored ++ [literal] else stored

def accepted (offers : List String) : List String := offers.foldl accept []

/-- An offer inserts its literal, or leaves the lexicon as it was. -/
theorem offer_eq {lexicon : Lexicon} (sound : lexicon.forest.Sound) (literal : String) :
    lexicon.offer literal =
      match lexicon.insert literal with
      | .ok (insertion, next) => (.ok insertion, next)
      | .error fault => (.error fault, lexicon) := by
  unfold offer insert
  cases literal.toList with
  | nil => rfl
  | cons c rest =>
    simp only
    cases found : lexicon.forest.get? c rest with
    | some number => simp only [sound.insert_of_find found]
    | none =>
      have absent : lexicon.forest.find? (c :: rest) = none := found
      have outcome := Forest.insert_outcome sound lexicon.size c rest
      simp only [Forest.walk_eq absent]
      cases result : lexicon.forest.insert lexicon.size c rest with
      | ok forest => rfl
      | error clash =>
        cases clash with
        | extendsLiteral | startsLiteral => rfl
        | present i =>
          rw [result] at outcome
          cases absent.symm.trans outcome

/-- The lexicon has just these literals, under the numbers of their places. -/
def Holds (lexicon : Lexicon) (stored : List String) : Prop := Alphabet.Exact ⟨lexicon, stored.toArray⟩

/-- What an answer tells of the literal. -/
def Answer (stored : List String) (literal : String) : Except InsertFault Insertion → Prop
  | .ok (.added n) => n = stored.length ∧ literal ≠ "" ∧ ∀ other ∈ stored, ¬ Comparable other literal
  | .ok (.existing i) => stored[i]? = some literal
  | .error _ => literal = "" ∨ ∃ other ∈ stored, Comparable other literal ∧ other ≠ literal

section

variable {lexicon : Lexicon} {stored : List String} {literal text : String} {numbers : List Nat}

theorem Holds.find_iff (holds : lexicon.Holds stored) (i : Nat) (literal : String) :
    stored[i]? = some literal ↔ lexicon.forest.find? literal.toList = some i := by
  rw [← Alphabet.Exact.numbers holds, List.getElem?_toArray]

theorem Holds.filled (holds : lexicon.Holds stored) (member : literal ∈ stored) : literal ≠ "" := by
  rintro rfl
  rcases List.mem_iff_getElem?.mp member with ⟨i, found⟩
  cases (holds.find_iff i "").mp found

theorem Holds.answer (holds : lexicon.Holds stored) (literal : String) :
    Answer stored literal (lexicon.offer literal).1 ∧
      Holds (lexicon.offer literal).2 (accept stored literal) := by
  have sound : lexicon.forest.Sound := holds.sound
  rw [offer_eq sound]
  by_cases empty : literal = ""
  · subst empty
    refine ⟨.inl rfl, ?_⟩
    rw [accept, if_neg fun all => all.1 rfl]
    exact holds
  · have inserted := Alphabet.Exact.insert holds empty
    change Alphabet.Inserted _ literal (lexicon.insert literal) at inserted
    cases result : lexicon.insert literal with
    | error fault =>
      rw [result] at inserted
      rcases inserted with ⟨other, member, comparable, different⟩
      have member : other ∈ stored := List.mem_toArray.mp member
      refine ⟨.inr ⟨other, member, comparable, different⟩, ?_⟩
      rw [accept, if_neg fun all => all.2 other member comparable]
      exact holds
    | ok reply =>
      rcases reply with ⟨insertion, next⟩
      rw [result] at inserted
      cases insertion with
      | added n =>
        rcases inserted with ⟨rfl, exact', apart⟩
        have apart : ∀ other ∈ stored, ¬ Comparable other literal :=
          fun other member => apart other (List.mem_toArray.mpr member)
        refine ⟨⟨rfl, empty, apart⟩, ?_⟩
        rw [accept, if_pos ⟨empty, apart⟩, Holds, ← List.push_toArray]
        exact exact'
      | existing i =>
        rcases inserted with ⟨rfl, found⟩
        have found : stored[i]? = some literal := List.getElem?_toArray ▸ found
        refine ⟨found, ?_⟩
        rw [accept, if_neg fun all => all.2 literal (List.mem_of_getElem? found) (.inl (List.prefix_refl _))]
        exact holds

theorem holds_after (offers : List String) : (after offers).Holds (accepted offers) := by
  have run (lexicon : Lexicon) (stored : List String) (holds : lexicon.Holds stored) :
      Holds (offers.foldl (fun lexicon literal => (lexicon.offer literal).2) lexicon)
        (offers.foldl accept stored) := by
    induction offers generalizing lexicon stored with
    | nil => exact holds
    | cons literal offers ih => exact ih _ _ (holds.answer literal).2
  exact run {} [] Alphabet.exact_empty

theorem spells_nil : Spells stored [] text ↔ text = "" := by
  constructor
  · rintro ⟨literals, none, rfl⟩
    rw [List.map_eq_nil_iff.mp none.symm]
    rfl
  · rintro rfl
    exact ⟨[], rfl, rfl⟩

theorem spells_cons {n : Nat} : Spells stored (n :: numbers) text ↔
    ∃ literal tail, stored[n]? = some literal ∧ Spells stored numbers tail ∧ text = literal ++ tail := by
  constructor
  · rintro ⟨literals, found, rfl⟩
    cases literals with
    | nil => cases found
    | cons literal literals =>
      rcases List.cons.inj found with ⟨here, later⟩
      exact ⟨literal, _, here, ⟨literals, later, rfl⟩, String.join_cons⟩
  · rintro ⟨literal, tail, here, ⟨literals, later, rfl⟩, rfl⟩
    exact ⟨literal :: literals, by rw [List.map_cons, List.map_cons, here, later], String.join_cons.symm⟩

theorem Holds.spells_iff (holds : lexicon.Holds stored) :
    Spells stored numbers text ↔ lexicon.forest.Spells numbers text.toList := by
  induction numbers generalizing text with
  | nil =>
    rw [spells_nil, ← String.toList_eq_nil_iff]
    constructor
    · intro none
      rw [none]
      exact .nil
    · intro spells
      generalize text.toList = input at spells
      cases spells
      rfl
  | cons n numbers ih =>
    rw [spells_cons]
    constructor
    · rintro ⟨literal, tail, found, spells, rfl⟩
      rw [String.toList_append]
      exact .cons ((holds.find_iff n literal).mp found) (ih.mp spells)
    · intro spells
      generalize shape : text.toList = input at spells
      cases spells with
      | @cons n word numbers rest found spells =>
        refine ⟨String.ofList word, String.ofList rest, ?_, ?_, ?_⟩
        · rw [holds.find_iff, String.toList_ofList]
          exact found
        · rw [ih, String.toList_ofList]
          exact spells
        · apply String.toList_injective
          rw [shape, String.toList_append, String.toList_ofList, String.toList_ofList]

theorem Holds.get_iff (holds : lexicon.Holds stored) (i : Nat) (literal : String) :
    lexicon.get? literal = some i ↔ stored[i]? = some literal := by
  rw [holds.find_iff]
  unfold get?
  cases literal.toList <;> rfl

/-- No literal begins with another one, in whichever order they were stored. -/
theorem Holds.apart (holds : lexicon.Holds stored) :
    stored.Pairwise fun literal other => ¬ Comparable literal other := by
  rw [List.pairwise_iff_getElem]
  intro i j inside inside' order comparable
  have first := List.getElem?_eq_getElem inside
  have second := List.getElem?_eq_getElem inside'
  have same : stored[i] = stored[j] :=
    Alphabet.Exact.prefixFree holds (List.mem_toArray.mpr (List.getElem_mem inside))
      (List.mem_toArray.mpr (List.getElem_mem inside')) comparable
  rw [same, holds.find_iff] at first
  rw [holds.find_iff, first] at second
  exact Nat.ne_of_lt order (Option.some.inj second)

/-- What becomes of a text that is taken apart. -/
theorem Holds.tokenize (holds : lexicon.Holds stored) (text : String) :
    match lexicon.tokenize text with
    | .ok numbers => Spells stored numbers.toList text
    | .error place => (∀ numbers, ¬ Spells stored numbers text) ∧
        IsGreatest {n | ∃ numbers front back, text = front ++ back ∧ Spells stored numbers front ∧
          n = front.length} place := by
  have sound : lexicon.forest.Sound := holds.sound
  have split := sound.splits #[] 0 text.toList
  rw [Lexicon.tokenize]
  cases result : tokens lexicon.forest #[] 0 text.toList with
  | ok numbers =>
    rw [result] at split
    rcases split with ⟨numbers, spells, rfl⟩
    simpa [holds.spells_iff] using spells
  | error place =>
    rw [result] at split
    rcases split with ⟨front, back, numbers, shape, some, spells, rfl, longest⟩
    have length : front.length < text.toList.length := by
      rw [shape, List.length_append]
      exact Nat.lt_add_of_pos_right (List.length_pos_iff.mpr some)
    refine ⟨?_, ⟨numbers, String.ofList front, String.ofList back, ?_, ?_, ?_⟩, ?_⟩
    · intro numbers' whole
      have shorter := longest text.toList [] numbers' (List.append_nil _).symm (holds.spells_iff.mp whole)
      exact Nat.not_lt.mpr shorter length
    · apply String.toList_injective
      rw [shape, String.toList_append, String.toList_ofList, String.toList_ofList]
    · rw [holds.spells_iff, String.toList_ofList]
      exact spells
    · rw [Nat.zero_add, String.length_ofList]
    · rintro n ⟨numbers', front', back', rfl, spells', rfl⟩
      rw [Nat.zero_add, ← String.length_toList]
      exact longest _ _ numbers' String.toList_append (holds.spells_iff.mp spells')

/-- Answers of different kinds are never true of one literal. -/
theorem Holds.answers_agree (holds : lexicon.Holds stored) {first second : Except InsertFault Insertion}
    (fits : Answer stored literal first) (fits' : Answer stored literal second) :
    first = second ∨ (∃ fault, first = .error fault) ∧ ∃ fault, second = .error fault := by
  have new {n i : Nat} (added : Answer stored literal (.ok (.added n)))
      (existing : stored[i]? = some literal) : False :=
    added.2.2 literal (List.mem_of_getElem? existing) (.inl (List.prefix_refl _))
  have allowed {n : Nat} {fault : InsertFault} (added : Answer stored literal (.ok (.added n)))
      (refused : Answer stored literal (.error fault)) : False := by
    rcases refused with empty | ⟨other, member, comparable, -⟩
    · exact added.2.1 empty
    · exact added.2.2 other member comparable
  have present {i : Nat} {fault : InsertFault} (existing : stored[i]? = some literal)
      (refused : Answer stored literal (.error fault)) : False := by
    have member := List.mem_of_getElem? existing
    rcases refused with empty | ⟨other, member', comparable, different⟩
    · exact holds.filled member empty
    · exact different (Alphabet.Exact.prefixFree holds (List.mem_toArray.mpr member')
        (List.mem_toArray.mpr member) comparable)
  rcases first with fault | n | i <;> rcases second with fault' | n' | i'
  · exact .inr ⟨⟨fault, rfl⟩, fault', rfl⟩
  · exact (allowed fits' fits).elim
  · exact (present fits' fits).elim
  · exact (allowed fits fits').elim
  · exact .inl (by rw [fits.1, fits'.1])
  · exact (new fits fits').elim
  · exact (present fits fits').elim
  · exact (new fits' fits).elim
  · have found := (holds.find_iff i literal).mp fits
    rw [(holds.find_iff i' literal).mp fits', Option.some.injEq] at found
    exact .inl (by rw [found])

theorem Holds.spells_unique (holds : lexicon.Holds stored) {numbers' : List Nat}
    (spells : Spells stored numbers text) (spells' : Spells stored numbers' text) : numbers = numbers' :=
  Forest.Sound.spells_unique holds.sound (holds.spells_iff.mp spells) (holds.spells_iff.mp spells')

end

/-- The lexicon answers as the list of its literals tells, which are a prefix code. -/
structure Serves (lexicon : Lexicon) (stored : List String) : Prop where
  filled : ∀ literal ∈ stored, literal ≠ ""
  apart : stored.Pairwise fun literal other => ¬ Comparable literal other
  size : lexicon.size = stored.length
  get : ∀ literal i, lexicon.get? literal = some i ↔ stored[i]? = some literal
  added : ∀ literal n, (lexicon.offer literal).1 = .ok (.added n) ↔
    n = stored.length ∧ literal ≠ "" ∧ ∀ other ∈ stored, ¬ Comparable other literal
  existing : ∀ literal i, (lexicon.offer literal).1 = .ok (.existing i) ↔ stored[i]? = some literal
  refused : ∀ literal, (∃ fault, (lexicon.offer literal).1 = .error fault) ↔
    literal = "" ∨ ∃ other ∈ stored, Comparable other literal ∧ other ≠ literal
  tokens : ∀ text numbers, lexicon.tokenize text = .ok numbers ↔ Spells stored numbers.toList text
  unique : ∀ text numbers numbers', Spells stored numbers text → Spells stored numbers' text → numbers = numbers'
  stuck : ∀ text place, lexicon.tokenize text = .error place ↔
    (∀ numbers, ¬ Spells stored numbers text) ∧
      IsGreatest {n | ∃ numbers front back, text = front ++ back ∧ Spells stored numbers front ∧
        n = front.length} place

theorem Holds.serves {lexicon : Lexicon} {stored : List String} (holds : lexicon.Holds stored) :
    lexicon.Serves stored := by
  have answer (literal : String) := (holds.answer literal).1
  have told {literal : String} {insertion : Insertion} :
      (lexicon.offer literal).1 = .ok insertion ↔ Answer stored literal (.ok insertion) := by
    constructor
    · intro given
      exact given ▸ answer literal
    · intro fits
      rcases holds.answers_agree (answer literal) fits with same | ⟨-, fault, refused⟩
      · exact same
      · cases refused
  refine ⟨fun _ => holds.filled, holds.apart, (Alphabet.Exact.size holds).symm,
    fun literal i => holds.get_iff i literal, fun _ _ => told, fun _ _ => told, ?_, ?_,
    fun _ _ _ => holds.spells_unique, ?_⟩
  · intro literal
    constructor
    · rintro ⟨fault, given⟩
      have fits := answer literal
      rwa [given] at fits
    · intro clashes
      have fits : Answer stored literal (.error .empty) := clashes
      rcases holds.answers_agree (answer literal) fits with same | ⟨refused, -⟩
      · exact ⟨.empty, same⟩
      · exact refused
  · intro text numbers
    have split := holds.tokenize text
    constructor
    · intro given
      rwa [given] at split
    · intro spells
      cases result : lexicon.tokenize text with
      | ok numbers' =>
        rw [result] at split
        rw [Array.toList_inj.mp (holds.spells_unique spells split)]
      | error place =>
        rw [result] at split
        exact absurd spells (split.1 _)
  · intro text place
    have split := holds.tokenize text
    constructor
    · intro given
      rwa [given] at split
    · rintro ⟨none, longest⟩
      cases result : lexicon.tokenize text with
      | ok numbers =>
        rw [result] at split
        exact absurd split (none _)
      | error place' =>
        rw [result] at split
        rw [longest.unique split.2]

theorem after_append (offers later : List String) :
    after (offers ++ later) = later.foldl (fun lexicon literal => (lexicon.offer literal).2) (after offers) :=
  List.foldl_append

/-- After any offers, accepted or not, the lexicon serves the literals that were accepted, in the order
of their acceptance. An offer is an insertion, and one that is refused could as well not have been made. -/
theorem offers_served (offers : List String) :
    (after offers).Serves (accepted offers) ∧
      (∀ literal, (after offers).offer literal =
        match (after offers).insert literal with
        | .ok (insertion, next) => (.ok insertion, next)
        | .error fault => (.error fault, after offers)) ∧
      ∀ literal fault, ((after offers).offer literal).1 = .error fault →
        ∀ later, after (offers ++ literal :: later) = after (offers ++ later) := by
  have holds := holds_after offers
  have sound : (after offers).forest.Sound := holds.sound
  have offered := offer_eq sound
  refine ⟨holds.serves, offered, ?_⟩
  intro literal fault refused later
  have left : ((after offers).offer literal).2 = after offers := by
    rw [offered] at refused ⊢
    cases result : (after offers).insert literal with
    | ok reply =>
      rw [result] at refused
      cases refused
    | error fault => rfl
  rw [after_append, after_append, List.foldl_cons, left]

end Lexicon

end StochasticGrammar
