import StochasticGrammar.Lexicon

/-!
What an insertion does to a forest of literals. In a sound forest a literal ends just where nothing
goes on below, so that no literal begins with another one. Then an insertion fails for a literal of
the forest or one that is a beginning or a continuation of such a literal, and for no other.
-/

namespace StochasticGrammar.Forest

variable {f made below beside : Forest} {terminal : Option Nat} {n i : Nat} {c d e : Char}
  {word rest u : List Char}

/-- The number of a literal. -/
def find? (f : Forest) : List Char → Option Nat
  | [] => none
  | c :: rest => f.get? c rest

def Has (f : Forest) (word : List Char) : Prop := (f.find? word).isSome = true

def Sound : Forest → Prop
  | nil => True
  | tree _ terminal below beside => (terminal = none ↔ below ≠ nil) ∧ below.Sound ∧ beside.Sound

theorem find_end : (tree c terminal below beside).find? [c] = terminal := by
  simp [find?, get?]

theorem find_below :
    (tree c terminal below beside).find? (c :: e :: rest) = below.find? (e :: rest) := by
  simp [find?, get?]

theorem find_beside (other : d ≠ c) :
    (tree c terminal below beside).find? (d :: rest) = beside.find? (d :: rest) := by
  cases rest <;> simp [find?, get?, other]

theorem not_has_nil : ¬ f.Has [] := by
  intro has
  cases has

theorem not_nil_has : ¬ nil.Has u := by
  cases u <;> simp [Has, find?, get?]

/-- A literal of a tree ends with the first character, goes on below it or begins with another one. -/
theorem Has.cases (has : (tree c terminal below beside).Has u) :
    u = [c] ∧ terminal.isSome = true ∨ (∃ e rest, u = c :: e :: rest ∧ below.Has (e :: rest)) ∨
      ∃ d rest, d ≠ c ∧ u = d :: rest ∧ beside.Has (d :: rest) := by
  unfold Has at has ⊢
  cases u with
  | nil => cases has
  | cons d rest =>
    by_cases same : d = c
    · subst same
      cases rest with
      | nil =>
        rw [find_end] at has
        exact .inl ⟨rfl, has⟩
      | cons e rest =>
        rw [find_below] at has
        exact .inr (.inl ⟨e, rest, rfl, has⟩)
    · rw [find_beside same] at has
      exact .inr (.inr ⟨d, rest, same, rfl, has⟩)

theorem Has.under (has : below.Has (e :: rest)) : (tree c terminal below beside).Has (c :: e :: rest) := by
  unfold Has
  rw [find_below]
  exact has

theorem Has.next (has : beside.Has (d :: rest)) (other : d ≠ c) :
    (tree c terminal below beside).Has (d :: rest) := by
  unfold Has
  rw [find_beside other]
  exact has

/-- A forest that is not empty has a literal. -/
theorem Sound.has_some (sound : f.Sound) (some : f ≠ nil) : ∃ e rest, f.Has (e :: rest) := by
  induction f with
  | nil => exact absurd rfl some
  | tree c terminal below beside ihBelow ihBeside =>
    rcases sound with ⟨ends, under, next⟩
    cases terminal with
    | some i =>
      refine ⟨c, [], ?_⟩
      rw [Has, find_end]
      rfl
    | none =>
      rcases ihBelow under (ends.mp rfl) with ⟨e, rest, has⟩
      exact ⟨c, e :: rest, has.under⟩

/-- No literal of a sound forest begins with another one. -/
theorem Sound.prefixFree (sound : f.Sound) {v : List Char} (has : f.Has u) (has' : f.Has v)
    (begins : u <+: v) : u = v := by
  induction f generalizing u v with
  | nil => exact absurd has not_nil_has
  | tree c terminal below beside ihBelow ihBeside =>
    rcases sound with ⟨ends, under, next⟩
    have single (ending : terminal.isSome = true) : below = nil := by
      cases terminal with
      | none => cases ending
      | some i => exact Decidable.not_not.mp fun filled => nomatch ends.mpr filled
    rcases has.cases with ⟨rfl, ending⟩ | ⟨e, rest, rfl, inside⟩ | ⟨d, rest, other, rfl, inside⟩
    · rcases has'.cases with ⟨rfl, -⟩ | ⟨e, rest, rfl, inside'⟩ | ⟨d, rest, other, rfl, -⟩
      · rfl
      · rw [single ending] at inside'
        exact absurd inside' not_nil_has
      · exact absurd (List.cons_prefix_cons.mp begins).1.symm other
    · rcases has'.cases with ⟨rfl, -⟩ | ⟨e', rest', rfl, inside'⟩ | ⟨d, rest', other, rfl, -⟩
      · cases List.prefix_nil.mp (List.cons_prefix_cons.mp begins).2
      · rw [ihBelow under inside inside' (List.cons_prefix_cons.mp begins).2]
      · exact absurd (List.cons_prefix_cons.mp begins).1.symm other
    · rcases has'.cases with ⟨rfl, -⟩ | ⟨e, rest', rfl, -⟩ | ⟨d', rest', -, rfl, inside'⟩
      · exact absurd (List.cons_prefix_cons.mp begins).1 other
      · exact absurd (List.cons_prefix_cons.mp begins).1 other
      · exact ihBeside next inside inside' begins

theorem sound_chain : (chain n d rest nil).Sound := by
  induction rest generalizing d with
  | nil => exact ⟨by simp, trivial, trivial⟩
  | cons e rest ih =>
    refine ⟨iff_of_true rfl ?_, ih, trivial⟩
    cases rest <;> exact fun same => nomatch same

theorem find_chain : (chain n d rest nil).find? u = if u = d :: rest then some n else none := by
  induction rest generalizing d u with
  | nil =>
    cases u with
    | nil => rfl
    | cons c word =>
      by_cases same : c = d
      · subst same
        cases word <;> simp [chain, find?, get?]
      · cases word <;> simp [chain, find?, get?, same]
  | cons e rest ih =>
    cases u with
    | nil => rfl
    | cons c word =>
      rw [chain]
      by_cases same : c = d
      · subst same
        cases word with
        | nil => simp [find_end]
        | cons e' word =>
          rw [find_below, ih]
          simp
      · rw [find_beside same]
        simp [same, find?, get?]

/-- What the result of an insertion says. -/
def Outcome (f : Forest) (n : Nat) (word : List Char) : Except Clash Forest → Prop
  | .ok made => made.Sound ∧ (∀ u, f.Has u → ¬ u <+: word ∧ ¬ word <+: u) ∧
      ∀ u, made.find? u = if u = word then some n else f.find? u
  | .error (.present i) => f.find? word = some i
  | .error .extendsLiteral => ∃ u, f.Has u ∧ u <+: word ∧ u ≠ word
  | .error .startsLiteral => ∃ u, f.Has u ∧ word <+: u ∧ u ≠ word

theorem outcome_below (sound : (tree c none below beside).Sound)
    {result : Except Clash Forest} (outcome : below.Outcome n (e :: rest) result) :
    (tree c none below beside).Outcome n (c :: e :: rest)
      (result >>= fun below => .ok (tree c none below beside)) := by
  rcases sound with ⟨-, under, next⟩
  cases result with
  | ok below' =>
    rcases outcome with ⟨sound', apart, found⟩
    refine ⟨⟨iff_of_true rfl ?_, sound', next⟩, ?_, ?_⟩
    · rintro rfl
      have none := found (e :: rest)
      rw [if_pos rfl] at none
      cases none
    · intro u has
      rcases has.cases with ⟨-, none⟩ | ⟨e', rest', rfl, has'⟩ | ⟨d, rest', other, rfl, -⟩
      · cases none
      · simpa using apart _ has'
      · constructor
        · intro begins
          exact other (List.cons_prefix_cons.mp begins).1
        · intro begins
          exact other (List.cons_prefix_cons.mp begins).1.symm
    · intro u
      cases u with
      | nil => rfl
      | cons d word =>
        by_cases same : d = c
        · subst same
          cases word with
          | nil => simp [find_end]
          | cons e' word =>
            rw [find_below, find_below, found]
            simp
        · rw [find_beside same, find_beside same, if_neg (by simp [same])]
  | error clash =>
    cases clash with
    | present i =>
      change (tree c none below beside).find? (c :: e :: rest) = some i
      rw [find_below]
      exact outcome
    | extendsLiteral =>
      rcases outcome with ⟨u, has, begins, other⟩
      cases u with
      | nil => exact absurd has not_has_nil
      | cons e' u => exact ⟨c :: e' :: u, has.under, by simpa using begins, by simpa using other⟩
    | startsLiteral =>
      rcases outcome with ⟨u, has, begins, other⟩
      cases u with
      | nil => exact absurd has not_has_nil
      | cons e' u => exact ⟨c :: e' :: u, has.under, by simpa using begins, by simpa using other⟩

theorem outcome_beside (sound : (tree c terminal below beside).Sound) (other : d ≠ c)
    {result : Except Clash Forest} (outcome : beside.Outcome n (d :: rest) result) :
    (tree c terminal below beside).Outcome n (d :: rest)
      (result >>= fun beside => .ok (tree c terminal below beside)) := by
  rcases sound with ⟨ends, under, next⟩
  cases result with
  | ok beside' =>
    rcases outcome with ⟨sound', apart, found⟩
    refine ⟨⟨ends, under, sound'⟩, ?_, ?_⟩
    · intro u has
      have different {more : List Char} : ¬ (c :: more) <+: d :: rest ∧ ¬ (d :: rest) <+: c :: more := by
        constructor
        · intro begins
          exact other (List.cons_prefix_cons.mp begins).1.symm
        · intro begins
          exact other (List.cons_prefix_cons.mp begins).1
      rcases has.cases with ⟨rfl, -⟩ | ⟨e', rest', rfl, -⟩ | ⟨d', rest', -, rfl, has'⟩
      · exact different
      · exact different
      · exact apart _ has'
    · intro u
      cases u with
      | nil => rfl
      | cons d' word =>
        by_cases same : d' = c
        · subst same
          rw [if_neg (by simp [Ne.symm other])]
          cases word with
          | nil => rw [find_end, find_end]
          | cons e' word => rw [find_below, find_below]
        · rw [find_beside same, find_beside same, found]
  | error clash =>
    cases clash with
    | present i =>
      change (tree c terminal below beside).find? (d :: rest) = some i
      rw [find_beside other]
      exact outcome
    | extendsLiteral =>
      rcases outcome with ⟨u, has, begins, shorter⟩
      cases u with
      | nil => exact absurd has not_has_nil
      | cons d' u =>
        rcases List.cons_prefix_cons.mp begins with ⟨rfl, -⟩
        exact ⟨d' :: u, has.next other, begins, shorter⟩
    | startsLiteral =>
      rcases outcome with ⟨u, has, begins, longer⟩
      cases u with
      | nil => exact absurd has not_has_nil
      | cons d' u =>
        rcases List.cons_prefix_cons.mp begins with ⟨rfl, -⟩
        exact ⟨d :: u, has.next other, begins, longer⟩

theorem insert_outcome (sound : f.Sound) (n : Nat) (d : Char) (rest : List Char) :
    f.Outcome n (d :: rest) (f.insert n d rest) := by
  fun_induction insert n f d rest with
  | case1 d rest =>
    refine ⟨sound_chain, ?_, fun u => find_chain.trans ?_⟩
    · exact fun u has => absurd has not_nil_has
    · cases u <;> rfl
  | case2 below beside d i => exact find_end
  | case3 below beside d empty =>
    have filled := sound.1.mp rfl
    cases below with
    | nil => exact absurd rfl filled
    | tree => cases empty
  | case4 below beside d filled =>
    rcases sound.2.1.has_some (sound.1.mp rfl) with ⟨e, rest, has⟩
    exact ⟨d :: e :: rest, has.under, by simp, by simp⟩
  | case5 terminal below beside d e rest some =>
    refine ⟨[d], ?_, by simp, by simp⟩
    rw [Has, find_end]
    exact some
  | case6 terminal below beside d e rest absent ih =>
    cases terminal with
    | some i => cases absent rfl
    | none => exact outcome_below sound (ih sound.2.1)
  | case7 c terminal below beside d rest other ih => exact outcome_beside sound other (ih sound.2.2)

end StochasticGrammar.Forest
