import StochasticGrammar.RuleSet

/-!
The search for the non-terminals that occur in derivations from one of them. Symbols wait in a queue
until their binary rules are looked at; each is marked when it is met, so that it waits only once.
-/

namespace StochasticGrammar

structure Search where
  /-- Whether the non-terminal has been met. -/
  met : Array Bool
  queue : List Nat

namespace Search

def ofStart (nonTerminals start : Nat) : Search :=
  ⟨(Array.replicate nonTerminals false).setIfInBounds start true, [start]⟩

def meet (s : Search) (nt : Nat) : Search :=
  if s.met[nt]? = some false then ⟨s.met.setIfInBounds nt true, s.queue ++ [nt]⟩ else s

/-- Meets the symbols of the rules, the left before the right. -/
def expand (s : Search) (rules : List BinaryRule) : Search :=
  rules.foldl (fun s r => (s.meet r.left).meet r.right) s

/-- The symbols that wait or have not been met. -/
def left (s : Search) : Nat := s.met.count false + s.queue.length

theorem left_meet (s : Search) (nt : Nat) : (s.meet nt).left = s.left := by
  unfold meet
  split
  · rename_i unmet
    obtain ⟨inside, here⟩ := Array.getElem?_eq_some_iff.mp unmet
    have one : 0 < s.met.count false := Array.count_pos_iff.mpr (Array.mem_of_getElem here)
    simp only [left, Array.setIfInBounds, inside, ↓reduceDIte, Array.count_set, here, beq_self_eq_true,
      ↓reduceIte, Bool.true_eq_false, beq_iff_eq, List.length_append, List.length_singleton]
    omega
  · rfl

theorem left_expand (s : Search) (rules : List BinaryRule) : (s.expand rules).left = s.left := by
  induction rules generalizing s with
  | nil => rfl
  | cons r rules ih =>
    change (expand _ rules).left = s.left
    rw [ih, left_meet, left_meet]

def run (index : RuleIndex) (s : Search) : Array Bool :=
  match s with
  | ⟨met, []⟩ => met
  | ⟨met, nt :: queue⟩ => run index (expand ⟨met, queue⟩ (index.binariesOf nt))
termination_by s.left
decreasing_by
  rw [left_expand]
  simp only [left, List.length_cons]
  omega

end Search

def RuleIndex.reachable (index : RuleIndex) (nonTerminals start : Nat) : Array Bool :=
  (Search.ofStart nonTerminals start).run index

end StochasticGrammar
