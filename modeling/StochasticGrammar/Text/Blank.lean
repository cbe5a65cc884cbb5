/-!
White space in the sense of the Unicode property `White_Space`, and text without it at its ends.
-/

namespace StochasticGrammar.Text

def blankRanges : List (Nat × Nat) :=
  [(0x09, 0x0d), (0x20, 0x20), (0x85, 0x85), (0xa0, 0xa0), (0x1680, 0x1680), (0x2000, 0x200a),
   (0x2028, 0x2029), (0x202f, 0x202f), (0x205f, 0x205f), (0x3000, 0x3000)]

def inRanges (ranges : List (Nat × Nat)) (c : Char) : Bool :=
  ranges.any fun (low, high) => decide (low ≤ c.toNat) && decide (c.toNat ≤ high)

def isBlank (c : Char) : Bool := inRanges blankRanges c

def dropTrailing (p : Char → Bool) (text : List Char) : List Char :=
  (text.reverse.dropWhile p).reverse

def trimChars (text : List Char) : List Char :=
  dropTrailing isBlank (text.dropWhile isBlank)

def trim (text : String) : String := String.ofList (trimChars text.toList)

end StochasticGrammar.Text
