import StochasticGrammar.Text.Blank

/-!
Quoted text. `literal` is the form of terminals in grammars, where a backslash stands before a quote
or a backslash and nowhere else; `quoted` is the form of text in messages, where characters that
leave no mark are written by number.
-/

namespace StochasticGrammar.Text

/-- Controls, format characters, separators other than the space, private use and noncharacters. -/
def unprintableRanges : List (Nat × Nat) :=
  [(0x00, 0x1f), (0x7f, 0xa0), (0xad, 0xad), (0x600, 0x605), (0x61c, 0x61c), (0x6dd, 0x6dd),
   (0x70f, 0x70f), (0x890, 0x891), (0x8e2, 0x8e2), (0x1680, 0x1680), (0x180e, 0x180e),
   (0x2000, 0x200f), (0x2028, 0x202f), (0x205f, 0x206f), (0x3000, 0x3000), (0xe000, 0xf8ff),
   (0xfdd0, 0xfdef), (0xfeff, 0xfeff), (0xfff9, 0xfffb), (0xfffe, 0xffff), (0x110bd, 0x110bd),
   (0x110cd, 0x110cd), (0x13430, 0x1343f), (0x1bca0, 0x1bca3), (0x1d173, 0x1d17a),
   (0xe0001, 0xe007f), (0xf0000, 0x10ffff)]

def isPrintable (c : Char) : Bool := !inRanges unprintableRanges c

def byNumber (c : Char) : List Char :=
  '\\' :: 'u' :: '\x7b' :: (Nat.toDigits 16 c.toNat ++ ['\x7d'])

def escapeChar (c : Char) : List Char :=
  if c = '"' ∨ c = '\\' then ['\\', c]
  else if c = '\n' then ['\\', 'n']
  else if c = '\r' then ['\\', 'r']
  else if c = '\t' then ['\\', 't']
  else if c = '\x00' then ['\\', '0']
  else if isPrintable c then [c]
  else byNumber c

def quotedChars (text : List Char) : String :=
  String.ofList ('"' :: (text.flatMap escapeChar ++ ['"']))

def quoted (text : String) : String := quotedChars text.toList

def literalChar (c : Char) : List Char :=
  if c = '"' ∨ c = '\\' then ['\\', c] else [c]

def literalChars (text : List Char) : List Char :=
  '"' :: (text.flatMap literalChar ++ ['"'])

def literal (text : String) : String := String.ofList (literalChars text.toList)

end StochasticGrammar.Text
