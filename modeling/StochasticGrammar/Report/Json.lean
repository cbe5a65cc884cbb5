import StochasticGrammar.Decimal.Layout

/-!
Values written as indented JSON. A value is a block of lines; lists and objects indent the blocks in
them by two spaces and put a comma after each but the last.
-/

namespace StochasticGrammar.Report

abbrev Block := List String

def escapeChar (c : Char) : List Char :=
  if c = '"' ∨ c = '\\' then ['\\', c]
  else if c = '\x08' then ['\\', 'b']
  else if c = '\x0c' then ['\\', 'f']
  else if c = '\n' then ['\\', 'n']
  else if c = '\r' then ['\\', 'r']
  else if c = '\t' then ['\\', 't']
  else if c.toNat < 0x20 then
    ['\\', 'u', '0', '0', Nat.digitChar (c.toNat / 16), Nat.digitChar (c.toNat % 16)]
  else [c]

def jsonString (text : String) : String :=
  String.ofList ('"' :: (text.toList.flatMap escapeChar ++ ['"']))

def text (value : String) : Block := [jsonString value]

def integer (value : Nat) : Block := [toString value]

def float (value : Float) : Block := [Decimal.Layout.report.write value]

def bool (value : Bool) : Block := [if value then "true" else "false"]

def field (name : String) : Block → Block
  | [] => [jsonString name ++ ": null"]
  | line :: lines => (jsonString name ++ ": " ++ line) :: lines

def withComma : Block → Block
  | [] => []
  | [line] => [line ++ ","]
  | line :: lines => line :: withComma lines

def separated : List Block → Block
  | [] => []
  | [item] => item
  | item :: items => withComma item ++ separated items

def enclosed (opening closing : String) (items : List Block) : Block :=
  if items.isEmpty then [opening ++ closing]
  else opening :: (separated items).map ("  " ++ ·) ++ [closing]

def list (items : List Block) : Block := enclosed "[" "]" items

def object (fields : List Block) : Block := enclosed "\x7b" "\x7d" fields

def Block.write (block : Block) : String := "\n".intercalate block

end StochasticGrammar.Report
