import StochasticGrammar.GrammarText.Reader

/-!
Reading a corpus: one string on each line, without the carriage returns at its end; empty lines are
skipped.
-/

namespace StochasticGrammar.Corpus

def lines (text : String) : List String :=
  let pieces := (GrammarText.splitLines text.toList).map (Text.dropTrailing (· == '\r'))
  (pieces.filter fun piece => !piece.isEmpty).map String.ofList

def read (bytes : ByteArray) : Except Error (List String) :=
  match String.fromUTF8? bytes with
  | some text => .ok (lines text)
  | none => .error (.file .notUtf8)

end StochasticGrammar.Corpus
