import StochasticGrammar.CommandLine.Run

/-!
The program: the command line on the files and streams of the running system.
-/

namespace StochasticGrammar.CommandLine

def faultOfCode (code : UInt32) (details : String) : FileFault :=
  match code.toNat with
  | 2 => .missing
  | 20 => .notDirectory
  | 21 => .directory
  | 36 => .nameTooLong
  | code => .other s!"{details} (os error {code})"

def faultOf : IO.Error → FileFault
  | .noFileOrDirectory _ code details => faultOfCode code details
  | .inappropriateType _ code details => faultOfCode code details
  | .permissionDenied _ code details => faultOfCode code details
  | .invalidArgument _ code details => faultOfCode code details
  | .resourceExhausted _ code details => faultOfCode code details
  | .otherError code details => faultOfCode code details
  | fault => .other (toString fault)

def guarded {α : Type} (action : IO α) : IO (Except FileFault α) := do
  try return .ok (← action)
  catch fault => return .error (faultOf fault)

/-- All that is left to read from a stream. -/
partial def readToEnd (stream : IO.FS.Stream) (read : ByteArray) : IO ByteArray := do
  let bytes ← stream.read 65536
  if bytes.isEmpty then return read else readToEnd stream (read ++ bytes)

def wordOf (bytes : ByteArray) : UInt64 :=
  bytes.foldl (fun (word : UInt64) (byte : UInt8) => 256 * word + byte.toUInt64) 0

instance : Host IO where
  readFile path := guarded (IO.FS.readBinFile path)
  writeFile path content := guarded (IO.FS.writeFile path content)
  readInput := do readToEnd (← IO.getStdin) .empty
  print := IO.print
  warn := IO.eprint
  entropy := return wordOf (← IO.getRandomBytes 8)

end StochasticGrammar.CommandLine

def main (args : List String) : IO UInt32 := StochasticGrammar.CommandLine.invoke args
