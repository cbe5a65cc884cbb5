import StochasticGrammar.CommandLine.Host
import StochasticGrammar.Text.Blank

/-!
A system in memory: files, a working directory and the streams. Directories are where files are and
on the way to the working directory. A path is followed step by step, and every step is taken in a
directory.
-/

namespace StochasticGrammar

/-- Where a file or directory is, as the names on the way to it from the root. -/
abbrev Location := List String

structure Sandbox where
  files : List (Location × ByteArray) := []
  home : Location := []
  input : ByteArray := .empty
  entropy : UInt64 := 0
  output : String := ""
  warnings : String := ""
  deriving Inhabited

inductive Place where
  | nothing
  | directory
  | file (content : ByteArray)
  deriving Inhabited

namespace Sandbox

def isDirectory (s : Sandbox) (location : Location) : Bool :=
  location.isPrefixOf s.home || s.files.any fun file => location.isPrefixOf file.1.dropLast

def place (s : Sandbox) (location : Location) : Place :=
  match s.files.lookup location with
  | some content => .file content
  | none => if s.isDirectory location then .directory else .nothing

def step (s : Sandbox) (location : Location) (name : String) : Except FileFault Location :=
  match s.place location with
  | .nothing => .error .missing
  | .file _ => .error .notDirectory
  | .directory =>
    if name = "" ∨ name = "." then .ok location
    else if name = ".." then .ok location.dropLast
    else if 255 < name.utf8ByteSize then .error .nameTooLong
    else .ok (location ++ [name])

def locate (s : Sandbox) (path : String) : Except FileFault Location :=
  if 4095 < path.utf8ByteSize then .error .nameTooLong
  else (path.splitOn "/").foldlM s.step (if path.startsWith "/" then [] else s.home)

def read (path : String) (s : Sandbox) : Except FileFault ByteArray := do
  match s.place (← s.locate path) with
  | .file content => return content
  | .directory => throw .directory
  | .nothing => throw .missing

/-- A path that ends in a slash is that of a directory, be it there or not. -/
def locateFile (s : Sandbox) (path : String) : Except FileFault Location := do
  let location ← s.locate (String.ofList (Text.dropTrailing (· == '/') path.toList))
  if path.endsWith "/" then throw .directory
  match s.place location with
  | .directory => throw .directory
  | .file _ | .nothing => return location

def write (path content : String) (s : Sandbox) : Except FileFault Unit × Sandbox :=
  match s.locateFile path with
  | .error fault => (.error fault, s)
  | .ok location =>
    let others := s.files.filter fun file => file.1 != location
    (.ok (), { s with files := (location, content.toUTF8) :: others })

instance : Host (StateM Sandbox) where
  readFile path := return (← get).read path
  writeFile path content := modifyGet (write path content)
  readInput := return (← get).input
  print text := modify fun s => { s with output := s.output ++ text }
  warn text := modify fun s => { s with warnings := s.warnings ++ text }
  entropy := return (← get).entropy

end Sandbox

end StochasticGrammar
