import StochasticGrammar.Error

/-!
What the command line needs of the system around it.
-/

namespace StochasticGrammar

class Host (m : Type → Type) where
  readFile : String → m (Except FileFault ByteArray)
  writeFile : String → String → m (Except FileFault Unit)
  readInput : m ByteArray
  print : String → m Unit
  warn : String → m Unit
  entropy : m UInt64

instance {ε : Type} {m : Type → Type} [Monad m] [Host m] : Host (ExceptT ε m) where
  readFile path := ExceptT.lift (Host.readFile path)
  writeFile path content := ExceptT.lift (Host.writeFile path content)
  readInput := ExceptT.lift Host.readInput
  print text := ExceptT.lift (Host.print text)
  warn text := ExceptT.lift (Host.warn text)
  entropy := ExceptT.lift Host.entropy

end StochasticGrammar
