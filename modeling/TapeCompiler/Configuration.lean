import TapeCompiler.Machine.Tape
import TapeCompiler.Target

/-!
# Configurations

What a compilation has to know besides the source text.
-/

namespace TapeCompiler

/-- How a source text is to be compiled. -/
structure Configuration where
  target : Target := .bytecode
  /-- The file that takes the artifact. Without one, flat code is run. -/
  output : Option String := none
  /-- Whether the artifact is printed before it is used. -/
  debug : Bool := false
  /-- The input of targets that hold it. -/
  input : Option String := none
  passes : Nat := 1
  /-- The length of the tape on which flat code is run. -/
  tapeLength : Nat := Tape.standardLength
deriving DecidableEq, Repr, Inhabited

/-- The artifact of a program, as the configuration asks for it. -/
def Configuration.artifact (config : Configuration) (p : Program) : String :=
  config.target.artifact (config.input.getD "") p

end TapeCompiler
