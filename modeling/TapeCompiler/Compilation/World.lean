import TapeCompiler.Code.Evaluation
import TapeCompiler.Compilation
import TapeCompiler.Compilation.Folder

/-!
# A world to compile in

A `World` holds everything that a compilation can read or change: a folder, an input, the
output so far, and the notices so far. `World.host` is the host that works on a world. It
runs code with a given amount of fuel, and a compilation whose program does not stop
within it has no result.
-/

namespace TapeCompiler

structure World where
  folder : Folder := {}
  input : List ReadEvent := []
  output : Array UInt8 := #[]
  /-- The notices that were given, the last one first. -/
  notices : List Notice := []
deriving Inhabited

/-- Something done in a world. There is no result if it takes more than the fuel. -/
abbrev InWorld := StateT World Option

namespace World

def printLine (world : World) (text : String) : World :=
  { world with output := world.output ++ text.toUTF8.data ++ #[10] }

def note (world : World) (notice : Notice) : World :=
  { world with notices := notice :: world.notices }

/-- Writes a file of the folder. A world in which that fails is not changed. -/
def writeFile (world : World) (path text : String) : Except IoFault Unit × World :=
  match world.folder.write path text.toUTF8 with
  | .ok folder => (.ok (), { world with folder })
  | .error fault => (.error fault, world)

/-- Runs code on the input of the world, behind the output so far. -/
def execute (fuel : Nat) (world : World) (code : List Instruction) (length : Nat) :
    Option (Except RuntimeFault Unit × World) :=
  let m := Machine.start length world.input { written := world.output }
  (runCode fuel code m).map fun (result, m) =>
    (result, { world with input := m.input, output := m.sink.written })

def host (fuel : Nat) : Host InWorld where
  readFile path := fun world => some (world.folder.read path, world)
  writeFile path text := fun world => some (world.writeFile path text)
  print text := fun world => some ((), world.printLine text)
  notice n := fun world => some ((), world.note n)
  execute code length := fun world => world.execute fuel code length

end World

end TapeCompiler
