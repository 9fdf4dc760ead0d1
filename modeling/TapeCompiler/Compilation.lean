import TapeCompiler.Program.Optimizer
import TapeCompiler.Program.Printer
import TapeCompiler.Configuration
import TapeCompiler.Compilation.Notice

/-!
# Compilations

A `Host` is what a compilation asks of its surroundings. `generate` writes or runs the
artifact of a program, `compileSource` starts from a source text and `Request.compile`
from a file, with the dumps and notices that were asked for. A parse error ends a
compilation before anything is written or run.
-/

namespace TapeCompiler

/-- The surroundings of a compilation. -/
structure Host (m : Type → Type) where
  readFile : String → m (Except IoFault ByteArray)
  /-- Makes a file with the given text, in place of any that was there. -/
  writeFile : String → String → m (Except IoFault Unit)
  print : String → m Unit
  notice : Notice → m Unit
  /-- Runs code on a blank tape of a length. -/
  execute : List Instruction → Nat → m (Except RuntimeFault Unit)

inductive Dump where
  | tokens
  | tree
  | optimizedTree
deriving DecidableEq, Repr, Inhabited

/-- The compilation of a file. -/
structure Request where
  file : String
  config : Configuration := {}
  dumps : List Dump := []
  verbose : Bool := false
deriving DecidableEq, Repr, Inhabited

section

variable {m : Type → Type} [Monad m] (host : Host m)

/-- Writes the artifact of a program to the file that was asked for. Flat code is run
if no file was. -/
def generate (config : Configuration) (p : Program) : m (Except GenerationFault Unit) := do
  if config.debug then
    host.print (config.artifact p)
  match config.output, config.target with
  | some path, _ =>
      let result ← host.writeFile path (config.artifact p)
      return result.mapError .io
  | none, .bytecode =>
      let result ← host.execute p.code config.tapeLength
      return result.mapError .runtime
  | none, _ => return .ok ()

def compileSource (config : Configuration) (source : String) :
    m (Except CompilationFault Unit) := do
  match Program.ofSource source with
  | .error e => return .error (.parse e)
  | .ok p =>
      let result ← generate host config (p.optimize config.passes)
      return result.mapError .generation

namespace Request

variable (request : Request)

/-- Gives a notice if the request is verbose. -/
def tell (notice : Notice) : m Unit := do
  if request.verbose then
    host.notice notice

/-- Prints a dump if the request asks for it. -/
def dump (kind : Dump) (text : Unit → String) : m Unit := do
  if kind ∈ request.dumps then
    host.print (text ())

/-- A part of a compilation between its two notices. -/
def stage {α : Type} (stage : Stage) (work : Unit → m α) : m α := do
  request.tell host (.starting stage)
  let result ← work ()
  request.tell host (.finished stage)
  return result

def compileText (source : String) : m (Except CompilationFault Unit) := do
  let tokens ← request.stage host .lexing fun _ => return scan source
  request.dump host .tokens fun _ => Token.text tokens
  match ← request.stage host .parsing fun _ => return Program.ofTokens tokens with
  | .error e => return .error (.parse e)
  | .ok p =>
      request.dump host .tree fun _ => p.debugText
      let optimized ← request.stage host .optimizations fun _ =>
        return p.optimize request.config.passes
      request.dump host .optimizedTree fun _ => optimized.debugText
      let result ← request.stage host .codegen fun _ =>
        generate host request.config optimized
      return result.mapError .generation

def compile : m (Except CompilationFault Unit) := do
  request.tell host (.compiling request.file request.config.target)
  match ← host.readFile request.file with
  | .error fault => return .error (.file fault)
  | .ok bytes =>
      match String.fromUTF8? bytes with
      | none => return .error (.file .invalidText)
      | some source => request.compileText host source

/-- Compiles the file, gives notice of a fault, and says with which code to exit. -/
def run : m UInt32 := do
  match ← request.compile host with
  | .ok _ => return 0
  | .error fault =>
      host.notice (.failed fault)
      return fault.exitCode

end Request

end

end TapeCompiler
