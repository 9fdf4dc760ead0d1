import TapeCompiler.Program.Parser
import TapeCompiler.Machine.Fault
import TapeCompiler.Target

/-!
# Faults and notices of a compilation

A compilation has at most one fault. Its `message` is the wording, and its `exitCode` is
what the command line makes of it. Notices are what is said beside the output: where the
compilation is, and the fault that ended it.
-/

namespace TapeCompiler

/-- A fault while an artifact is written or run. -/
inductive GenerationFault where
  | io (fault : IoFault)
  | runtime (fault : RuntimeFault)
deriving DecidableEq, Repr, Inhabited

def GenerationFault.message : GenerationFault → String
  | io fault => fault.message
  | runtime fault => "Runtime error: " ++ fault.message

/-- A fault that ends a compilation. -/
inductive CompilationFault where
  | parse (e : ParseError)
  | generation (fault : GenerationFault)
  | file (fault : IoFault)
deriving DecidableEq, Repr, Inhabited

namespace CompilationFault

def message : CompilationFault → String
  | parse e => e.message
  | generation fault => fault.message
  | file fault => fault.message

def exitCode : CompilationFault → UInt32
  | parse _ => 65
  | generation _ => 1
  | file _ => 1

end CompilationFault

inductive Stage where
  | lexing
  | parsing
  | optimizations
  | codegen
deriving DecidableEq, Repr, Inhabited

def Stage.name : Stage → String
  | lexing => "lexing"
  | parsing => "parsing"
  | optimizations => "optimizations"
  | codegen => "codegen"

/-- Something that is said beside the output. -/
inductive Notice where
  | compiling (file : String) (target : Target)
  | starting (stage : Stage)
  | finished (stage : Stage)
  | failed (fault : CompilationFault)
deriving DecidableEq, Repr, Inhabited

/-- The wording of a notice. A stage that is finished took `elapsed`. -/
def Notice.text (elapsed : String) : Notice → String
  | compiling file target => "Compiling " ++ file ++ " for " ++ target.title
  | starting stage => "Starting " ++ stage.name
  | finished stage => "Finished " ++ stage.name ++ " in " ++ elapsed
  | failed (.parse e) => e.message
  | failed fault => "Error: " ++ fault.message

end TapeCompiler
