import TapeCompiler.Code
import TapeCompiler.Target.Arm
import TapeCompiler.Target.C
import TapeCompiler.Target.Jasmin
import TapeCompiler.Target.Js
import TapeCompiler.Target.Llvm
import TapeCompiler.Target.Lox
import TapeCompiler.Target.Smali
import TapeCompiler.Target.Wasm

/-!
# Targets

What a program can be turned into. `Target.name` is the name a target is asked for by,
`Target.ofName?` looks a name up, and `Target.artifact` is the text of a program for a
target.
-/

namespace TapeCompiler

inductive Target where
  /-- Flat code, which can also be run. -/
  | bytecode
  | arm
  | llvm
  | jasmin
  | smali
  | wasm
  | lox
  | c
  | js
deriving DecidableEq, Repr, Inhabited

namespace Target

def all : List Target :=
  [bytecode, arm, llvm, jasmin, smali, wasm, lox, c, js]

def name : Target → String
  | bytecode => "bytecode"
  | arm => "arm"
  | llvm => "llvm"
  | jasmin => "jasmin"
  | smali => "smali"
  | wasm => "wasm"
  | lox => "lox"
  | c => "c"
  | js => "js"

/-- The name of a target in notices. -/
def title : Target → String
  | bytecode => "Bytecode"
  | arm => "Arm"
  | llvm => "Llvm"
  | jasmin => "Jasmin"
  | smali => "Smali"
  | wasm => "Wasm"
  | lox => "Lox"
  | c => "C"
  | js => "Js"

/-- The target that a name asks for. Names differ by case unless case is ignored, and
then only the case of ASCII letters is. -/
def ofName? (name : String) (ignoreCase : Bool) : Option Target :=
  let spelling (s : String) := if ignoreCase then s.map Char.toLower else s
  all.find? fun target => spelling target.name == spelling name

/-- What is said of a name that asks for no target. -/
def unknownMessage (name : String) : String :=
  "invalid variant: " ++ name

/-- The text of a program for a target. Only Lox scripts hold their input. -/
def artifact (target : Target) (input : String) (p : Program) : String :=
  match target with
  | bytecode => listing p.code
  | arm => Arm.artifact p
  | llvm => Llvm.artifact p
  | jasmin => Jasmin.artifact p
  | smali => Smali.artifact p
  | wasm => Wasm.artifact p
  | lox => Lox.artifact input p
  | c => C.artifact p
  | js => Js.artifact p

end Target

end TapeCompiler
