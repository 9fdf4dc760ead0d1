import TapeCompiler.Code

/-!
# Running flat code

The engine keeps a place in the code. Places are words that wrap, and the run ends when
the place is none of the code, whichever side it left by.
-/

namespace TapeCompiler

/-- A run of flat code: the place of the next instruction, and the machine. -/
structure CodeRun where
  place : UInt64 := 0
  machine : Machine
deriving DecidableEq, Repr, Inhabited

/-- Runs the instruction at the current place. -/
def CodeRun.step (code : Array Instruction) (run : CodeRun) :
    Transition CodeRun (Outcome Unit) :=
  match code[run.place.toNat]? with
  | none => .stop run.machine.flush
  | some (.act action) =>
      match run.machine.act action with
      | (.ok _, m) => .next ⟨run.place + 1, m⟩
      | (.error fault, m) => .stop (.error fault, m)
  | some (.jumpForward offset) =>
      match run.machine.isZero with
      | .error fault => .stop (.error fault, run.machine)
      | .ok zero => .next ⟨run.place + if zero then offset else 1, run.machine⟩
  | some (.jumpBack offset) =>
      match run.machine.isZero with
      | .error fault => .stop (.error fault, run.machine)
      | .ok zero =>
          .next ⟨if zero then run.place + 1 else run.place - offset, run.machine⟩

/-- Runs code on a machine for at most `fuel` steps. -/
def runCode (fuel : Nat) (code : List Instruction) (m : Machine) : Option (Outcome Unit) :=
  let code := code.toArray
  Transition.run (CodeRun.step code) fuel ⟨0, m⟩

/-- Runs the code of a program on a machine whose tape is blanked first. -/
def Program.execute (fuel : Nat) (p : Program) (m : Machine) : Option (Outcome Unit) :=
  runCode fuel p.code m.reset

end TapeCompiler
