import TapeCompiler.Program
import TapeCompiler.Machine
import TapeCompiler.Execution

/-!
# Running a program along its tree

The engine keeps the list of nodes that are still to run. A loop whose cell is not zero
puts its body in front of itself, a loop whose cell is zero is dropped. When nothing is
left the sink is flushed, so a run that ends in a fault does not flush.
-/

namespace TapeCompiler

/-- The action of a command. -/
def Command.action : Command → Action
  | move amount => .shift (Int64.ofInt amount)
  | add amount => .add (stepByte amount)
  | clear => .clear
  | print => .write
  | read => .read

/-- A run of a program: the nodes that are still to run, and the machine. -/
structure Walk where
  todo : List Node
  machine : Machine
deriving Repr, Inhabited

/-- Runs the first of the nodes that are still to run. -/
def Walk.step : Walk → Transition Walk (Outcome Unit)
  | ⟨[], m⟩ => .stop m.flush
  | ⟨.command c :: rest, m⟩ =>
      match m.act c.action with
      | (.ok _, m) => .next ⟨rest, m⟩
      | (.error fault, m) => .stop (.error fault, m)
  | ⟨.loop id body :: rest, m⟩ =>
      match m.isZero with
      | .error fault => .stop (.error fault, m)
      | .ok true => .next ⟨rest, m⟩
      | .ok false => .next ⟨body ++ .loop id body :: rest, m⟩

/-- Runs a program on a machine for at most `fuel` steps. -/
def Program.run (fuel : Nat) (p : Program) (m : Machine) : Option (Outcome Unit) :=
  Transition.run Walk.step fuel ⟨p, m⟩

end TapeCompiler
