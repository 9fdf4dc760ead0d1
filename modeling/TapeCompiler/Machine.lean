import TapeCompiler.Machine.Tape
import TapeCompiler.Machine.Stream

/-!
# The tape machine

A machine is a tape with an input and a sink. An `Action` is what an instruction of any
engine does to it, a `Call` is anything that can be asked of it. An action that uses a
cell first asks for the place of the cell, so a pointer that is not on the tape is
found before a stream is touched.
-/

namespace TapeCompiler

structure Machine where
  tape : Tape
  input : List ReadEvent := []
  sink : Sink := {}
deriving DecidableEq, Repr, Inhabited

/-- What an instruction does to a machine. -/
inductive Action where
  | shift (amount : Int64)
  /-- Add to the cell, which wraps. -/
  | add (value : UInt8)
  | clear
  /-- Read into the cell, which keeps its value if there is no byte to read. -/
  | read
  | write
deriving DecidableEq, Repr, Inhabited

instance decidableEqExcept {ε α : Type} [DecidableEq ε] [DecidableEq α] :
    DecidableEq (Except ε α)
  | .ok a, .ok b => decidable_of_iff (a = b) (by simp)
  | .error a, .error b => decidable_of_iff (a = b) (by simp)
  | .ok _, .error _ => isFalse (by simp)
  | .error _, .ok _ => isFalse (by simp)

/-- How something done to a machine came out, and the machine after it. -/
abbrev Outcome (α : Type) := Except RuntimeFault α × Machine

namespace Machine

def start (length : Nat) (input : List ReadEvent) (sink : Sink) : Machine :=
  ⟨Tape.blank length, input, sink⟩

def change (m : Machine) (f : UInt8 → UInt8) : Outcome Unit :=
  match m.tape.index with
  | .error fault => (.error fault, m)
  | .ok i => (.ok (), { m with tape := m.tape.change i f })

def read (m : Machine) : Outcome Unit :=
  match m.tape.index with
  | .error fault => (.error fault, m)
  | .ok i =>
      match readByte m.input with
      | (.error fault, rest) => (.error (.io fault), { m with input := rest })
      | (.ok none, rest) => (.ok (), { m with input := rest })
      | (.ok (some value), rest) =>
          (.ok (), { m with tape := m.tape.change i fun _ => value, input := rest })

def write (m : Machine) : Outcome Unit :=
  match m.tape.index with
  | .error fault => (.error fault, m)
  | .ok i =>
      let value := m.tape.cells[i]
      match m.sink.write value with
      | (.error fault, sink) => (.error (.io fault), { m with sink })
      | (.ok _, sink) => (.ok (), { m with sink })

def flush (m : Machine) : Outcome Unit :=
  match m.sink.flush with
  | (.error fault, sink) => (.error (.io fault), { m with sink })
  | (.ok _, sink) => (.ok (), { m with sink })

def isZero (m : Machine) : Except RuntimeFault Bool :=
  match m.tape.index with
  | .error fault => .error fault
  | .ok i => .ok (m.tape.cells[i] == 0)

/-- Blanks the tape and keeps the streams. -/
def reset (m : Machine) : Machine :=
  { m with tape := m.tape.reset }

def act (m : Machine) : Action → Outcome Unit
  | .shift amount => (.ok (), { m with tape := m.tape.shift amount })
  | .add value => m.change (· + value)
  | .clear => m.change fun _ => 0
  | .read => m.read
  | .write => m.write

end Machine

/-- Anything that can be asked of a machine. -/
inductive Call where
  | act (action : Action)
  | flush
  | reset
  | isZero
deriving DecidableEq, Repr, Inhabited

/-- Answers a call. Only `isZero` has a value to give. -/
def Machine.call (m : Machine) : Call → Outcome (Option Bool)
  | .act action =>
      match m.act action with
      | (result, m) => (result.map fun _ => none, m)
  | .flush =>
      match m.flush with
      | (result, m) => (result.map fun _ => none, m)
  | .reset => (.ok none, m.reset)
  | .isZero => (m.isZero.map some, m)

end TapeCompiler
