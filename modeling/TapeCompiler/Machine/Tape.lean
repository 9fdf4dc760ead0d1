import TapeCompiler.Machine.Fault

/-!
# The tape

A row of byte cells and a pointer. The pointer is a signed word that wraps and that may
point anywhere: only the use of a cell asks whether there is one, through `index`.
-/

namespace TapeCompiler

/-- Cells and a pointer to one of them, or to none. -/
structure Tape where
  cells : Array UInt8
  pointer : Int64 := 0
deriving DecidableEq, Repr, Inhabited

namespace Tape

/-- How many cells a tape has unless it is asked for otherwise. -/
def standardLength : Nat := 30000

/-- A tape of zeros with the pointer on the first cell. -/
def blank (length : Nat) : Tape :=
  ⟨Array.replicate length 0, 0⟩

/-- The place of the cell at the pointer. -/
def index (tape : Tape) : Except RuntimeFault (Fin tape.cells.size) :=
  if h : 0 ≤ tape.pointer ∧ tape.pointer.toNatClampNeg < tape.cells.size then
    .ok ⟨tape.pointer.toNatClampNeg, h.2⟩
  else .error (.outOfBounds tape.pointer tape.cells.size)

def shift (tape : Tape) (amount : Int64) : Tape :=
  { tape with pointer := tape.pointer + amount }

def change (tape : Tape) (i : Fin tape.cells.size) (f : UInt8 → UInt8) : Tape :=
  { tape with cells := tape.cells.modify i f }

/-- Zeros all cells and takes the pointer back to the first one. -/
def reset (tape : Tape) : Tape :=
  blank tape.cells.size

/-- The cells that are not zero, each with its place, in order. -/
def nonZero (tape : Tape) : List (Nat × UInt8) :=
  (tape.cells.toList.zipIdx.filter (·.1 != 0)).map fun (value, i) => (i, value)

end Tape

end TapeCompiler
