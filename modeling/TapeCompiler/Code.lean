import TapeCompiler.Program.Evaluation

/-!
# Flat code

Code is a list of instructions in which loops have become jumps. A loop starts with a
jump behind its last instruction, taken on a zero cell, and ends with a jump behind its
first one, taken on any other cell. Both jumps are relative, so code can be moved:
`Program.code` of two programs one behind the other is `code_append`.

`Instructions.listing` writes code with the place of each instruction before it.
-/

namespace TapeCompiler

inductive Instruction where
  | act (action : Action)
  /-- Go `offset` places forward if the cell at the pointer is zero. -/
  | jumpForward (offset : UInt64)
  /-- Go `offset` places back if the cell at the pointer is not zero. -/
  | jumpBack (offset : UInt64)
deriving DecidableEq, Repr, Inhabited

namespace Instruction

def actionText : Action → String
  | .shift amount => "shift " ++ toString amount.toInt
  | .add value => "add " ++ toString value.toNat
  | .clear => "zero"
  | .read => "read"
  | .write => "write"

def text : Instruction → String
  | act action => actionText action
  | jumpForward offset => "jz +" ++ toString offset.toNat
  | jumpBack offset => "jnz -" ++ toString offset.toNat

end Instruction

/-- The instructions of a loop around the instructions of its body. -/
def loopCode (body : List Instruction) : List Instruction :=
  .jumpForward (.ofNat (body.length + 2)) :: body ++ [.jumpBack (.ofNat body.length)]

def Node.code : Node → List Instruction
  | command c => [.act c.action]
  | loop _ body => loopCode (body.flatMap code)

def Program.code (p : Program) : List Instruction :=
  p.flatMap Node.code

@[simp] theorem Node.code_command (c : Command) :
    code (command c) = [.act c.action] := by
  rw [code]

theorem Node.code_loop (id : Nat) (body : Program) :
    code (loop id body) = loopCode body.code := by
  rw [code, Program.code]

@[simp] theorem Program.code_nil : code [] = [] := rfl

theorem Program.code_cons (n : Node) (rest : Program) :
    code (n :: rest) = n.code ++ code rest := by
  simp [code]

theorem Program.code_append (p q : Program) : code (p ++ q) = code p ++ code q := by
  simp [code]

/-- One line of a listing: the place of an instruction in five columns, or more if it
needs more, and its text. -/
def listingLine (place : Nat) (instruction : Instruction) : String :=
  String.ofList ((toString place).toList.leftpad 5 ' ') ++ ": " ++ instruction.text ++ "\n"

/-- Code as text, one instruction a line. -/
def listing (code : List Instruction) : String :=
  String.join (code.zipIdx.map fun (instruction, place) => listingLine place instruction)

end TapeCompiler
