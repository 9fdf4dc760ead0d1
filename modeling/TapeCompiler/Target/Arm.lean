import TapeCompiler.Layout.Line
import TapeCompiler.Layout.Template
import TapeCompiler.Machine.Tape

/-!
# ARM assembly

The program becomes 32-bit ARM assembly that asks the Linux kernel to read, to write and
to exit. Register `r4` holds the address of the current cell, `r5` a cell on its way, and
`r6` the amount of a move that is too large for an immediate operand.

`Arm.statements` is the artifact as data, and `Arm.artifact` is its text.
-/

namespace TapeCompiler.Arm

inductive Register where
  | r0 | r1 | r2 | r4 | r5 | r6 | r7
deriving DecidableEq, Repr, Inhabited

/-- The address of the current cell. -/
abbrev pointer : Register := .r4

/-- A cell that is being worked on. -/
abbrev value : Register := .r5

/-- An amount that is no immediate operand. -/
abbrev scratch : Register := .r6

/-- The labels of a loop, named by its id. -/
inductive Label where
  | start (id : Nat)
  | finish (id : Nat)
deriving DecidableEq, Repr, Inhabited

inductive Operand where
  | register (r : Register)
  | immediate (n : Nat)
deriving DecidableEq, Repr, Inhabited

inductive Statement where
  /-- Start the section of zeroed memory. -/
  | zeroed
  | reserve (bytes : Nat)
  /-- Start the section of code. -/
  | code
  /-- Make the entry known outside. -/
  | exported
  | entry
  | label (l : Label)
  | comment (text : String)
  | loadTape (dest : Register)
  | loadConstant (dest : Register) (n : Nat)
  | loadByte (dest address : Register)
  /-- Store the low byte of a register at an address. -/
  | storeByte (of address : Register)
  | mov (dest : Register) (operand : Operand)
  | add (dest r : Register) (operand : Operand)
  | sub (dest r : Register) (operand : Operand)
  | cmp (r : Register) (operand : Operand)
  | branch (l : Label)
  /-- Branch if the last comparison found its operands equal. -/
  | branchEqual (l : Label)
  | kernel
deriving DecidableEq, Repr, Inhabited

def Register.text : Register → String
  | r0 => "r0"
  | r1 => "r1"
  | r2 => "r2"
  | r4 => "r4"
  | r5 => "r5"
  | r6 => "r6"
  | r7 => "r7"

def Label.text : Label → String
  | start id => ".Lstart_" ++ toString id
  | finish id => ".Lend_" ++ toString id

def Operand.text : Operand → String
  | register r => r.text
  | immediate n => "#" ++ toString n

def Statement.text : Statement → String
  | zeroed => ".bss"
  | reserve bytes => ".lcomm MEMORY, " ++ toString bytes
  | code => ".text"
  | exported => ".global _start"
  | entry => "_start:"
  | label l => l.text ++ ":"
  | comment text => "@ " ++ text
  | loadTape dest => "ldr " ++ dest.text ++ ", =MEMORY"
  | loadConstant dest n => "ldr " ++ dest.text ++ ", =" ++ toString n
  | loadByte dest address => "ldrb " ++ dest.text ++ ", [" ++ address.text ++ "]"
  | storeByte of address => "strb " ++ of.text ++ ", [" ++ address.text ++ "]"
  | mov dest operand => "mov " ++ dest.text ++ ", " ++ operand.text
  | add dest r operand => "add " ++ dest.text ++ ", " ++ r.text ++ ", " ++ operand.text
  | sub dest r operand => "sub " ++ dest.text ++ ", " ++ r.text ++ ", " ++ operand.text
  | cmp r operand => "cmp " ++ r.text ++ ", " ++ operand.text
  | branch l => "b " ++ l.text
  | branchEqual l => "beq " ++ l.text
  | kernel => "swi #0"

def shiftPointer (negative : Bool) (operand : Operand) : Statement :=
  if negative then .sub pointer pointer operand else .add pointer pointer operand

/-- A move. Only eight bits are an immediate operand in any case. -/
def moveStatements (amount : Int) : List Statement :=
  if amount.natAbs ≤ 255 then [shiftPointer (amount < 0) (.immediate amount.natAbs)]
  else [.loadConstant scratch amount.natAbs, shiftPointer (amount < 0) (.register scratch)]

/-- A kernel call for one byte at the pointer: `file` is the stream and `number` the
service. -/
def streamCall (file number : Nat) : List Statement :=
  [.mov .r0 (.immediate file), .mov .r1 (.register pointer), .mov .r2 (.immediate 1),
    .mov .r7 (.immediate number), .kernel]

/-- The statements of a command. At the end of the input the kernel stores no byte, so
the cell keeps its value. -/
def commandStatements : Command → List Statement
  | .move amount => moveStatements amount
  | .add amount =>
      [.loadByte value pointer, .add value value (.immediate (stepByte amount).toNat),
        .storeByte value pointer]
  | .clear => [.mov value (.immediate 0), .storeByte value pointer]
  | .print => streamCall 1 4
  | .read => streamCall 0 3

/-- The statements of the body of the program, which is one level deep. -/
def template : Template (Line Statement) where
  command := fun place c => linesAt (place.depth + 1) (commandStatements c)
  opening := fun place id =>
    ⟨0, .label (.start id)⟩ ::
      linesAt (place.depth + 1)
        [.loadByte value pointer, .cmp value (.immediate 0), .branchEqual (.finish id)]
  closing := fun place id =>
    [⟨place.depth + 1, .branch (.start id)⟩, ⟨0, .label (.finish id)⟩]

def prologue : List (Line Statement) :=
  linesAt 0 [.zeroed, .reserve Tape.standardLength, .code, .exported, .entry] ++
    [⟨1, .loadTape pointer⟩]

def epilogue : List (Line Statement) :=
  linesAt 1
    [.comment "exit(0)", .mov .r0 (.immediate 0), .mov .r7 (.immediate 1), .kernel]

def statements (p : Program) : List (Line Statement) :=
  prologue ++ template.write {} p ++ epilogue

def artifact (p : Program) : String :=
  linesText Statement.text (statements p)

end TapeCompiler.Arm
