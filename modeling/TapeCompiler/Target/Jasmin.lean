import TapeCompiler.Layout.Line
import TapeCompiler.Layout.Template
import TapeCompiler.Machine.Tape

/-!
# Jasmin assembly

The program becomes the `main` method of a class for the Java virtual machine, written
for the Jasmin assembler. The tape is a byte array in local variable 1, the pointer is
local variable 2, and local variable 3 takes what was read.

`Jasmin.instructions` is the artifact as data, and `Jasmin.artifact` is its text.
-/

namespace TapeCompiler.Jasmin

inductive Slot where
  | tape
  | pointer
  | input
deriving DecidableEq, Repr, Inhabited

/-- The labels of a loop, named by its id, and the label behind a read. -/
inductive Label where
  | start (id : Nat)
  | finish (id : Nat)
  | skip (number : Nat)
deriving DecidableEq, Repr, Inhabited

inductive Instruction where
  /-- A line that says something about the class or the method. -/
  | directive (text : String)
  | label (l : Label)
  | push (n : Int)
  | newArray
  | loadArray (slot : Slot)
  | storeArray (slot : Slot)
  | loadInt (slot : Slot)
  | storeInt (slot : Slot)
  | increment (step : Int)
  | dup2
  | loadByte
  | storeByte
  | addInt
  | toByte
  | ifZero (l : Label)
  | ifNegative (l : Label)
  | goto (l : Label)
  | output
  | input
  | callWrite
  | callRead
  | callFlush
  | return
deriving DecidableEq, Repr, Inhabited

/-- How the number of a local variable is attached to an instruction. -/
def Slot.suffix : Slot → String
  | tape => "_1"
  | pointer => "_2"
  | input => " 3"

def Label.text : Label → String
  | start id => "Lstart_" ++ toString id
  | finish id => "Lend_" ++ toString id
  | skip number => "Leof_" ++ toString number

/-- The shortest instruction that pushes a constant. -/
def pushText (n : Int) : String :=
  if n = -1 then "iconst_m1"
  else if 0 ≤ n ∧ n ≤ 5 then "iconst_" ++ toString n
  else if -128 ≤ n ∧ n ≤ 127 then "bipush " ++ toString n
  else if -32768 ≤ n ∧ n ≤ 32767 then "sipush " ++ toString n
  else "ldc " ++ toString n

def Instruction.text : Instruction → String
  | directive text => text
  | label l => l.text ++ ":"
  | push n => pushText n
  | newArray => "newarray byte"
  | loadArray slot => "aload" ++ slot.suffix
  | storeArray slot => "astore" ++ slot.suffix
  | loadInt slot => "iload" ++ slot.suffix
  | storeInt slot => "istore" ++ slot.suffix
  | increment step => "iinc 2 " ++ toString step
  | dup2 => "dup2"
  | loadByte => "baload"
  | storeByte => "bastore"
  | addInt => "iadd"
  | toByte => "i2b"
  | ifZero l => "ifeq " ++ l.text
  | ifNegative l => "iflt " ++ l.text
  | goto l => "goto " ++ l.text
  | output => "getstatic java/lang/System/out Ljava/io/PrintStream;"
  | input => "getstatic java/lang/System/in Ljava/io/InputStream;"
  | callWrite => "invokevirtual java/io/PrintStream/write(I)V"
  | callRead => "invokevirtual java/io/InputStream/read()I"
  | callFlush => "invokevirtual java/io/PrintStream/flush()V"
  | .return => "return"

/-- The steps of a move. A step is a signed word of 16 bits, so all steps but the last
are as long as such a word allows. -/
def moveSteps (amount : Int) : List Int :=
  let longest : Int := if amount < 0 then -32768 else 32767
  let count := amount.natAbs / longest.natAbs
  let last := amount - count * longest
  List.replicate count longest ++ if last = 0 then [] else [last]

def cellAddress : List Instruction :=
  [.loadArray .tape, .loadInt .pointer]

/-- The instructions of a command. A read that finds the end of the input gets a negative
number and skips the store. -/
def commandInstructions (number : Nat) : Command → List Instruction
  | .move amount => (moveSteps amount).map .increment
  | .add amount =>
      cellAddress ++
        [.dup2, .loadByte, .push (signedStep amount), .addInt, .toByte, .storeByte]
  | .clear => cellAddress ++ [.push 0, .storeByte]
  | .print => .output :: cellAddress ++ [.loadByte, .callWrite]
  | .read =>
      [.input, .callRead, .storeInt .input, .loadInt .input, .ifNegative (.skip number)] ++
        cellAddress ++ [.loadInt .input, .toByte, .storeByte, .label (.skip number)]

/-- Instructions of equal depth, in which labels are not indented. -/
def placed (depth : Nat) (instructions : List Instruction) : List (Line Instruction) :=
  instructions.map fun
    | .label l => ⟨0, .label l⟩
    | i => ⟨depth, i⟩

/-- The instructions of the body of the program, which is one level deep. Every read uses
a number for its label. -/
def template : Template (Line Instruction) where
  command := fun place c =>
    placed (place.depth + 1) (commandInstructions place.number c)
  opening := fun place id =>
    placed (place.depth + 1)
      (.label (.start id) :: cellAddress ++ [.loadByte, .ifZero (.finish id)])
  closing := fun place id =>
    placed (place.depth + 1) [.goto (.start id), .label (.finish id)]
  commandNumbers := fun
    | .read => 1
    | _ => 0

def prologue : List (Line Instruction) :=
  linesAt 0
    [.directive ".class public Main", .directive ".super java/lang/Object", .directive "",
      .directive ".method public static main([Ljava/lang/String;)V"] ++
  linesAt 1
    [.directive ".limit stack 6", .directive ".limit locals 4",
      .push Tape.standardLength, .newArray, .storeArray .tape, .push 0, .storeInt .pointer]

def epilogue : List (Line Instruction) :=
  linesAt 1 [.output, .callFlush, .return] ++ [⟨0, .directive ".end method"⟩]

def instructions (p : Program) : List (Line Instruction) :=
  prologue ++ template.write {} p ++ epilogue

def artifact (p : Program) : String :=
  linesText Instruction.text (instructions p)

end TapeCompiler.Jasmin
