import TapeCompiler.Layout.Line
import TapeCompiler.Layout.Template
import TapeCompiler.Machine.Tape

/-!
# Smali assembly

The program becomes the `main` method of a class for the Dalvik virtual machine. Register
`v0` holds the tape, `v1` the pointer, `v2` a cell on its way and `v3` the amount of a
move that is too large for an instruction. Two more methods write and read a byte.

`Smali.instructions` is the method as data, and `Smali.artifact` is the text of the class.
-/

namespace TapeCompiler.Smali

inductive Register where
  | tape
  | pointer
  | value
  | scratch
deriving DecidableEq, Repr, Inhabited

/-- The labels of a loop, named by its id, and the label behind a read. -/
inductive Label where
  | start (id : Nat)
  | finish (id : Nat)
  | skip (number : Nat)
deriving DecidableEq, Repr, Inhabited

inductive Instruction where
  /-- A line that says something about the class or the method. -/
  | directive (text : String)
  | label (l : Label)
  | const4 (dest : Register) (n : Int)
  | const16 (dest : Register) (n : Int)
  | const (dest : Register) (n : Int)
  /-- Make a byte array whose length is in `length`. -/
  | newArray (dest length : Register)
  | addConst8 (dest r : Register) (n : Int)
  | addConst16 (dest r : Register) (n : Int)
  | add (dest r s : Register)
  | toByte (dest r : Register)
  | loadByte (dest array index : Register)
  | storeByte (of array index : Register)
  | ifZero (r : Register) (l : Label)
  | ifNegative (r : Register) (l : Label)
  | goto (l : Label)
  | callPrint (r : Register)
  | callRead
  | result (dest : Register)
  | output (dest : Register)
  | callFlush (r : Register)
  | return
deriving DecidableEq, Repr, Inhabited

def Register.text : Register → String
  | tape => "v0"
  | pointer => "v1"
  | value => "v2"
  | scratch => "v3"

def Label.text : Label → String
  | start id => ":start_" ++ toString id
  | finish id => ":end_" ++ toString id
  | skip number => ":eof_" ++ toString number

def operands (rs : List Register) : String :=
  ", ".intercalate (rs.map Register.text)

def Instruction.text : Instruction → String
  | directive text => text
  | label l => l.text
  | const4 dest n => "const/4 " ++ dest.text ++ ", " ++ toString n
  | const16 dest n => "const/16 " ++ dest.text ++ ", " ++ toString n
  | const dest n => "const " ++ dest.text ++ ", " ++ toString n
  | newArray dest length => "new-array " ++ operands [dest, length] ++ ", [B"
  | addConst8 dest r n => "add-int/lit8 " ++ operands [dest, r] ++ ", " ++ toString n
  | addConst16 dest r n => "add-int/lit16 " ++ operands [dest, r] ++ ", " ++ toString n
  | add dest r s => "add-int " ++ operands [dest, r, s]
  | toByte dest r => "int-to-byte " ++ operands [dest, r]
  | loadByte dest array index => "aget-byte " ++ operands [dest, array, index]
  | storeByte of array index => "aput-byte " ++ operands [of, array, index]
  | ifZero r l => "if-eqz " ++ r.text ++ ", " ++ l.text
  | ifNegative r l => "if-ltz " ++ r.text ++ ", " ++ l.text
  | goto l => "goto " ++ l.text
  | callPrint r => "invoke-static \x7b" ++ r.text ++ "\x7d, LMain;->print(B)V"
  | callRead => "invoke-static \x7b\x7d, LMain;->read()I"
  | result dest => "move-result " ++ dest.text
  | output dest => "sget-object " ++ dest.text ++ ", Ljava/lang/System;->out:Ljava/io/PrintStream;"
  | callFlush r =>
      "invoke-virtual \x7b" ++ r.text ++ "\x7d, Ljava/io/PrintStream;->flush()V"
  | .return => "return-void"

/-- A move. The short form takes a signed constant of 16 bits. -/
def moveInstructions (amount : Int) : List Instruction :=
  if -32768 ≤ amount ∧ amount ≤ 32767 then [.addConst16 .pointer .pointer amount]
  else [.const .scratch amount, .add .pointer .pointer .scratch]

/-- The instructions of a command. A read that finds the end of the input gets a negative
number and skips the store. -/
def commandInstructions (number : Nat) : Command → List Instruction
  | .move amount => moveInstructions amount
  | .add amount =>
      [.loadByte .value .tape .pointer, .addConst8 .value .value (signedStep amount),
        .toByte .value .value, .storeByte .value .tape .pointer]
  | .clear => [.const4 .value 0, .storeByte .value .tape .pointer]
  | .print => [.loadByte .value .tape .pointer, .callPrint .value]
  | .read =>
      [.callRead, .result .value, .ifNegative .value (.skip number),
        .storeByte .value .tape .pointer, .label (.skip number)]

/-- The instructions of the body of the program, which is one level deep. Every read uses
a number for its label. -/
def template : Template (Line Instruction) where
  command := fun place c =>
    linesAt (place.depth + 1) (commandInstructions place.number c)
  opening := fun place id =>
    linesAt (place.depth + 1)
      [.label (.start id), .loadByte .value .tape .pointer, .ifZero .value (.finish id)]
  closing := fun place id =>
    linesAt (place.depth + 1) [.goto (.start id), .label (.finish id)]
  commandNumbers := fun
    | .read => 1
    | _ => 0

def prologue : List (Line Instruction) :=
  linesAt 0
    [.directive ".class public LMain;", .directive ".super Ljava/lang/Object;",
      .directive "", .directive ".method public static main([Ljava/lang/String;)V"] ++
  linesAt 1
    [.directive ".registers 5", .const16 .tape Tape.standardLength, .newArray .tape .tape,
      .const4 .pointer 0]

def epilogue : List (Line Instruction) :=
  linesAt 1 [.output .value, .callFlush .value, .return] ++
    linesAt 0 [.directive ".end method", .directive ""]

def instructions (p : Program) : List (Line Instruction) :=
  prologue ++ template.write {} p ++ epilogue

/-- The methods that write and read a byte. -/
def helpers : List (Line String) :=
  [⟨0, ".method public static print(B)V"⟩,
    ⟨1, ".registers 2"⟩,
    ⟨1, "sget-object v0, Ljava/lang/System;->out:Ljava/io/PrintStream;"⟩,
    ⟨1, "invoke-virtual \x7bv0, p0\x7d, Ljava/io/PrintStream;->write(I)V"⟩,
    ⟨1, "return-void"⟩,
    ⟨0, ".end method"⟩,
    ⟨0, ""⟩,
    ⟨0, ".method public static read()I"⟩,
    ⟨1, ".registers 1"⟩,
    ⟨1, "sget-object v0, Ljava/lang/System;->in:Ljava/io/InputStream;"⟩,
    ⟨1, "invoke-virtual \x7bv0\x7d, Ljava/io/InputStream;->read()I"⟩,
    ⟨1, "move-result v0"⟩,
    ⟨1, "return v0"⟩,
    ⟨0, ".end method"⟩]

def artifact (p : Program) : String :=
  linesText Instruction.text (instructions p) ++ linesText id helpers

end TapeCompiler.Smali
