import TapeCompiler.Layout.Line
import TapeCompiler.Layout.Template
import TapeCompiler.Machine.Tape

/-!
# LLVM intermediate code

The program becomes the `main` function of an LLVM module that calls `putchar` and
`getchar`. Every value has a name of its own, made from a number. The pointer lives in
a stack slot and is loaded again for every command.

`Llvm.statements` is the artifact as data, and `Llvm.artifact` is its text.
-/

namespace TapeCompiler.Llvm

/-- The labels of a loop, named by the first number of the loop. -/
inductive Label where
  | test (name : Nat)
  | body (name : Nat)
  | finish (name : Nat)
deriving DecidableEq, Repr, Inhabited

/-- A line of the module. Values are given by their numbers. -/
inductive Statement where
  /-- A line outside of the blocks of the function. -/
  | declaration (text : String)
  | entry
  | label (l : Label)
  | allocTape (dest : Nat)
  | allocPointer (dest : Nat)
  | zeroTape (tape : Nat)
  | firstCell (dest tape : Nat)
  | loadPointer (dest slot : Nat)
  | storePointer (pointer slot : Nat)
  | offset (dest pointer : Nat) (amount : Int)
  | loadByte (dest pointer : Nat)
  | storeByte (byte pointer : Nat)
  | storeZero (pointer : Nat)
  | addByte (dest byte : Nat) (n : Int)
  | isNonZero (dest byte : Nat)
  | widen (dest byte : Nat)
  | narrow (dest word : Nat)
  | putchar (dest word : Nat)
  | getchar (dest : Nat)
  /-- Whether a word that was read means the end of the input. -/
  | isEnd (dest word : Nat)
  /-- The first byte if the condition holds, else the second. -/
  | select (dest condition byte byte' : Nat)
  | branch (l : Label)
  | branchIf (condition : Nat) (l l' : Label)
  | ret
deriving DecidableEq, Repr, Inhabited

def valueText (n : Nat) : String :=
  "%t" ++ toString n

def Label.text : Label → String
  | test name => "t" ++ toString name
  | body name => "t" ++ toString name ++ ".body"
  | finish name => "t" ++ toString name ++ ".end"

def definition (dest : Nat) (text : String) : String :=
  valueText dest ++ " = " ++ text

def Statement.text : Statement → String
  | declaration text => text
  | entry => "entry:"
  | label l => l.text ++ ":"
  | allocTape dest =>
      definition dest ("alloca [" ++ toString Tape.standardLength ++ " x i8], align 16")
  | allocPointer dest => definition dest "alloca ptr, align 8"
  | zeroTape tape =>
      "call void @llvm.memset.p0.i64(ptr align 16 " ++ valueText tape ++ ", i8 0, i64 " ++
        toString Tape.standardLength ++ ", i1 false)"
  | firstCell dest tape =>
      definition dest ("getelementptr inbounds [" ++ toString Tape.standardLength ++
        " x i8], ptr " ++ valueText tape ++ ", i64 0, i64 0")
  | loadPointer dest slot => definition dest ("load ptr, ptr " ++ valueText slot ++ ", align 8")
  | storePointer pointer slot =>
      "store ptr " ++ valueText pointer ++ ", ptr " ++ valueText slot ++ ", align 8"
  | offset dest pointer amount =>
      definition dest ("getelementptr inbounds i8, ptr " ++ valueText pointer ++ ", i64 " ++
        toString amount)
  | loadByte dest pointer => definition dest ("load i8, ptr " ++ valueText pointer ++ ", align 1")
  | storeByte byte pointer =>
      "store i8 " ++ valueText byte ++ ", ptr " ++ valueText pointer ++ ", align 1"
  | storeZero pointer => "store i8 0, ptr " ++ valueText pointer ++ ", align 1"
  | addByte dest byte n => definition dest ("add i8 " ++ valueText byte ++ ", " ++ toString n)
  | isNonZero dest byte => definition dest ("icmp ne i8 " ++ valueText byte ++ ", 0")
  | widen dest byte => definition dest ("zext i8 " ++ valueText byte ++ " to i32")
  | narrow dest word => definition dest ("trunc i32 " ++ valueText word ++ " to i8")
  | putchar dest word => definition dest ("call i32 @putchar(i32 " ++ valueText word ++ ")")
  | getchar dest => definition dest "call i32 @getchar()"
  | isEnd dest word => definition dest ("icmp eq i32 " ++ valueText word ++ ", -1")
  | select dest condition byte byte' =>
      definition dest ("select i1 " ++ valueText condition ++ ", i8 " ++ valueText byte ++
        ", i8 " ++ valueText byte')
  | branch l => "br label %" ++ l.text
  | branchIf condition l l' =>
      "br i1 " ++ valueText condition ++ ", label %" ++ l.text ++ ", label %" ++ l'.text
  | ret => "ret i32 0"

abbrev tape : Nat := 0

abbrev slot : Nat := 1

/-- The statements of a command, whose values have the numbers from `n` on. At the end
of the input a read stores the value that the cell has. -/
def commandStatements (n : Nat) : Command → List Statement
  | .move amount =>
      [.loadPointer n slot, .offset (n + 1) n amount, .storePointer (n + 1) slot]
  | .add amount =>
      [.loadPointer n slot, .loadByte (n + 1) n,
        .addByte (n + 2) (n + 1) (signedStep amount), .storeByte (n + 2) n]
  | .clear => [.loadPointer n slot, .storeZero n]
  | .print =>
      [.loadPointer n slot, .loadByte (n + 1) n, .widen (n + 2) (n + 1),
        .putchar (n + 3) (n + 2)]
  | .read =>
      [.getchar n, .isEnd (n + 1) n, .loadPointer (n + 2) slot, .loadByte (n + 3) (n + 2),
        .narrow (n + 4) n, .select (n + 5) (n + 1) (n + 3) (n + 4),
        .storeByte (n + 5) (n + 2)]

/-- How many values a command makes. -/
def commandValues : Command → Nat
  | .move _ => 2
  | .add _ => 3
  | .clear => 1
  | .print => 4
  | .read => 6

/-- The statements of the body of the program. All of them are one level deep but the
labels. A loop uses one number for its labels and three for the values of its test. -/
def template : Template (Line Statement) where
  command := fun place c => linesAt 1 (commandStatements place.number c)
  opening := fun place _ =>
    let n := place.number
    [⟨1, .branch (.test n)⟩,
      ⟨0, .label (.test n)⟩,
      ⟨1, .loadPointer (n + 1) slot⟩,
      ⟨1, .loadByte (n + 2) (n + 1)⟩,
      ⟨1, .isNonZero (n + 3) (n + 2)⟩,
      ⟨1, .branchIf (n + 3) (.body n) (.finish n)⟩,
      ⟨0, .label (.body n)⟩]
  closing := fun place _ =>
    let n := place.number
    [⟨1, .branch (.test n)⟩, ⟨0, .label (.finish n)⟩]
  commandNumbers := commandValues
  loopNumbers := 4

def prologue : List (Line Statement) :=
  linesAt 0
    [.declaration
        "declare void @llvm.memset.p0.i64(ptr nocapture writeonly, i8, i64, i1 immarg)",
      .declaration "declare i32 @putchar(i32)",
      .declaration "declare i32 @getchar()",
      .declaration "",
      .declaration "define i32 @main() \x7b",
      .entry] ++
  linesAt 1
    [.allocTape tape, .allocPointer slot, .zeroTape tape, .firstCell 2 tape,
      .storePointer 2 slot]

def epilogue : List (Line Statement) :=
  [⟨1, .ret⟩, ⟨0, .declaration "\x7d"⟩]

def statements (p : Program) : List (Line Statement) :=
  prologue ++ template.write { number := 3 } p ++ epilogue

def artifact (p : Program) : String :=
  linesText Statement.text (statements p)

end TapeCompiler.Llvm
