import TapeCompiler.Proofs.Assembly
import TapeCompiler.Proofs.Jasmin.Labels

/-!
# Running Jasmin assembly

The part of the Java virtual machine that the artifacts use: an operand stack, local
variables, arrays of signed bytes, and the two streams of the system. Integers have 32
bits and wrap. Whatever is not on the stack or in a variable as it should be, and an index
that is not in its array, make the method fail.

`Jasmin.Returns` says of a text that it is read back, and that running its method `main`
comes to the end of the method.
-/

namespace TapeCompiler.Jasmin

/-- What is on the stack and in the variables. -/
inductive Value where
  | int (n : Int32)
  /-- The array that was made as the one with a number. -/
  | array (number : Nat)
  | output
  | input
deriving DecidableEq, Repr

/-- The method while it runs, and what it has done so far. The top of the stack is its
first element. -/
structure Frame where
  stack : List Value := []
  locals : Slot → Option Value := fun _ => none
  arrays : Array (Array Int8) := #[]
  input : List UInt8
  output : Array UInt8 := #[]

inductive Result where
  | returned (frame : Frame)
  | failed (frame : Frame)

namespace Frame

def push (f : Frame) (value : Value) (stack : List Value) : Frame :=
  { f with stack := value :: stack }

def assign (f : Frame) (slot : Slot) (value : Value) (stack : List Value) : Frame :=
  { f with stack, locals := fun slot' => if slot' = slot then some value else f.locals slot' }

/-- The byte of an array at an index. -/
def byte? (f : Frame) (number : Nat) (index : Int32) : Option Int8 :=
  if 0 ≤ index then (f.arrays[number]?).bind (·[index.toInt.toNat]?) else none

def setByte (f : Frame) (number : Nat) (index : Int32) (value : Int8) (stack : List Value) :
    Frame :=
  { f with
    stack
    arrays := f.arrays.modify number (·.setIfInBounds index.toInt.toNat value) }

end Frame

/-- What an instruction does, given what is on the stack. -/
def Instruction.effect (i : Instruction) (f : Frame) : Flow Label Frame Result :=
  match i, f.stack with
  | directive _, _ => .next f
  | label _, _ => .next f
  | push n, stack => .next (f.push (.int (Int32.ofInt n)) stack)
  | newArray, .int n :: stack =>
      if 0 ≤ n then
        .next { f.push (.array f.arrays.size) stack with
          arrays := f.arrays.push (Array.replicate n.toInt.toNat 0) }
      else .stop (.failed f)
  | loadArray slot, stack =>
      match f.locals slot with
      | some (.array number) => .next (f.push (.array number) stack)
      | _ => .stop (.failed f)
  | storeArray slot, .array number :: stack => .next (f.assign slot (.array number) stack)
  | loadInt slot, stack =>
      match f.locals slot with
      | some (.int n) => .next (f.push (.int n) stack)
      | _ => .stop (.failed f)
  | storeInt slot, .int n :: stack => .next (f.assign slot (.int n) stack)
  | increment step, stack =>
      match f.locals .pointer with
      | some (.int n) => .next (f.assign .pointer (.int (n + Int32.ofInt step)) stack)
      | _ => .stop (.failed f)
  | dup2, x :: y :: stack => .next { f with stack := x :: y :: x :: y :: stack }
  | loadByte, .int index :: .array number :: stack =>
      match f.byte? number index with
      | some value => .next (f.push (.int value.toInt32) stack)
      | none => .stop (.failed f)
  | storeByte, .int n :: .int index :: .array number :: stack =>
      if (f.byte? number index).isSome then .next (f.setByte number index n.toInt8 stack)
      else .stop (.failed f)
  | addInt, .int y :: .int x :: stack => .next (f.push (.int (x + y)) stack)
  | toByte, .int n :: stack => .next (f.push (.int n.toInt8.toInt32) stack)
  | ifZero l, .int n :: stack =>
      if n = 0 then .jump l { f with stack } else .next { f with stack }
  | ifNegative l, .int n :: stack =>
      if n < 0 then .jump l { f with stack } else .next { f with stack }
  | goto l, _ => .jump l f
  | output, stack => .next (f.push .output stack)
  | input, stack => .next (f.push .input stack)
  | callWrite, .int n :: .output :: stack =>
      .next { f with stack, output := f.output.push n.toInt8.toUInt8 }
  | callRead, .input :: stack =>
      match f.input with
      | [] => .next (f.push (.int (-1)) stack)
      | value :: rest =>
          .next { f.push (.int (Int32.ofNat value.toNat)) stack with input := rest }
  | callFlush, .output :: stack => .next { f with stack }
  | .return, _ => .stop (.returned f)
  | _, _ => .stop (.failed f)

def assembly : Assembly Instruction Label Frame Result where
  label? := labelling.label?
  effect := Instruction.effect
  astray := .failed

/-- The start of the method `main`, with nothing on the stack. -/
def main? (code : List Instruction) (input : List UInt8) : Option (Position Frame) :=
  (code.findIdx? (· = .directive ".method public static main([Ljava/lang/String;)V")).map
    fun place => ⟨place + 1, { input }⟩

/-- The place where the method `main` of an artifact starts. -/
theorem main?_program (p : Program) (input : List UInt8) :
    main? (program p) input = some ⟨4, { input }⟩ := by
  have hmain : (program p).findIdx?
      (· = .directive ".method public static main([Ljava/lang/String;)V") = some 3 := by
    rw [program, List.append_assoc, List.findIdx?_append]
    rfl
  rw [main?, hmain]
  rfl

/-- The cells of an array, as bytes without a sign. -/
def Frame.cells? (f : Frame) (slot : Slot) : Option (Array UInt8) :=
  match f.locals slot with
  | some (.array number) => (f.arrays[number]?).map (·.map Int8.toUInt8)
  | _ => none

/-- Running the method `main` of a code on `input` comes to its end. By then `output` was
written, and the array in the first variable holds `cells`. -/
def Returns (code : List Instruction) (input : List UInt8) (output cells : Array UInt8) : Prop :=
  ∃ start final, main? code input = some start ∧
    Transition.Ends (assembly.step code) start (.returned final) ∧
    final.output = output ∧ final.cells? .tape = some cells

end TapeCompiler.Jasmin
