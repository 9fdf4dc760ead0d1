import TapeCompiler.Layout.Line
import TapeCompiler.Layout.Template
import TapeCompiler.Machine.Tape

/-!
# WebAssembly text

The program becomes a WebAssembly module that reads and writes through WASI. A loop is a
`loop` in a `block`: a branch to the `loop` repeats it, a branch to the `block` leaves
it. A branch says how many open blocks and loops lie between it and its aim, so
`branchDepth` looks the aim up among the `frames` around the branch.

`Wasm.statements` is the artifact as data, and `Wasm.artifact` is its text.
-/

namespace TapeCompiler.Wasm

/-- Something that is open around a statement, named by the id of its loop. -/
inductive Frame where
  /-- The `block` around the loop. A branch to it leaves the loop. -/
  | exit (id : Nat)
  /-- The `loop`. A branch to it repeats the loop. -/
  | again (id : Nat)
deriving DecidableEq, Repr, Inhabited

inductive Statement where
  /-- A line that opens nothing and branches nowhere. -/
  | plain (text : String)
  | enter (frame : Frame)
  /-- Close the frame that was opened last. -/
  | close
  | branch (depth : Nat)
  /-- Branch if the word on the stack is not zero. -/
  | branchIf (depth : Nat)
deriving DecidableEq, Repr, Inhabited

def Statement.text : Statement → String
  | plain text => text
  | enter (.exit id) => "block ;; exit " ++ toString id
  | enter (.again id) => "loop ;; loop " ++ toString id
  | close => "end"
  | branch depth => "br " ++ toString depth
  | branchIf depth => "br_if " ++ toString depth

/-- The frames that are open in the loops with the given ids. The innermost loop and
the innermost frame come first. -/
def frames (enclosing : List Nat) : List Frame :=
  enclosing.flatMap fun id => [.again id, .exit id]

/-- How many frames lie between a branch in the given loops and its aim. -/
def branchDepth (enclosing : List Nat) (aim : Frame) : Nat :=
  (frames enclosing).idxOf aim

/-- The address of the record that tells WASI where a byte is. It stands behind the
tape: four bytes for the address and four for the length. -/
def recordAddress : Nat := Tape.standardLength

def lengthAddress : Nat := recordAddress + 4

/-- The address at which WASI says how many bytes it read or wrote. -/
def countAddress : Nat := recordAddress + 8

/-- A WASI call for the byte at the pointer. -/
def streamCall (function : String) (file : Nat) : List Statement :=
  [.plain ";; point the iovec at the current cell, the length is always 1",
    .plain ("(i32.store (i32.const " ++ toString recordAddress ++ ") (local.get $ptr))"),
    .plain ("(call $" ++ function ++ " (i32.const " ++ toString file ++ ") (i32.const " ++
      toString recordAddress ++ ") (i32.const 1) (i32.const " ++ toString countAddress ++ "))"),
    .plain "drop"]

/-- The statements of a command. At the end of the input WASI stores no byte, so the cell
keeps its value. -/
def commandStatements : Command → List Statement
  | .move amount =>
      [.plain "local.get $ptr", .plain ("i32.const " ++ toString amount), .plain "i32.add",
        .plain "local.set $ptr"]
  | .add amount =>
      [.plain "local.get $ptr", .plain "local.get $ptr", .plain "i32.load8_u",
        .plain ("i32.const " ++ toString (stepByte amount).toNat), .plain "i32.add",
        .plain "i32.store8"]
  | .clear => [.plain "(i32.store8 (local.get $ptr) (i32.const 0))"]
  | .print => streamCall "fd_write" 1
  | .read => streamCall "fd_read" 0

/-- How deep the statements at a place are indented: two levels for the module and the
function, and two for every loop. -/
def bodyDepth (place : Place) : Nat :=
  2 + 2 * place.depth

def template : Template (Line Statement) where
  command := fun place c => linesAt (bodyDepth place) (commandStatements c)
  opening := fun place id =>
    let inside := place.enter id
    [⟨bodyDepth place, .enter (.exit id)⟩, ⟨bodyDepth place + 1, .enter (.again id)⟩] ++
      linesAt (bodyDepth inside)
        [.plain "(i32.load8_u (local.get $ptr))", .plain "i32.eqz",
          .branchIf (branchDepth inside.enclosing (.exit id))]
  closing := fun place id =>
    let inside := place.enter id
    [⟨bodyDepth inside, .branch (branchDepth inside.enclosing (.again id))⟩,
      ⟨bodyDepth place + 1, .close⟩, ⟨bodyDepth place, .close⟩]

def prologue : List (Line Statement) :=
  [⟨0, .plain "(module"⟩] ++
  linesAt 1
    [.plain ";; fd_write(fd, iovec_addr, iovec_count, bytes_written_addr)",
      .plain ("(import \"wasi_unstable\" \"fd_write\" " ++
        "(func $fd_write (param i32 i32 i32 i32) (result i32)))"),
      .plain ";; fd_read(fd, iovec_addr, iovec_count, bytes_read_addr)",
      .plain ("(import \"wasi_unstable\" \"fd_read\" " ++
        "(func $fd_read (param i32 i32 i32 i32) (result i32)))"),
      .plain "(import \"wasi_unstable\" \"proc_exit\" (func $proc_exit (param i32)))",
      .plain "",
      .plain "(memory 1)",
      .plain "",
      .plain "(func $_start (local $ptr i32)"] ++
  [⟨2, .plain ("(i32.store (i32.const " ++ toString lengthAddress ++ ") (i32.const 1))")⟩]

def epilogue : List (Line Statement) :=
  [⟨2, .plain "(call $proc_exit (i32.const 0))"⟩] ++
  linesAt 1
    [.plain ")",
      .plain "",
      .plain "(export \"memory\" (memory 0))",
      .plain "(export \"_start\" (func $_start))"] ++
  [⟨0, .plain ")"⟩]

def statements (p : Program) : List (Line Statement) :=
  prologue ++ template.write {} p ++ epilogue

def artifact (p : Program) : String :=
  linesText Statement.text (statements p)

end TapeCompiler.Wasm
