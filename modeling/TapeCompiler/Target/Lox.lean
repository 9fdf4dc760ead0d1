import TapeCompiler.Layout.Line
import TapeCompiler.Layout.Template
import TapeCompiler.Machine.Tape

/-!
# Lox source

The program becomes a Lox script. Lox has no arrays, so the tape is a linked list of
cells, and it cannot read, so the input is part of the script. Cells are inserted at the
front of a list, and for that reason the input is inserted backwards.

`Lox.lines` is the artifact line by line, and `Lox.artifact` is its text.
-/

namespace TapeCompiler.Lox

/-- The classes that every script starts with. -/
def classes : List (Line String) :=
  [⟨0, "class Cell \x7b\x7d"⟩,
    ⟨0, ""⟩,
    ⟨0, "class Memory \x7b"⟩,
    ⟨1, "init(size) \x7b"⟩,
    ⟨2, "this.current = nil;"⟩,
    ⟨2, "var i = 0;"⟩,
    ⟨2, "while (i < size) \x7b"⟩,
    ⟨3, "this.insert(0);"⟩,
    ⟨3, "i = i + 1;"⟩,
    ⟨2, "\x7d"⟩,
    ⟨1, "\x7d"⟩,
    ⟨0, ""⟩,
    ⟨1, "// Inserts a new cell at the beginning of the list."⟩,
    ⟨1, "insert(value) \x7b"⟩,
    ⟨2, "var cell = Cell();"⟩,
    ⟨2, "cell.value = value;"⟩,
    ⟨2, "cell.next = this.current;"⟩,
    ⟨2, "cell.prev = nil;"⟩,
    ⟨2, "if (this.current != nil) this.current.prev = cell;"⟩,
    ⟨2, "this.current = cell;"⟩,
    ⟨1, "\x7d"⟩,
    ⟨0, ""⟩,
    ⟨1, "// Moves the current cell left (-amount) or right (+amount)."⟩,
    ⟨1, "move(amount) \x7b"⟩,
    ⟨2, "var i = 0;"⟩,
    ⟨2, "while (i < amount) \x7b"⟩,
    ⟨3, "this.current = this.current.next;"⟩,
    ⟨3, "i = i + 1;"⟩,
    ⟨2, "\x7d"⟩,
    ⟨2, "while (i > amount) \x7b"⟩,
    ⟨3, "this.current = this.current.prev;"⟩,
    ⟨3, "i = i - 1;"⟩,
    ⟨2, "\x7d"⟩,
    ⟨1, "\x7d"⟩,
    ⟨0, ""⟩,
    ⟨1, "get() \x7b return this.current.value; \x7d"⟩,
    ⟨1, "set(value) \x7b this.current.value = value; \x7d"⟩,
    ⟨0, ""⟩,
    ⟨1, "// Cells hold a byte, amounts are always 0..255."⟩,
    ⟨1, "add(value) \x7b"⟩,
    ⟨2, "var sum = this.current.value + value;"⟩,
    ⟨2, "if (sum > 255) sum = sum - 256;"⟩,
    ⟨2, "this.current.value = sum;"⟩,
    ⟨1, "\x7d"⟩,
    ⟨0, ""⟩,
    ⟨1, "atEnd() \x7b return this.current == nil; \x7d"⟩,
    ⟨0, "\x7d"⟩]

/-- The statement of a command. -/
def commandText : Command → String
  | .move amount => "memory.move(" ++ toString amount ++ ");"
  | .add amount => "memory.add(" ++ toString (stepByte amount).toNat ++ ");"
  | .clear => "memory.set(0);"
  | .print => "print memory.get();"
  | .read => "if (!input.atEnd()) \x7b memory.set(input.get()); input.move(1); \x7d"

def template : Template (Line String) where
  command := fun place c => [⟨place.depth, commandText c⟩]
  opening := fun place _ => [⟨place.depth, "while (memory.get() != 0) \x7b"⟩]
  closing := fun place _ => [⟨place.depth, "\x7d"⟩]

/-- What stands before the body, where the input is given by its bytes. -/
def prologue (input : List UInt8) : List (Line String) :=
  classes ++
  linesAt 0
    (["", "var input = Memory(0);"] ++
      input.reverse.map (fun byte => "input.insert(" ++ toString byte.toNat ++ ");") ++
      ["var memory = Memory(" ++ toString Tape.standardLength ++ ");", ""])

/-- The lines of the script of a program. -/
def lines (input : String) (p : Program) : List (Line String) :=
  prologue input.toUTF8.toList ++ template.write {} p

/-- The script of a program that reads the given input. -/
def artifact (input : String) (p : Program) : String :=
  linesText id (lines input p)

end TapeCompiler.Lox
