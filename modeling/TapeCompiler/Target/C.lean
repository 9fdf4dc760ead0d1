import TapeCompiler.Layout.Line
import TapeCompiler.Layout.Template
import TapeCompiler.Machine.Tape

/-!
# C source

The program becomes the `main` function of a C program. `C.lines` is the artifact line by
line, and `C.artifact` is its text.
-/

namespace TapeCompiler.C

/-- The statement of a command. -/
def commandText : Command → String
  | .move amount => "ptr += " ++ toString amount ++ ";"
  | .add amount => "*ptr += " ++ toString (stepByte amount).toNat ++ ";"
  | .clear => "*ptr = 0;"
  | .print => "putchar(*ptr);"
  | .read => "if ((c = getchar()) != EOF) *ptr = (unsigned char)c;"

/-- The statements of the body of the program, which is one level deep. -/
def template : Template (Line String) where
  command := fun place c => [⟨place.depth + 1, commandText c⟩]
  opening := fun place _ => [⟨place.depth + 1, "while (*ptr) \x7b"⟩]
  closing := fun place _ => [⟨place.depth + 1, "\x7d"⟩]

def prologue : List (Line String) :=
  linesAt 0 ["#include <stdio.h>", "", "int main(void) \x7b"] ++
  linesAt 1
    ["static unsigned char memory[" ++ toString Tape.standardLength ++ "];",
      "unsigned char *ptr = memory;",
      "int c;"]

def epilogue : List (Line String) :=
  [⟨1, "return 0;"⟩, ⟨0, "\x7d"⟩]

/-- The lines of the source of a program. -/
def lines (p : Program) : List (Line String) :=
  prologue ++ template.write {} p ++ epilogue

/-- The source of a program. -/
def artifact (p : Program) : String :=
  linesText id (lines p)

end TapeCompiler.C
