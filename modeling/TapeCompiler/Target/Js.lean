import TapeCompiler.Layout.Line
import TapeCompiler.Layout.Template
import TapeCompiler.Machine.Tape

/-!
# JavaScript source

The program becomes a script for Node.js that takes its input from the arguments of the
script. `Js.lines` is the artifact line by line, and `Js.artifact` is its text.
-/

namespace TapeCompiler.Js

/-- The statement of a command. -/
def commandText : Command → String
  | .move amount => "ptr += " ++ toString amount
  | .add amount => "memory[ptr] += " ++ toString (stepByte amount).toNat
  | .clear => "memory[ptr] = 0"
  | .print => "output.push(memory[ptr])"
  | .read => "if (inputPos < input.length) memory[ptr] = input[inputPos++]"

def template : Template (Line String) where
  command := fun place c => [⟨place.depth, commandText c⟩]
  opening := fun place _ => [⟨place.depth, "while (memory[ptr]) \x7b"⟩]
  closing := fun place _ => [⟨place.depth, "\x7d"⟩]

/-- What stands before the body. The array of bytes wraps by itself. -/
def prologue : List (Line String) :=
  linesAt 0
    ["#!/usr/bin/env node",
      "'use strict'",
      "const memory = new Uint8Array(" ++ toString Tape.standardLength ++ ")",
      "const input = Buffer.from(process.argv.slice(2).join(''))",
      "const output = []",
      "let inputPos = 0",
      "let ptr = 0"]

def epilogue : List (Line String) :=
  [⟨0, "process.stdout.write(Buffer.from(output))"⟩]

/-- The lines of the script of a program. -/
def lines (p : Program) : List (Line String) :=
  prologue ++ template.write {} p ++ epilogue

/-- The script of a program. -/
def artifact (p : Program) : String :=
  linesText id (lines p)

end TapeCompiler.Js
