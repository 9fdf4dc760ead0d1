/-!
# Lines of text

A `Line` is something to be written on a line of its own, and how deep it is indented.
A level of indentation is four blanks, and an empty line is not indented. `linesOf`
cuts a text into lines: a line ends with a line feed, or with a carriage return and a
line feed, and what is left behind the last line feed is a line unless it is empty.
-/

namespace TapeCompiler

/-- Something on a line of its own, and how deep it is indented. -/
structure Line (α : Type) where
  depth : Nat
  content : α
deriving DecidableEq, Repr, Inhabited

/-- The text of a line with its indentation and its line feed. -/
def lineText (depth : Nat) (text : String) : String :=
  if text.isEmpty then "\n"
  else String.ofList (List.replicate (4 * depth) ' ') ++ text ++ "\n"

/-- The text of lines whose contents are written by `write`. -/
def linesText {α : Type} (write : α → String) (lines : List (Line α)) : String :=
  String.join (lines.map fun line => lineText line.depth (write line.content))

def linesAt {α : Type} (depth : Nat) (contents : List α) : List (Line α) :=
  contents.map (Line.mk depth)

/-- A line read backwards without the carriage return at its end. -/
def dropReturn : List Char → List Char
  | '\r' :: line => line
  | line => line

/-- The lines of a text, where `line` is read before the text, the last character
first. -/
def linesFrom (line : List Char) : List Char → List String
  | [] => if line.isEmpty then [] else [String.ofList line.reverse]
  | '\n' :: rest => String.ofList (dropReturn line).reverse :: linesFrom [] rest
  | c :: rest => linesFrom (c :: line) rest

def linesOf (text : String) : List String :=
  linesFrom [] text.toList

end TapeCompiler
