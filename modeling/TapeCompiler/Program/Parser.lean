import TapeCompiler.Token.Cursor
import TapeCompiler.Program

/-!
# Reading programs from tokens

A `Parser` holds the tokens that are still to be read, the line of the last token it
took, and the number of the next loop. `Parser.readBlock` reads along the tokens with the
loops that are still open beside it, so a bracket is matched by taking the innermost open
loop off a list. `Parser.program` reads one program and says where the next reading goes
on, `Program.ofTokens` and `Program.ofSource` read a whole one.

A loop around a single `add` steps its cell until the cell is zero, whatever the cell
held, so `Node.ofBody` makes it a `clear`. Its number is used up all the same.
-/

namespace TapeCompiler

/-- How a list of brackets can fail to match. -/
inductive BracketFault where
  /-- A loop is closed that was not opened. -/
  | unexpectedClose
  /-- The tokens end inside a loop. -/
  | missingClose
deriving DecidableEq, Repr, Inhabited

/-- What is wrong with the brackets. -/
def BracketFault.text : BracketFault → String
  | unexpectedClose => "Unexpected ']'."
  | missingClose => "Expected matching ']'."

/-- A fault in a source text, and the line it was met on. -/
structure ParseError where
  fault : BracketFault
  line : Nat
deriving DecidableEq, Repr, Inhabited

/-- The message that reports a parse error. -/
def ParseError.message (e : ParseError) : String :=
  "Error encountered on line " ++ toString e.line ++ ": " ++ e.fault.text

/-- The command of a symbol that is no bracket. -/
def Symbol.command? : Symbol → Option Command
  | right => some (.move 1)
  | left => some (.move (-1))
  | plus => some (.add 1)
  | minus => some (.add (-1))
  | dot => some .print
  | comma => some .read
  | openLoop => none
  | closeLoop => none

/-- The node of a loop whose body is known. -/
def Node.ofBody (id : Nat) : List Node → Node
  | [.command (.add _)] => .command .clear
  | body => .loop id body

/-- A loop that was opened and not closed: its number, and the nodes before it in the
block around it, the last of them first. -/
structure OpenLoop where
  id : Nat
  before : List Node
deriving Repr, Inhabited

/-- A reading of programs from tokens. -/
structure Parser where
  tokens : List Token
  lastLine : Nat := 1
  nextId : Nat := 0
deriving DecidableEq, Repr, Inhabited

namespace Parser

/-- Where the tokens end, the program is complete if no loop is open. -/
def finish (line : Nat) (block : List Node) : List OpenLoop → Except ParseError Program
  | [] => .ok block.reverse
  | _ :: _ => .error ⟨.missingClose, line⟩

/-- Reads up to the end of the text, or to a bracket that closes nothing. `block` holds
the nodes of the innermost open block, the last of them first, and `loops` the open
loops, the innermost first. -/
def readBlock (block : List Node) (loops : List OpenLoop) (line nextId : Nat) :
    List Token → Except ParseError Program × Parser
  | [] => (finish line block loops, ⟨[], line, nextId⟩)
  | ⟨.endOfText, line⟩ :: rest => (finish line block loops, ⟨rest, line, nextId⟩)
  | ⟨.symbol .openLoop, line⟩ :: rest =>
      readBlock [] (⟨nextId, block⟩ :: loops) line (nextId + 1) rest
  | ⟨.symbol .closeLoop, line⟩ :: rest =>
      match loops with
      | [] => (.error ⟨.unexpectedClose, line⟩, ⟨rest, line, nextId⟩)
      | ⟨id, before⟩ :: loops =>
          readBlock (Node.ofBody id block.reverse :: before) loops line nextId rest
  | ⟨.symbol s, line⟩ :: rest =>
      readBlock (s.command?.toList.map .command ++ block) loops line nextId rest

/-- Reads one program, and goes on behind the token that ended it. -/
def program (parser : Parser) : Except ParseError Program × Parser :=
  readBlock [] [] parser.lastLine parser.nextId parser.tokens

/-- Reads `count` programs one behind the other. A fault ends a program like the end
of the text does. -/
def programs (parser : Parser) : Nat → List (Except ParseError Program)
  | 0 => []
  | count + 1 => parser.program.1 :: parser.program.2.programs count

end Parser

namespace Program

/-- The program that a list of tokens spells. -/
def ofTokens (tokens : List Token) : Except ParseError Program :=
  (Parser.program { tokens }).1

/-- The program that a source text spells. -/
def ofSource (source : String) : Except ParseError Program :=
  ofTokens (scan source)

end Program

end TapeCompiler
