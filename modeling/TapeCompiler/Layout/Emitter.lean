import TapeCompiler.Layout.Line

/-!
# An emitter of indented text

An `Emitter` holds the text that was written so far and the current depth. A line is
written at the current depth, a label at depth zero, and raw text as it is. The depth
changes only for the entries of a group, which are written one level deeper.
`Emitter.perform` notes the depth after every entry, those of a group before the group.
-/

namespace TapeCompiler

/-- Something to be written. -/
inductive Entry where
  | line (text : String)
  | lines (text : String)
  | label (text : String)
  | raw (text : String)
  | group (entries : List Entry)
deriving Repr, Inhabited

/-- The text that was written so far, and the current depth. -/
structure Emitter where
  text : String := ""
  depth : Nat := 0
deriving DecidableEq, Repr, Inhabited

namespace Emitter

def line (e : Emitter) (text : String) : Emitter :=
  { e with text := e.text ++ lineText e.depth text }

def lines (e : Emitter) (text : String) : Emitter :=
  (linesOf text).foldl line e

def label (e : Emitter) (text : String) : Emitter :=
  { e with text := e.text ++ text ++ "\n" }

def raw (e : Emitter) (text : String) : Emitter :=
  { e with text := e.text ++ text }

def deeper (e : Emitter) : Emitter :=
  { e with depth := e.depth + 1 }

def shallower (e : Emitter) : Emitter :=
  { e with depth := e.depth - 1 }

/-- An emitter, and the depths that were noted. -/
abbrev Noted := Emitter × List Nat

/-- Notes the current depth. The last depth comes first. -/
def note (e : Emitter) (depths : List Nat) : Noted :=
  (e, e.depth :: depths)

/-- Writes an entry, and notes the depth after each of its parts and after itself. -/
def perform : Noted → Entry → Noted
  | (e, depths), .line text => (e.line text).note depths
  | (e, depths), .lines text => (e.lines text).note depths
  | (e, depths), .label text => (e.label text).note depths
  | (e, depths), .raw text => (e.raw text).note depths
  | (e, depths), .group entries =>
      let inner := entries.foldl perform (e.deeper, depths)
      inner.1.shallower.note inner.2

/-- Writes entries one after another, starting at a depth. Gives the text and the
depths after the entries, in the order in which they were finished. -/
def emit (depth : Nat) (entries : List Entry) : String × List Nat :=
  let finished := entries.foldl perform (⟨"", depth⟩, [])
  (finished.1.text, finished.2.reverse)

end Emitter

end TapeCompiler
