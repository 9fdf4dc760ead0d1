/-!
# Paths and locations

A `Path` is a text taken apart: where it starts, the names in it, and whether a slash
stands behind the last name. A `Location` is a place that a path can lead to. Every name
of a path is one step, `Location.enter`, and the steps are taken from left to right, so
`no/..` goes through `no`.
-/

namespace TapeCompiler

inductive Start where
  /-- The root, above which nothing is. -/
  | root
  /-- So many levels above the folder that is worked in. -/
  | above (levels : Nat)
deriving DecidableEq, Repr, Inhabited

/-- A place among the files: a start and the names on the way down from it. -/
structure Location where
  start : Start
  names : List String
deriving DecidableEq, Repr, Inhabited

namespace Location

def folder : Location :=
  ⟨.above 0, []⟩

/-- The directory that a location is in. Nothing is above the root. -/
def parent : Location → Location
  | ⟨.root, []⟩ => ⟨.root, []⟩
  | ⟨.above levels, []⟩ => ⟨.above (levels + 1), []⟩
  | ⟨start, names⟩ => ⟨start, names.dropLast⟩

/-- The location that a name stands for in a directory. -/
def enter (l : Location) (name : String) : Location :=
  if name == "." then l
  else if name == ".." then l.parent
  else ⟨l.start, l.names ++ [name]⟩

/-- Whether the first location is a directory on the way to the second. -/
def isAbove (l l' : Location) : Bool :=
  l.start == l'.start && l.names.isPrefixOf l'.names && l.names != l'.names

end Location

structure Path where
  start : Start
  names : List String
  endsInSlash : Bool
deriving DecidableEq, Repr, Inhabited

namespace Path

/-- The path that a text stands for. Slashes side by side count as one. -/
def ofText (text : String) : Path where
  start := if text.startsWith "/" then .root else .above 0
  names := (text.splitOn "/").filter (· != "")
  endsInSlash := text.endsWith "/"

/-- How many bytes a name may have. -/
def nameLimit : Nat := 255

/-- How many bytes the text of a path may have. -/
def textLimit : Nat := 4095

end Path

end TapeCompiler
