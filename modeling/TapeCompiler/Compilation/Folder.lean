import TapeCompiler.Compilation.Path
import TapeCompiler.Machine.Fault

/-!
# A folder of files

Files are kept by their locations. The directories are the folder, the ones that files
are in, and those above the folder up to the root; of what else is outside of the folder
nothing is known, and it counts as missing.

A file is found by a walk along the names of its path. The walk stops with a fault at the
first name that stands for nothing, and at the first file that is to be entered.
-/

namespace TapeCompiler

/-- Files by their locations. The first one at a location counts. -/
structure Folder where
  files : List (Location × ByteArray) := []
deriving Inhabited

namespace Folder

/-- Puts a file at a location, in place of any that was there. -/
def put (folder : Folder) (l : Location) (bytes : ByteArray) : Folder :=
  ⟨(l, bytes) :: folder.files.filter (·.1 != l)⟩

/-- The folder that holds files given by the texts of their paths. -/
def ofFiles (files : List (String × ByteArray)) : Folder :=
  files.foldl
    (fun folder (text, bytes) =>
      folder.put ((Path.ofText text).names.foldl Location.enter .folder) bytes)
    {}

def hasDirectory (folder : Folder) (l : Location) : Bool :=
  l.names.isEmpty || folder.files.any fun (file, _) => l.isAbove file

def hasFile (folder : Folder) (l : Location) : Bool :=
  (folder.files.lookup l).isSome

/-- The location that a name stands for in a directory, whether or not something is
there. -/
def enter (folder : Folder) (l : Location) (name : String) : Except IoFault Location :=
  if !folder.hasDirectory l then .error .notDirectory
  else if name.utf8ByteSize > Path.nameLimit then .error .nameTooLong
  else .ok (l.enter name)

/-- One step of a walk: what the name stands for has to be there. -/
def step (folder : Folder) (l : Location) (name : String) : Except IoFault Location := do
  let there ← folder.enter l name
  if folder.hasDirectory there || folder.hasFile there then return there
  else throw .noSuchFile

/-- The location at the end of names. -/
def walk (folder : Folder) (start : Start) (names : List String) :
    Except IoFault Location :=
  names.foldlM folder.step ⟨start, []⟩

/-- The path of a text, if the text can be one. -/
def pathOf (text : String) : Except IoFault Path :=
  if text.toList.contains '\x00' then .error .nullInPath
  else if text.isEmpty then .error .noSuchFile
  else if text.utf8ByteSize > Path.textLimit then .error .nameTooLong
  else .ok (.ofText text)

def read (folder : Folder) (text : String) : Except IoFault ByteArray := do
  let path ← pathOf text
  let l ← folder.walk path.start path.names
  match folder.files.lookup l with
  | some bytes => if path.endsInSlash then throw .notDirectory else return bytes
  | none => throw .isDirectory

/-- Writes a file into a directory that is there. A path that cannot stand for a file is
refused before its last name is looked up. -/
def write (folder : Folder) (text : String) (bytes : ByteArray) :
    Except IoFault Folder := do
  let path ← pathOf text
  let l ← folder.walk path.start path.names.dropLast
  match path.names.getLast? with
  | none => throw .isDirectory
  | some name =>
      if !folder.hasDirectory l then throw .notDirectory
      if path.endsInSlash || name == "." || name == ".." then throw .isDirectory
      let file ← folder.enter l name
      if folder.hasDirectory file then throw .isDirectory
      return folder.put file bytes

end Folder

end TapeCompiler
