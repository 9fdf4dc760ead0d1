/-!
# Faults

What can go wrong while a program runs or a file is used, told apart by cause. The
wording of each fault is in its `message`.
-/

namespace TapeCompiler

inductive IoFault where
  | noSuchFile
  /-- A directory stands where a file is needed. -/
  | isDirectory
  /-- A file stands where a directory is needed. -/
  | notDirectory
  | nameTooLong
  | nullInPath
  /-- The bytes of a text file are not UTF-8. -/
  | invalidText
  /-- A stream took none of the bytes it was given. -/
  | nothingWritten
  /-- Any other fault, in the words of the one who reports it. -/
  | other (text : String)
deriving DecidableEq, Repr, Inhabited

def IoFault.text : IoFault → String
  | noSuchFile => "No such file or directory (os error 2)"
  | isDirectory => "Is a directory (os error 21)"
  | notDirectory => "Not a directory (os error 20)"
  | nameTooLong => "File name too long (os error 36)"
  | nullInPath => "file name contained an unexpected NUL byte"
  | invalidText => "stream did not contain valid UTF-8"
  | nothingWritten => "failed to write whole buffer"
  | other text => text

def IoFault.message (fault : IoFault) : String :=
  "IO Error: " ++ fault.text

inductive RuntimeFault where
  /-- A stream of the machine failed. -/
  | io (fault : IoFault)
  /-- A cell was used while the pointer was not on the tape. -/
  | outOfBounds (pointer : Int64) (length : Nat)
deriving DecidableEq, Repr, Inhabited

def RuntimeFault.message : RuntimeFault → String
  | io fault => fault.message
  | outOfBounds pointer length =>
      "Data pointer (" ++ toString pointer.toInt ++ ") out of bounds (max length " ++
        toString length ++ ")"

end TapeCompiler
