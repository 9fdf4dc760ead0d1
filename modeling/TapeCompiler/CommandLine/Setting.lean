import TapeCompiler.Compilation

/-!
# Settings of the command line

A `Setting` is what a word with a leading hyphen is about. Each has a long name, some
have a letter, and some take a value. `Setting.assign` says what a value does to a
request and which values are refused.
-/

namespace TapeCompiler

/-- What can be set on the command line. -/
inductive Setting where
  | output
  | target
  | debug
  | input
  | passes
  | tapeLength
  | dump
  | verbose
  | help
  | version
deriving DecidableEq, Repr, Inhabited

inductive UsageFault where
  | unknownSetting (word : String)
  | missingValue (setting : Setting)
  | unwantedValue (setting : Setting)
  | badValue (setting : Setting) (value : String)
  /-- Something is set again that can be set once. -/
  | repeated (setting : Setting)
  | missingFile
  | badFile
  /-- A word that is neither the file nor about a setting. -/
  | unexpectedWord (word : String)
deriving DecidableEq, Repr, Inhabited

namespace Setting

def all : List Setting :=
  [output, target, debug, input, passes, tapeLength, dump, verbose, help, version]

def name : Setting → String
  | output => "output"
  | target => "target"
  | debug => "debug"
  | input => "input"
  | passes => "passes"
  | tapeLength => "heap-size"
  | dump => "dump"
  | verbose => "verbose"
  | help => "help"
  | version => "version"

def letter? : Setting → Option Char
  | output => some 'o'
  | target => some 't'
  | debug => some 'd'
  | input => some 'i'
  | passes => some 'p'
  | tapeLength => none
  | dump => none
  | verbose => some 'v'
  | help => some 'h'
  | version => some 'V'

def takesValue : Setting → Bool
  | output | target | input | passes | tapeLength | dump => true
  | debug | verbose | help | version => false

def isRepeatable (setting : Setting) : Bool :=
  setting == dump

def ofName? (name : String) : Option Setting :=
  all.find? (·.name == name)

def ofLetter? (letter : Char) : Option Setting :=
  all.find? (·.letter? == some letter)

end Setting

/-- The number that decimal digits spell, if it fits into 64 bits. A plus sign may stand
before the digits. -/
def numberOfText? (text : String) : Option Nat :=
  let digits := match text.toList with
    | '+' :: digits => digits
    | digits => digits
  if digits.isEmpty || !digits.all Char.isDigit then none
  else
    let n := digits.foldl (fun n c => 10 * n + (c.toNat - '0'.toNat)) 0
    if n < UInt64.size then some n else none

def Dump.ofName? : String → Option Dump
  | "tokens" => some .tokens
  | "ast" => some .tree
  | "optimized-ast" => some .optimizedTree
  | _ => none

namespace Request

def configure (request : Request) (f : Configuration → Configuration) : Request :=
  { request with config := f request.config }

/-- The request with a value for a setting, or `none` if the setting does not admit the
value. Settings without a value are given an empty one. -/
def assign? (request : Request) (value : String) : Setting → Option Request
  | .output =>
      if value.isEmpty then none
      else some (request.configure ({ · with output := some value }))
  | .target => do
      let target ← Target.ofName? value false
      return request.configure ({ · with target })
  | .debug => some (request.configure ({ · with debug := true }))
  | .input => some (request.configure ({ · with input := some value }))
  | .passes => do
      let passes ← numberOfText? value
      return request.configure ({ · with passes })
  | .tapeLength => do
      let tapeLength ← numberOfText? value
      return request.configure ({ · with tapeLength })
  | .dump => do
      let dump ← Dump.ofName? value
      return { request with dumps := dump :: request.dumps }
  | .verbose => some { request with verbose := true }
  | .help => some request
  | .version => some request

end Request

end TapeCompiler
