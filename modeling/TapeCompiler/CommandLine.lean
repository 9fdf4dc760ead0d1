import TapeCompiler.CommandLine.Setting

/-!
# The command line

`CommandLine.read` turns the words of a command line into a request. The words are taken
from left to right, and the first one that is at fault, or that asks for the version or
for help, settles the outcome. A setting is given by its name behind two hyphens or by its
letter behind one. Letters may stand together, and a value is the rest of a word or the
next word. Behind two hyphens alone, every word is taken for the file.
-/

namespace TapeCompiler.CommandLine

/-- Why no compilation is requested. -/
inductive Halt where
  | usage (fault : UsageFault)
  | help
  | version
deriving DecidableEq, Repr, Inhabited

/-- What was read so far: the file, the settings that were given, and the request. -/
structure Reading where
  file : Option String := none
  given : List Setting := []
  request : Request := { file := "" }
deriving DecidableEq, Repr, Inhabited

namespace Reading

def position (reading : Reading) (word : String) : Except Halt Reading :=
  if reading.file.isSome then .error (.usage (.unexpectedWord word))
  else if word.isEmpty then .error (.usage .badFile)
  else .ok { reading with file := some word }

def set (reading : Reading) (setting : Setting) (value : String) : Except Halt Reading :=
  match setting with
  | .help => .error .help
  | .version => .error .version
  | _ =>
      if setting ∈ reading.given ∧ ¬ setting.isRepeatable then
        .error (.usage (.repeated setting))
      else
        match reading.request.assign? value setting with
        | none => .error (.usage (.badValue setting value))
        | some request => .ok { reading with given := setting :: reading.given, request }

/-- Takes the letters of a word. The last one may be of a setting whose value is the
next word, and that setting is given back. -/
def letters (reading : Reading) : List Char → Except Halt (Reading × Option Setting)
  | [] => .ok (reading, none)
  | letter :: rest =>
      match Setting.ofLetter? letter with
      | none => .error (.usage (.unknownSetting (String.singleton letter)))
      | some setting =>
          if setting.takesValue then
            match rest with
            | [] => .ok (reading, some setting)
            | '=' :: value => do return (← reading.set setting (String.ofList value), none)
            | value => do return (← reading.set setting (String.ofList value), none)
          else do
            let reading ← reading.set setting ""
            reading.letters rest

/-- Takes a name with the value behind its equality sign. If there is no such value and
the setting needs one, it is given back. -/
def named (reading : Reading) (text : List Char) : Except Halt (Reading × Option Setting) :=
  let name := String.ofList (text.takeWhile (· != '='))
  match Setting.ofName? name, text.dropWhile (· != '=') with
  | none, _ => .error (.usage (.unknownSetting name))
  | some setting, _ :: value =>
      if setting.takesValue then do
        return (← reading.set setting (String.ofList value), none)
      else .error (.usage (.unwantedValue setting))
  | some setting, [] =>
      if setting.takesValue then .ok (reading, some setting)
      else do return (← reading.set setting "", none)

/-- Whether a word can be a value of its own. A hyphen alone can. -/
def isValue (word : String) : Bool :=
  word == "-" || !word.startsWith "-"

/-- Takes a word that starts with a hyphen. A setting whose value is the next word is
given back. -/
def hyphened (reading : Reading) (word : String) : Except Halt (Reading × Option Setting) :=
  match word.toList with
  | '-' :: '-' :: text => reading.named text
  | text => reading.letters (text.drop 1)

/-- Takes all words. A setting that waits for its value takes the next one. -/
def words (reading : Reading) : Option Setting → List String → Except Halt Reading
  | none, [] => .ok reading
  | some setting, [] => .error (.usage (.missingValue setting))
  | some setting, word :: rest =>
      if isValue word then do
        let reading ← reading.set setting word
        reading.words none rest
      else .error (.usage (.missingValue setting))
  | none, word :: rest =>
      if word == "--" then rest.foldlM position reading
      else if isValue word then do
        let reading ← reading.position word
        reading.words none rest
      else do
        let (reading, waiting) ← reading.hyphened word
        reading.words waiting rest

end Reading

def read (words : List String) : Except Halt Request := do
  let reading ← Reading.words {} none words
  match reading.file with
  | some file => return { reading.request with file }
  | none => throw (.usage .missingFile)

def versionText : String :=
  "bfcc 0.1.0"

def helpText : String :=
  "Usage: bfcc [OPTIONS] <FILE>\n\n" ++
  "  -o, --output <OUTPUT>        Where to write the artifact\n" ++
  "  -t, --target <TARGET>        " ++ ", ".intercalate (Target.all.map Target.name) ++ "\n" ++
  "  -d, --debug                  Print the artifact\n" ++
  "  -i, --input <INPUT>          Input for targets that hold it\n" ++
  "  -p, --passes <PASSES>        Number of optimizer passes\n" ++
  "      --heap-size <HEAP_SIZE>  Length of the tape\n" ++
  "      --dump <DUMP>            tokens, ast, optimized-ast\n" ++
  "  -v, --verbose                Report the stages on the error output\n" ++
  "  -h, --help                   Print help\n" ++
  "  -V, --version                Print the version"

section

variable {m : Type → Type} [Monad m]

/-- Does what a command line asks for, and says with which code to exit. `report` says
what is wrong with the command line. -/
def run (host : Host m) (report : UsageFault → m Unit) (words : List String) : m UInt32 := do
  match read words with
  | .ok request => request.run host
  | .error (.usage fault) =>
      report fault
      return 2
  | .error .help =>
      host.print helpText
      return 0
  | .error .version =>
      host.print versionText
      return 0

end

end TapeCompiler.CommandLine
