import TapeCompiler.CommandLine
import TapeCompiler.Code.Evaluation

/-!
# The program

The command line on the files and streams of the process. Code is run step by step, so
that input is read when a program asks for it and output is written as it comes.
-/

namespace TapeCompiler.Console

/-- Whether an error has a number of the system. Some calls report numbers negated. -/
def isNumber (code number : UInt32) : Bool :=
  code == number || code == 0 - number

/-- The fault that an error of the system amounts to. -/
def faultOf (e : IO.Error) : IoFault :=
  match e with
  | .noFileOrDirectory .. => .noSuchFile
  | .inappropriateType _ code _ => if isNumber code 20 then .notDirectory else .isDirectory
  | .invalidArgument _ code _ => if isNumber code 36 then .nameTooLong else .other (toString e)
  | e => .other (toString e)

/-- Runs an action of the system, and turns its error into a fault. -/
def attempt {α : Type} (action : IO α) : IO (Except IoFault α) := do
  try
    return .ok (← action)
  catch e =>
    return .error (faultOf e)

/-- Writes the bytes that a machine has written, and forgets them. -/
def drain (m : Machine) : IO Machine := do
  if !m.sink.written.isEmpty then
    let out ← IO.getStdout
    out.write ⟨m.sink.written⟩
    out.flush
  return { m with sink := { m.sink with written := #[] } }

/-- Whether written bytes have to be shown now: at the end of a line, or when there are
many. -/
def isDue (m : Machine) : Bool :=
  m.sink.written.back? == some 10 || m.sink.written.size ≥ 4096

/-- Whether the next instruction is a read for which no input is at hand. -/
def isWaiting (code : Array Instruction) (run : CodeRun) : Bool :=
  run.machine.input.isEmpty && code[run.place.toNat]? == some (.act .read)

/-- What the input of the process brings next. -/
def fetch : IO (List ReadEvent) := do
  match ← attempt do (← IO.getStdin).read 4096 with
  | .ok bytes => return if bytes.isEmpty then [.noByte] else inputOfBytes bytes.toList
  | .error fault => return [.fault fault]

/-- Runs code until it stops. Before it waits for input, what was written is shown. -/
def execute (code : Array Instruction) (start : Machine) : IO (Except RuntimeFault Unit) := do
  let mut run : CodeRun := ⟨0, start⟩
  let mut result : Option (Except RuntimeFault Unit) := none
  while result.isNone do
    if isWaiting code run then
      let m ← drain run.machine
      run := ⟨run.place, { m with input := ← fetch }⟩
    match CodeRun.step code run with
    | .next after =>
        run := after
        if isDue run.machine then
          run := ⟨run.place, ← drain run.machine⟩
    | .stop (outcome, m) =>
        result := some outcome
        run := ⟨run.place, ← drain m⟩
  return result.getD (.ok ())

/-- A duration with two decimals in the largest unit that it fills. -/
def durationText (nanoseconds : Nat) : String :=
  let scaled (unit : Nat) (name : String) :=
    let hundredths := (nanoseconds * 100 + unit / 2) / unit
    let decimals := toString (hundredths % 100)
    toString (hundredths / 100) ++ "." ++ (if decimals.length < 2 then "0" else "") ++
      decimals ++ name
  if nanoseconds ≥ 1000000000 then scaled 1000000000 "s"
  else if nanoseconds ≥ 1000000 then scaled 1000000 "ms"
  else if nanoseconds ≥ 1000 then scaled 1000 "µs"
  else scaled 1 "ns"

/-- The host that works on the files and streams of the process. `started` holds the
time at which the current stage was started. -/
def host (started : IO.Ref Nat) : Host IO where
  readFile path := attempt (IO.FS.readBinFile path)
  writeFile path text := attempt (IO.FS.writeFile path text)
  print text := do
    let out ← IO.getStdout
    out.putStr (text ++ "\n")
    out.flush
  notice n := do
    let now ← IO.monoNanosNow
    let elapsed := durationText (now - (← started.get))
    if n matches .starting _ then
      started.set now
    (← IO.getStderr).putStr (n.text elapsed ++ "\n")
  execute code length := do
    match ← attempt (execute code.toArray (Machine.start length [] {})) with
    | .ok result => return result
    | .error fault => return .error (.io fault)

def usageText : UsageFault → String
  | .unknownSetting word => "unexpected argument '" ++ word ++ "' found"
  | .missingValue setting => "a value is required for '--" ++ setting.name ++ "'"
  | .unwantedValue setting => "unexpected value for '--" ++ setting.name ++ "'"
  | .badValue setting value => "invalid value '" ++ value ++ "' for '--" ++ setting.name ++ "'"
  | .repeated setting => "'--" ++ setting.name ++ "' cannot be used multiple times"
  | .missingFile => "a file is required"
  | .badFile => "a file name cannot be empty"
  | .unexpectedWord word => "unexpected argument '" ++ word ++ "' found"

def reportUsage (fault : UsageFault) : IO Unit := do
  (← IO.getStderr).putStr ("error: " ++ usageText fault ++ "\n")

end TapeCompiler.Console

def main (args : List String) : IO UInt32 := do
  let started ← IO.mkRef 0
  TapeCompiler.CommandLine.run (TapeCompiler.Console.host started)
    TapeCompiler.Console.reportUsage args
