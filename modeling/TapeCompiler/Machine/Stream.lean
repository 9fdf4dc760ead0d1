import TapeCompiler.Machine.Fault

/-!
# Streams

The input of a machine is a list of what its single reads will bring, and its output is
a `Sink` that remembers the bytes it took. A sink may hold only so many bytes, and it
may fail when it is flushed.
-/

namespace TapeCompiler

/-- What one read of an input brings. -/
inductive ReadEvent where
  | byte (value : UInt8)
  /-- Nothing yet, so the read is tried again. -/
  | interrupted
  | fault (fault : IoFault)
  /-- No byte. Later reads may bring more. -/
  | noByte
deriving DecidableEq, Repr, Inhabited

/-- Reads one byte of an input, `none` if there is none, and what is left of the input.
An interrupted read is tried again, and after the last event no read brings a byte. -/
def readByte : List ReadEvent → Except IoFault (Option UInt8) × List ReadEvent
  | [] => (.ok none, [])
  | .interrupted :: rest => readByte rest
  | .byte value :: rest => (.ok (some value), rest)
  | .fault fault :: rest => (.error fault, rest)
  | .noByte :: rest => (.ok none, rest)

/-- The input that brings the given bytes and then ends. -/
def inputOfBytes (bytes : List UInt8) : List ReadEvent :=
  bytes.map .byte

/-- How a full sink answers a write. -/
inductive Refusal where
  | fails (fault : IoFault)
  /-- The write takes no byte. -/
  | takesNothing
deriving DecidableEq, Repr, Inhabited

/-- The fault that a refused write amounts to. -/
def Refusal.fault : Refusal → IoFault
  | fails fault => fault
  | takesNothing => .nothingWritten

/-- An output that remembers what was written to it and how often it was flushed. -/
structure Sink where
  written : Array UInt8 := #[]
  /-- How many bytes there is room for, `none` if there is always room. -/
  capacity : Option Nat := none
  refusal : Refusal := .takesNothing
  flushFault : Option IoFault := none
  flushes : Nat := 0
deriving DecidableEq, Repr, Inhabited

namespace Sink

def isFull (sink : Sink) : Bool :=
  sink.capacity.any (· ≤ sink.written.size)

def write (sink : Sink) (value : UInt8) : Except IoFault Unit × Sink :=
  if sink.isFull then (.error sink.refusal.fault, sink)
  else (.ok (), { sink with written := sink.written.push value })

/-- Flushes the sink. It remembers the attempt also when it fails. -/
def flush (sink : Sink) : Except IoFault Unit × Sink :=
  (match sink.flushFault with
    | none => .ok ()
    | some fault => .error fault,
    { sink with flushes := sink.flushes + 1 })

end Sink

end TapeCompiler
