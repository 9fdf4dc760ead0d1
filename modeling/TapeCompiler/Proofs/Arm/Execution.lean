import TapeCompiler.Proofs.Assembly
import TapeCompiler.Proofs.Arm.Labels

/-!
# Running ARM assembly

The machine that the artifacts are written for, as far as they use it: registers of 32
bits, the flag that a comparison leaves, the zeroed memory at a base address, and a
kernel that reads, writes and exits. Anything else that is asked of the memory or of the
kernel makes the machine crash.

`Arm.Exits` says of a text that it is read back, and that running it from its entry comes
to the call that exits.
-/

namespace TapeCompiler.Arm

structure State where
  registers : Register → UInt32
  /-- Whether the last comparison found its operands equal. -/
  equal : Bool
  memory : Array UInt8
  input : List UInt8
  output : Array UInt8 := #[]

inductive Result where
  | exited (status : UInt32) (state : State)
  | crashed (state : State)

namespace State

def set (s : State) (r : Register) (value : UInt32) : State :=
  { s with registers := fun r' => if r' = r then value else s.registers r' }

def operand (s : State) : Operand → UInt32
  | .register r => s.registers r
  | .immediate n => UInt32.ofNat n

/-- The place in the memory that an address stands for. -/
def offset? (base : UInt32) (s : State) (address : UInt32) : Option (Fin s.memory.size) :=
  if h : base.toNat ≤ address.toNat ∧ address.toNat - base.toNat < s.memory.size then
    some ⟨address.toNat - base.toNat, h.2⟩
  else none

/-- A kernel call. Register `r7` holds the number of the service: 1 exits, 3 reads a byte
and 4 writes one. The last two leave in `r0` how many bytes were moved. -/
def kernel (base : UInt32) (s : State) : Flow Label State Result :=
  if s.registers .r7 = 1 then .stop (.exited (s.registers .r0) s)
  else
    match s.offset? base (s.registers .r1) with
    | none => .stop (.crashed s)
    | some i =>
        if s.registers .r7 = 3 ∧ s.registers .r0 = 0 ∧ s.registers .r2 = 1 then
          match s.input with
          | [] => .next (s.set .r0 0)
          | value :: rest =>
              .next ({ s with memory := s.memory.set i value, input := rest }.set .r0 1)
        else if s.registers .r7 = 4 ∧ s.registers .r0 = 1 ∧ s.registers .r2 = 1 then
          .next ({ s with output := s.output.push s.memory[i] }.set .r0 1)
        else .stop (.crashed s)

end State

/-- What a statement does. Directives, labels and comments do nothing. -/
def Statement.effect (base : UInt32) : Statement → State → Flow Label State Result
  | loadTape dest, s => .next (s.set dest base)
  | loadConstant dest n, s => .next (s.set dest (UInt32.ofNat n))
  | loadByte dest address, s =>
      match s.offset? base (s.registers address) with
      | none => .stop (.crashed s)
      | some i => .next (s.set dest s.memory[i].toUInt32)
  | storeByte of address, s =>
      match s.offset? base (s.registers address) with
      | none => .stop (.crashed s)
      | some i => .next { s with memory := s.memory.set i (s.registers of).toUInt8 }
  | mov dest operand, s => .next (s.set dest (s.operand operand))
  | add dest r operand, s => .next (s.set dest (s.registers r + s.operand operand))
  | sub dest r operand, s => .next (s.set dest (s.registers r - s.operand operand))
  | cmp r operand, s => .next { s with equal := s.registers r == s.operand operand }
  | branch l, s => .jump l s
  | branchEqual l, s => if s.equal then .jump l s else .next s
  | kernel, s => s.kernel base
  | _, s => .next s

/-- The machine whose zeroed memory starts at `base`. -/
def assembly (base : UInt32) : Assembly Statement Label State Result where
  label? := labelling.label?
  effect := Statement.effect base
  astray := .crashed

/-- How many bytes of memory a code reserves. -/
def reserved? (code : List Statement) : Option Nat :=
  code.findSome? fun
    | .reserve bytes => some bytes
    | _ => none

/-- The entry of a code, with its memory zeroed. Registers and flags may hold anything
there. -/
def load? (code : List Statement) (registers : Register → UInt32) (equal : Bool)
    (input : List UInt8) : Option (Position State) :=
  (code.findIdx? (· = .entry)).bind fun place =>
    (reserved? code).map fun bytes =>
      ⟨place, { registers, equal, memory := Array.replicate bytes 0, input }⟩

/-- Running a text on `input`, with its memory at `base` and whatever registers and flags,
comes to the call that exits without an error. By then `output` was written and the
memory holds `memory`. -/
def Exits (base : UInt32) (text : String) (input : List UInt8) (output memory : Array UInt8) :
    Prop :=
  ∃ code, read? text = some code ∧ ∀ registers equal, ∃ start final,
    load? code registers equal input = some start ∧
      Transition.Ends ((assembly base).step code) start (.exited 0 final) ∧
      final.output = output ∧ final.memory = memory

namespace State

variable {s : State} {r r' : Register} {value : UInt32}

@[simp] theorem set_registers_self (s : State) (r : Register) (value : UInt32) :
    (s.set r value).registers r = value :=
  if_pos rfl

theorem set_registers_of_ne (h : r' ≠ r) : (s.set r value).registers r' = s.registers r' :=
  if_neg h

end State

end TapeCompiler.Arm
