import Mathlib.Data.Int.ModEq
import Mathlib.Logic.Function.Basic
import TapeCompiler.Proofs.Arm.Text
import TapeCompiler.Proofs.Jasmin.MoveSteps
import TapeCompiler.Proofs.Llvm.Text
import TapeCompiler.Proofs.Smali.Text

/-!
# Constants in assembly

The constants that the assembly targets write for an amount of 32 bits can be encoded where
they stand, and they are exact. For a move this is said on registers that hold exact
numbers: `ShiftsExactly` says that instructions add the amount to the pointer and change
nothing else but a scratch register. A change of a cell counts modulo 256, and its constant
is a byte, with or without a sign (`modEq_stepByte`, `modEq_signedStep`).

`constants_exact` puts the targets together.
-/

namespace TapeCompiler

section Steps

/-- The byte of a change is the change modulo 256. -/
theorem modEq_stepByte (amount : Int) : ((stepByte amount).toNat : Int) ≡ amount [ZMOD 256] := by
  rw [stepByte, UInt8.ofInt, UInt8.toNat_ofNat', Int.ModEq]
  omega

theorem modEq_signedStep (amount : Int) : signedStep amount ≡ amount [ZMOD 256] :=
  Int.bmod_emod

theorem signedStep_bounds (amount : Int) : -128 ≤ signedStep amount ∧ signedStep amount ≤ 127 := by
  have hlower := Int.le_bmod (x := amount) (m := 256) (by decide)
  have hupper := Int.bmod_lt (x := amount) (m := 256) (by decide)
  unfold signedStep
  omega

end Steps

section Shifts

variable {ι ρ : Type} {compute : ι → (ρ → Int) → Option (ρ → Int)} {pointer scratch : ρ}
  {amount : Int}

/-- On registers that hold exact numbers, items add an amount to the pointer, and change no
other register but the scratch register. -/
def ShiftsExactly (compute : ι → (ρ → Int) → Option (ρ → Int)) (pointer scratch : ρ)
    (items : List ι) (amount : Int) : Prop :=
  ∀ values, ∃ values', items.foldlM (fun values item => compute item values) values = some values' ∧
    values' pointer = values pointer + amount ∧
    ∀ r, r ≠ pointer → r ≠ scratch → values' r = values r

variable [DecidableEq ρ]

theorem shiftsExactly_add {add : ι} (hadd : ∀ values, compute add values =
      some (Function.update values pointer (values pointer + amount))) :
    ShiftsExactly compute pointer scratch [add] amount := by
  intro values
  refine ⟨Function.update values pointer (values pointer + amount), ?_, ?_, fun r hr _ => ?_⟩
  · rw [List.foldlM_cons, hadd]
    rfl
  · rw [Function.update_self]
  · rw [Function.update_of_ne hr]

theorem shiftsExactly_load_add {load add : ι} {n : Int} (hne : pointer ≠ scratch)
    (hload : ∀ values, compute load values = some (Function.update values scratch n))
    (hadd : ∀ values, values scratch = n → compute add values =
      some (Function.update values pointer (values pointer + amount))) :
    ShiftsExactly compute pointer scratch [load, add] amount := by
  intro values
  let loaded := Function.update values scratch n
  have hpointer : loaded pointer = values pointer := Function.update_of_ne hne ..
  refine ⟨Function.update loaded pointer (loaded pointer + amount), ?_, ?_, fun r hr hr' => ?_⟩
  · rw [List.foldlM_cons, hload, Option.bind_eq_bind, Option.bind_some, List.foldlM_cons,
      hadd loaded (Function.update_self ..)]
    rfl
  · rw [Function.update_self, hpointer]
  · rw [Function.update_of_ne hr]
    exact Function.update_of_ne hr' ..

end Shifts

namespace Arm

def Operand.number (values : Register → Int) : Operand → Int
  | register r => values r
  | immediate n => n

/-- What a statement does to registers that hold exact numbers. There is no answer if it
does anything else. -/
def Statement.compute : Statement → (Register → Int) → Option (Register → Int)
  | loadConstant dest n, values => some (Function.update values dest n)
  | mov dest operand, values => some (Function.update values dest (operand.number values))
  | add dest r operand, values =>
      some (Function.update values dest (values r + operand.number values))
  | sub dest r operand, values =>
      some (Function.update values dest (values r - operand.number values))
  | _, _ => none

def Operand.IsEncodable : Operand → Prop
  | register _ => True
  | immediate n => n ≤ 255

/-- Eight bits are an immediate operand in any case, and any word can be loaded. -/
def Statement.IsEncodable : Statement → Prop
  | loadConstant _ n => n < UInt32.size
  | mov _ operand => operand.IsEncodable
  | add _ _ operand => operand.IsEncodable
  | sub _ _ operand => operand.IsEncodable
  | cmp _ operand => operand.IsEncodable
  | _ => True

theorem compute_shiftPointer {amount : Int} {operand : Operand} {values : Register → Int}
    (h : operand.number values = amount.natAbs) :
    (shiftPointer (amount < 0) operand).compute values =
      some (Function.update values pointer (values pointer + amount)) := by
  unfold shiftPointer
  by_cases hneg : amount < 0
  · have hsum : values pointer - amount.natAbs = values pointer + amount := by omega
    simp only [hneg, decide_true, if_true, Statement.compute, h, hsum]
  · have hsum : values pointer + amount.natAbs = values pointer + amount := by omega
    simp only [hneg, decide_false, Bool.false_eq_true, if_false, Statement.compute, h, hsum]

theorem shiftsExactly_moveStatements (amount : Int) :
    ShiftsExactly Statement.compute pointer scratch (moveStatements amount) amount := by
  unfold moveStatements
  split
  next => exact shiftsExactly_add fun values => compute_shiftPointer rfl
  next =>
    exact shiftsExactly_load_add (by decide) (fun _ => rfl)
      fun values hvalues => compute_shiftPointer hvalues

theorem isEncodable_shiftPointer (negative : Bool) (operand : Operand) (h : operand.IsEncodable) :
    (shiftPointer negative operand).IsEncodable := by
  cases negative <;> exact h

theorem isEncodable_of_mem_moveStatements {amount : Int} (h : FitsInt32 amount) :
    ∀ s ∈ moveStatements amount, s.IsEncodable := by
  unfold moveStatements
  split
  next hsmall =>
    exact List.forall_mem_singleton.mpr (isEncodable_shiftPointer _ (.immediate _) hsmall)
  next =>
    have hload : amount.natAbs < UInt32.size := by
      have hsize : UInt32.size = 4294967296 := rfl
      rw [fitsInt32_iff] at h
      omega
    refine List.forall_mem_cons.mpr ⟨hload, List.forall_mem_singleton.mpr ?_⟩
    exact isEncodable_shiftPointer _ (.register _) trivial

end Arm

namespace Smali

def Instruction.compute : Instruction → (Register → Int) → Option (Register → Int)
  | const4 dest n, values => some (Function.update values dest n)
  | const16 dest n, values => some (Function.update values dest n)
  | const dest n, values => some (Function.update values dest n)
  | addConst8 dest r n, values => some (Function.update values dest (values r + n))
  | addConst16 dest r n, values => some (Function.update values dest (values r + n))
  | add dest r s, values => some (Function.update values dest (values r + values s))
  | _, _ => none

/-- The constants of an instruction have as many bits, with a sign, as its name says. -/
def Instruction.IsEncodable : Instruction → Prop
  | const4 _ n => -8 ≤ n ∧ n ≤ 7
  | const16 _ n => -32768 ≤ n ∧ n ≤ 32767
  | const _ n => FitsInt32 n
  | addConst8 _ _ n => -128 ≤ n ∧ n ≤ 127
  | addConst16 _ _ n => -32768 ≤ n ∧ n ≤ 32767
  | _ => True

theorem shiftsExactly_moveInstructions (amount : Int) :
    ShiftsExactly Instruction.compute .pointer .scratch (moveInstructions amount) amount := by
  unfold moveInstructions
  split
  next => exact shiftsExactly_add fun _ => rfl
  next =>
    refine shiftsExactly_load_add (by decide) (fun _ => rfl) fun values hvalues => ?_
    rw [Instruction.compute, hvalues]

theorem isEncodable_of_mem_moveInstructions {amount : Int} (h : FitsInt32 amount) :
    ∀ i ∈ moveInstructions amount, i.IsEncodable := by
  unfold moveInstructions
  split
  next hsmall => exact List.forall_mem_singleton.mpr hsmall
  next => exact List.forall_mem_cons.mpr ⟨h, List.forall_mem_singleton.mpr trivial⟩

end Smali

/-- What is written at a place for a move and for an add by an amount is encodable and
exact. -/
structure ExactConstants (place : Place) (amount : Int) : Prop where
  /-- Splitting a move ends, in a shortest list of signed words of 16 bits that go in the
  direction of the amount and come to it. These are the increments. -/
  jasmin_move : ∃ steps, Jasmin.ShortestSplit amount steps ∧
    (∀ build, Transition.Ends (Jasmin.SplitLoop.step build) ⟨amount, []⟩ (some steps)) ∧
    (Jasmin.body.command place (.move amount)).map Jasmin.Instruction.text =
      steps.map fun step => "iinc 2 " ++ toString step
  arm_move : ShiftsExactly Arm.Statement.compute Arm.pointer Arm.scratch
    (Arm.body.command place (.move amount)) amount
  arm_encodable : ∀ s ∈ Arm.body.command place (.move amount), s.IsEncodable
  smali_move : ShiftsExactly Smali.Instruction.compute .pointer .scratch
    (Smali.body.command place (.move amount)) amount
  smali_encodable : ∀ i ∈ Smali.body.command place (.move amount), i.IsEncodable
  /-- An add for ARM adds a byte without a sign. -/
  arm_add : ∃ n : Nat, n ≤ 255 ∧ n ≡ amount [ZMOD 256] ∧
    (Arm.body.command place (.add amount)).map Arm.Statement.text =
      ["ldrb r5, [r4]", "add r5, r5, #" ++ toString n, "strb r5, [r4]"]
  /-- An add for the others adds a byte with a sign. -/
  signed_add : ∃ n : Int, -128 ≤ n ∧ n ≤ 127 ∧ n ≡ amount [ZMOD 256] ∧
    (Jasmin.body.command place (.add amount)).map Jasmin.Instruction.text =
      ["aload_1", "iload_2", "dup2", "baload", Jasmin.pushText n, "iadd", "i2b", "bastore"] ∧
    (Smali.body.command place (.add amount)).map Smali.Instruction.text =
      ["aget-byte v2, v0, v1", "add-int/lit8 v2, v2, " ++ toString n, "int-to-byte v2, v2",
        "aput-byte v2, v0, v1"] ∧
    Llvm.body.command place (.add amount) =
      [.loadPointer place.number Llvm.slot, .loadByte (place.number + 1) place.number,
        .addByte (place.number + 2) (place.number + 1) n,
        .storeByte (place.number + 2) place.number]

theorem fitsInt32_toInt (amount : Int32) : FitsInt32 amount.toInt :=
  ⟨amount.minValue_le_toInt, amount.toInt_le⟩

/-- For every amount of 32 bits, wherever it stands, the constants are encodable and
exact. -/
theorem constants_exact (amount : Int32) (place : Place) :
    ExactConstants place amount.toInt where
  jasmin_move := by
    refine ⟨Jasmin.moveSteps amount.toInt, Jasmin.shortestSplit_moveSteps _, fun build => ?_, ?_⟩
    · exact Jasmin.SplitLoop.ends_moveSteps build (fitsInt32_toInt amount) []
    · rw [Jasmin.body_command, Jasmin.commandInstructions, List.map_map]
      rfl
  arm_move := by
    rw [Arm.body_command]
    exact Arm.shiftsExactly_moveStatements _
  arm_encodable := by
    rw [Arm.body_command]
    exact Arm.isEncodable_of_mem_moveStatements (fitsInt32_toInt amount)
  smali_move := by
    rw [Smali.body_command]
    exact Smali.shiftsExactly_moveInstructions _
  smali_encodable := by
    rw [Smali.body_command]
    exact Smali.isEncodable_of_mem_moveInstructions (fitsInt32_toInt amount)
  arm_add := by
    refine ⟨(stepByte amount.toInt).toNat, ?_, modEq_stepByte _, ?_⟩
    · exact Nat.le_of_lt_succ (stepByte amount.toInt).toNat_lt
    · rw [Arm.body_command]
      rfl
  signed_add := by
    obtain ⟨hlower, hupper⟩ := signedStep_bounds amount.toInt
    refine ⟨signedStep amount.toInt, hlower, hupper, modEq_signedStep _, ?_, ?_, ?_⟩
    · rw [Jasmin.body_command]
      rfl
    · rw [Smali.body_command]
      rfl
    · rw [Llvm.body_command]
      rfl

end TapeCompiler
