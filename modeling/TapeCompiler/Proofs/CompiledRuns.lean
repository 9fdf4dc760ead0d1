import TapeCompiler.Proofs.LoopIds
import TapeCompiler.Proofs.Arm.Simulation
import TapeCompiler.Proofs.Jasmin.Simulation

/-!
# What compiled programs do

The loops of a program that was read and optimized have ids of their own, so the labels in
its artifacts lead where the loops do. If the program ends well, its artifacts do the same
as the program.
-/

namespace TapeCompiler.Program

open Transition (Reaches)

/-- The program of `,[.[-],]`. -/
def echo : Program :=
  [.command .read, .loop 0 [.command .print, .command .clear, .command .read]]

theorem ofSource_echo : ofSource ",[.[-],]" = .ok echo := by
  decide +kernel

theorem optimize_echo : echo.optimize 1 = echo := by
  decide +kernel

/-- On one byte `echo` prints it, and its loop goes round once. -/
theorem exists_ends_echo {tape : Tape} (hp : tape.InBounds) {value : UInt8}
    (hvalue : value ≠ 0) :
    ∃ final, echo.Ends ⟨tape, inputOfBytes [value], {}⟩ (.ok (), final) ∧
      final.sink.written = #[value] := by
  have hset (tape : Tape) (hp : tape.InBounds) (value : UInt8) :
      ∃ (changed : Tape) (h : changed.InBounds), changed.cell h = value ∧
        tape.change (tape.place hp) (fun _ => value) = changed :=
    ⟨_, Tape.inBounds_change.mpr hp, Tape.cell_change hp _ _, rfl⟩
  obtain ⟨filled, hfilled, hcell, hfill⟩ := hset tape hp value
  obtain ⟨cleared, hcleared, hblank, hclear⟩ := hset filled hfilled 0
  have hread : Machine.act ⟨tape, [.byte value], {}⟩ .read = (.ok (), ⟨filled, [], {}⟩) := by
    rw [Machine.act, Machine.read, Tape.index_of_inBounds hp, ← hfill]
    rfl
  have hprint : Machine.act ⟨filled, [], {}⟩ .write =
      (.ok (), ⟨filled, [], { written := #[value] }⟩) := by
    rw [← hcell, Machine.act, Machine.write, Tape.index_of_inBounds hfilled]
    rfl
  have hclear : Machine.act ⟨filled, [], { written := #[value] }⟩ .clear =
      (.ok (), ⟨cleared, [], { written := #[value] }⟩) := by
    rw [← hclear]
    exact Machine.change_of_inBounds (m := ⟨filled, [], { written := #[value] }⟩) hfilled _
  have hagain : Machine.act ⟨cleared, [], { written := #[value] }⟩ .read =
      (.ok (), ⟨cleared, [], { written := #[value] }⟩) := by
    rw [Machine.act, Machine.read, Tape.index_of_inBounds hcleared]
    rfl
  have hfull : Machine.isZero ⟨filled, [], {}⟩ = .ok false := by
    rw [Machine.isZero_of_inBounds (m := ⟨filled, [], {}⟩) hfilled, hcell,
      beq_eq_false_iff_ne.mpr hvalue]
  have hzero : Machine.isZero ⟨cleared, [], { written := #[value] }⟩ = .ok true := by
    rw [Machine.isZero_of_inBounds (m := ⟨cleared, [], { written := #[value] }⟩) hcleared, hblank]
    rfl
  have hevaluates : Evaluates echo ⟨tape, [.byte value], {}⟩
      (.ok (), ⟨cleared, [], { written := #[value] }⟩) :=
    .command hread <| .loopAgain hfull
      (.command hprint <| .command hclear <| .command hagain <| .nil _) <|
        .loopDone hzero <| .nil _
  exact ⟨_, ends_iff_evaluates.mpr ⟨_, hevaluates, rfl⟩, rfl⟩

theorem inBounds_start : (Tape.blank Tape.standardLength).InBounds := by
  refine ⟨by decide, ?_⟩
  rw [Tape.blank, Array.size_replicate]
  decide

section Arm

/-- If a program that was read and optimized ends well, its ARM assembly exits, wherever
the memory is. It has the output of the program, and in its memory are the cells. -/
theorem exits_arm_artifact {source : String} {p : Program} (hp : ofSource source = .ok p)
    (passes : Nat) {input : List UInt8} {final : Machine}
    (hends : (p.optimize passes).Ends
      (Machine.start Tape.standardLength (inputOfBytes input) {}) (.ok (), final))
    {base : UInt32} (hbase : base.toNat + Tape.standardLength ≤ 2 ^ 32) :
    Arm.Exits base (Arm.artifact (p.optimize passes)) input final.sink.written
      final.tape.cells :=
  Arm.exits_artifact hbase (nodup_loopIds_optimize hp passes) hends

theorem exits_arm_artifact_echo :
    let base : UInt32 := 0x10000
    base.toNat + Tape.standardLength ≤ 2 ^ 32 ∧ ofSource ",[.[-],]" = .ok echo ∧
      ∃ memory, Arm.Exits base (Arm.artifact (echo.optimize 1)) [65] #[65] memory := by
  intro base
  have hbase : base.toNat + Tape.standardLength ≤ 2 ^ 32 := by decide
  have hbyte : (65 : UInt8) ≠ 0 := by decide
  obtain ⟨final, hends, hwritten⟩ := exists_ends_echo inBounds_start hbyte
  rw [← optimize_echo] at hends
  have hexits := exits_arm_artifact ofSource_echo 1 hends hbase
  rw [hwritten] at hexits
  exact ⟨hbase, ofSource_echo, _, hexits⟩

end Arm

section Jasmin

/-- If a program that was read and optimized ends well, the method `main` of its Jasmin
assembly returns. It has the output of the program, and in its array are the cells. On the
way it keeps to the operand stack that is declared. -/
theorem returns_jasmin_artifact {source : String} {p : Program}
    (hp : ofSource source = .ok p) (passes : Nat) {input : List UInt8} {final : Machine}
    (hends : (p.optimize passes).Ends
      (Machine.start Tape.standardLength (inputOfBytes input) {}) (.ok (), final)) :
    let code := Jasmin.program (p.optimize passes)
    Jasmin.read? (Jasmin.artifact (p.optimize passes)) = some code ∧
      Jasmin.Returns code input final.sink.written final.tape.cells ∧
      ∀ start pos, Jasmin.main? code input = some start →
        Reaches (Jasmin.assembly.step code) start pos →
        Jasmin.StackSafe (p.optimize passes) pos := by
  have hids := nodup_loopIds_optimize hp passes
  exact ⟨Jasmin.read?_artifact _, Jasmin.returns_program hids hends,
    fun _ _ => Jasmin.stackSafe_of_main⟩

theorem returns_jasmin_artifact_echo :
    let code := Jasmin.program (echo.optimize 1)
    ofSource ",[.[-],]" = .ok echo ∧
      Jasmin.read? (Jasmin.artifact (echo.optimize 1)) = some code ∧
      ∃ cells, Jasmin.Returns code [65] #[65] cells := by
  have hbyte : (65 : UInt8) ≠ 0 := by decide
  obtain ⟨final, hends, hwritten⟩ := exists_ends_echo inBounds_start hbyte
  rw [← optimize_echo] at hends
  obtain ⟨hcode, hreturns, -⟩ := returns_jasmin_artifact ofSource_echo 1 hends
  rw [hwritten] at hreturns
  exact ⟨ofSource_echo, hcode, _, hreturns⟩

end Jasmin

end TapeCompiler.Program
