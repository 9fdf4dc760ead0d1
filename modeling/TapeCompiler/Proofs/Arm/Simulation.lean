import TapeCompiler.Proofs.AssemblySimulation
import TapeCompiler.Proofs.Serving
import TapeCompiler.Proofs.Arm.Execution

/-!
# ARM assembly does what the program does

A state of the ARM machine represents a tape machine if `r4` holds the address of the
cell at the pointer, and the memory the cells. The address wraps with the low half of the
pointer, so a pointer that leaves the tape and comes back is still at the right cell.
-/

namespace TapeCompiler.Arm

open Transition (Reaches)

/-- A state of the ARM machine stands for a machine with a tape. -/
structure Represents (base : UInt32) (m : Machine) (s : State) : Prop where
  address_eq : s.registers pointer = base + m.tape.word.toUInt32
  memory_eq : s.memory = m.tape.cells
  size_eq : m.tape.cells.size = Tape.standardLength
  serves : m.Serves s.input s.output

variable {base : UInt32} {m m' : Machine} {s : State}

namespace Represents

/-- Other registers do not matter. -/
theorem set (h : Represents base m s) {r : Register} (hr : r ≠ pointer) (value : UInt32) :
    Represents base m (s.set r value) :=
  ⟨(State.set_registers_of_ne hr.symm).trans h.address_eq, h.memory_eq, h.size_eq, h.serves⟩

/-- A state stands for the machine after a change of the cell if its memory is changed at
the place of the cell. -/
theorem change (h : Represents base m s) {hp : m.tape.InBounds} {f : UInt8 → UInt8}
    (htape : m'.tape = m.tape.change (m.tape.place hp) f) {memory : Array UInt8}
    {input : List UInt8} (hserves : m'.Serves input s.output)
    (hmemory : memory =
      m.tape.cells.set (m.tape.place hp) (f (m.tape.cell hp)) (m.tape.place hp).isLt) :
    Represents base m' { s with memory, input } where
  address_eq := by
    rw [htape]
    exact h.address_eq
  memory_eq := by
    rw [htape, Tape.cells_change hp, ← hmemory]
  size_eq := by
    rw [htape, Tape.cells_change hp, Array.size_set, h.size_eq]
  serves := hserves

/-- The address of the cell at the pointer stands for the place of the cell. -/
theorem offset (hbase : base.toNat + Tape.standardLength ≤ 2 ^ 32) (h : Represents base m s)
    (hp : m.tape.InBounds) :
    ∃ i, s.offset? base (s.registers pointer) = some i ∧ (i : Nat) = m.tape.place hp := by
  have hsize := h.size_eq
  have hlength : Tape.standardLength = 30000 := rfl
  have hplace := (m.tape.place hp).isLt
  have haddress : (s.registers pointer).toNat = base.toNat + m.tape.place hp := by
    rw [h.address_eq, UInt32.toNat_add, Tape.toNat_word hp (by omega)]
    exact Nat.mod_eq_of_lt (by omega)
  have hfound : base.toNat ≤ (s.registers pointer).toNat ∧
      (s.registers pointer).toNat - base.toNat < s.memory.size := by
    rw [haddress, h.memory_eq]
    omega
  refine ⟨_, dif_pos hfound, ?_⟩
  simp only [haddress]
  omega

theorem effect_loadByte (hbase : base.toNat + Tape.standardLength ≤ 2 ^ 32)
    (h : Represents base m s) (hp : m.tape.InBounds) (dest : Register) :
    (Statement.loadByte dest pointer).effect base s =
      .next (s.set dest (m.tape.cell hp).toUInt32) := by
  obtain ⟨i, hoffset, hi⟩ := h.offset hbase hp
  have hcell : s.memory[i] = m.tape.cell hp := by
    simp only [Fin.getElem_fin, hi, h.memory_eq, Tape.cell]
  simp only [Statement.effect, hoffset, hcell]

/-- A store changes the cell at the pointer to the low byte of a register. -/
theorem exists_effect_storeByte (hbase : base.toNat + Tape.standardLength ≤ 2 ^ 32)
    (h : Represents base m s) {hp : m.tape.InBounds} {f : UInt8 → UInt8}
    (htape : m'.tape = m.tape.change (m.tape.place hp) f) (hserves : m'.Serves s.input s.output)
    (of : Register) (hvalue : (s.registers of).toUInt8 = f (m.tape.cell hp)) :
    ∃ s', (Statement.storeByte of pointer).effect base s = .next s' ∧
      Represents base m' s' := by
  obtain ⟨i, hoffset, hi⟩ := h.offset hbase hp
  refine ⟨{ s with memory := s.memory.set i (s.registers of).toUInt8 }, ?_, ?_⟩
  · simp only [Statement.effect, hoffset]
  · exact h.change htape hserves (by simp only [hi, hvalue, h.memory_eq])

/-- Streams may go on while the tape stays. -/
theorem of_tape_eq (h : Represents base m s) (htape : m'.tape = m.tape) {input : List UInt8}
    {output : Array UInt8} (hserves : m'.Serves input output) :
    Represents base m' { s with input, output } where
  address_eq := by
    rw [htape]
    exact h.address_eq
  memory_eq := by
    rw [htape]
    exact h.memory_eq
  size_eq := by
    rw [htape]
    exact h.size_eq
  serves := hserves

theorem shift (h : Represents base m s) {amount : Int}
    (htape : m'.tape = m.tape.shift (Int64.ofInt amount)) (hserves : m'.Serves s.input s.output) :
    Represents base m'
      (s.set pointer (s.registers pointer + (Int32.ofInt amount).toUInt32)) where
  address_eq := by
    rw [State.set_registers_self, htape, Tape.word_shift, Int32.toUInt32_add, h.address_eq,
      UInt32.add_assoc]
  memory_eq := by
    rw [htape]
    exact h.memory_eq
  size_eq := by
    rw [htape]
    exact h.size_eq
  serves := hserves

end Represents

theorem toUInt32_ofInt (amount : Int) :
    (Int32.ofInt amount).toUInt32 =
      if amount < 0 then -UInt32.ofNat amount.natAbs else UInt32.ofNat amount.natAbs := by
  split
  next hneg =>
    have hamount : amount = -(amount.natAbs : Int) := by omega
    rw [hamount, Int32.ofInt_neg, Int32.toUInt32_neg, Int32.ofInt_eq_ofNat,
      Int32.toUInt32_ofNat', Int.natAbs_neg, Int.natAbs_natCast]
  next hpos =>
    have hamount : amount = (amount.natAbs : Int) := by omega
    rw [hamount, Int32.ofInt_eq_ofNat, Int32.toUInt32_ofNat', Int.natAbs_natCast]

/-- The pointer moves by the amount, whether this is added or taken off. -/
theorem effect_shiftPointer {amount : Int} {operand : Operand}
    (hoperand : s.operand operand = UInt32.ofNat amount.natAbs) :
    (shiftPointer (amount < 0) operand).effect base s =
      .next (s.set pointer (s.registers pointer + (Int32.ofInt amount).toUInt32)) := by
  rw [toUInt32_ofInt, shiftPointer]
  by_cases hneg : amount < 0
  · simp only [hneg, decide_true, if_true, Statement.effect, hoperand, UInt32.sub_eq_add_neg]
  · simp only [hneg, decide_false, Bool.false_eq_true, if_false, Statement.effect, hoperand]

theorem exists_after_moveStatements (h : Represents base m s) {amount : Int}
    (htape : m'.tape = m.tape.shift (Int64.ofInt amount)) (hserves : m'.Serves s.input s.output) :
    ∃ s', (assembly base).after (moveStatements amount) s = some s' ∧ Represents base m' s' := by
  unfold moveStatements
  split
  next =>
    exact ⟨_, Assembly.after_cons (effect_shiftPointer rfl) [], h.shift htape hserves⟩
  next =>
    have hload : (Statement.loadConstant scratch amount.natAbs).effect base s =
        .next (s.set scratch (UInt32.ofNat amount.natAbs)) := rfl
    have hvalue : (s.set scratch (UInt32.ofNat amount.natAbs)).operand (.register scratch) =
        UInt32.ofNat amount.natAbs := State.set_registers_self ..
    have hscratch := h.set (r := scratch) (by decide) (UInt32.ofNat amount.natAbs)
    exact ⟨_, (Assembly.after_cons hload _).trans
      (Assembly.after_cons (effect_shiftPointer hvalue) []), hscratch.shift htape hserves⟩

/-- Four registers are set up for a kernel call on the byte at the pointer. -/
def State.prepare (s : State) (file number : UInt32) : State :=
  (((s.set .r0 file).set .r1 (s.registers pointer)).set .r2 1).set .r7 number

theorem State.prepare_registers (s : State) (file number : UInt32) :
    (s.prepare file number).registers .r0 = file ∧
      (s.prepare file number).registers .r1 = (s.prepare file number).registers pointer ∧
      (s.prepare file number).registers .r2 = 1 ∧
      (s.prepare file number).registers .r7 = number :=
  ⟨rfl, rfl, rfl, rfl⟩

theorem Represents.prepare (h : Represents base m s) (file number : UInt32) :
    Represents base m (s.prepare file number) :=
  (((h.set (by decide) _).set (by decide) _).set (by decide) _).set (by decide) _

theorem after_streamCall {file number : Nat} {s' : State}
    (hkernel : (s.prepare (UInt32.ofNat file) (UInt32.ofNat number)).kernel base = .next s') :
    (assembly base).after (streamCall file number) s = some s' := by
  have hpointer : (s.set .r0 (UInt32.ofNat file)).registers pointer = s.registers pointer :=
    State.set_registers_of_ne (by decide)
  rw [State.prepare, ← hpointer] at hkernel
  exact (Assembly.after_cons rfl _).trans <| (Assembly.after_cons rfl _).trans <|
    (Assembly.after_cons rfl _).trans <| (Assembly.after_cons rfl _).trans <|
      Assembly.after_cons hkernel []

section Kernel

variable (hbase : base.toNat + Tape.standardLength ≤ 2 ^ 32) {hp : m.tape.InBounds}

include hbase

/-- The kernel writes the cell at the pointer. -/
theorem exists_kernel_write (h : Represents base m s) (htape : m'.tape = m.tape)
    (hserves : m'.Serves s.input (s.output.push (m.tape.cell hp))) :
    ∃ s', (s.prepare 1 4).kernel base = .next s' ∧ Represents base m' s' := by
  have hready := h.prepare 1 4
  obtain ⟨i, hoffset, hi⟩ := hready.offset hbase hp
  have hcell : (s.prepare 1 4).memory[i] = m.tape.cell hp := by
    simp only [Fin.getElem_fin, hi, hready.memory_eq, Tape.cell]
  have hkernel : (s.prepare 1 4).kernel base =
      .next ({ s.prepare 1 4 with output := s.output.push (m.tape.cell hp) }.set .r0 1) := by
    simp only [State.kernel, s.prepare_registers 1 4, hoffset, hcell]
    rfl
  exact ⟨_, hkernel, (hready.of_tape_eq htape hserves).set (by decide) 1⟩

/-- The kernel reads the next byte into the cell at the pointer. -/
theorem exists_kernel_read (h : Represents base m s) {value : UInt8} {rest : List UInt8}
    (hinput : s.input = value :: rest)
    (htape : m'.tape = m.tape.change (m.tape.place hp) fun _ => value)
    (hserves : m'.Serves rest s.output) :
    ∃ s', (s.prepare 0 3).kernel base = .next s' ∧ Represents base m' s' := by
  have hready := h.prepare 0 3
  obtain ⟨i, hoffset, hi⟩ := hready.offset hbase hp
  have hkernel : (s.prepare 0 3).kernel base =
      .next ({ s.prepare 0 3 with
        memory := (s.prepare 0 3).memory.set i value, input := rest }.set .r0 1) := by
    have hinput' : (s.prepare 0 3).input = value :: rest := hinput
    simp only [State.kernel, s.prepare_registers 0 3, hoffset, hinput']
    rfl
  refine ⟨_, hkernel, (hready.change htape hserves ?_).set (by decide) 1⟩
  simp only [hi, hready.memory_eq]

/-- At the end of the input the kernel leaves the cell alone. -/
theorem exists_kernel_end (h : Represents base m s) (hp : m.tape.InBounds)
    (hinput : s.input = []) (htape : m'.tape = m.tape) (hserves : m'.Serves s.input s.output) :
    ∃ s', (s.prepare 0 3).kernel base = .next s' ∧ Represents base m' s' := by
  have hready := h.prepare 0 3
  obtain ⟨i, hoffset, -⟩ := hready.offset hbase hp
  have hkernel : (s.prepare 0 3).kernel base = .next ((s.prepare 0 3).set .r0 0) := by
    have hinput' : (s.prepare 0 3).input = [] := hinput
    simp only [State.kernel, s.prepare_registers 0 3, hoffset, hinput']
    rfl
  exact ⟨_, hkernel, (hready.of_tape_eq htape hserves).set (by decide) 0⟩

end Kernel

/-- The statements of a command do what the command does. -/
theorem exists_after_commandStatements (hbase : base.toNat + Tape.standardLength ≤ 2 ^ 32)
    (h : Represents base m s) {c : Command} (hact : m.act c.action = (.ok (), m')) :
    ∃ s', (assembly base).after (commandStatements c) s = some s' ∧ Represents base m' s' := by
  cases c with
  | move amount =>
      obtain ⟨htape, hserves⟩ := h.serves.of_shift hact
      exact exists_after_moveStatements h htape hserves
  | add amount =>
      obtain ⟨hp, htape, hserves⟩ := h.serves.of_change hact
      have hload := h.effect_loadByte hbase hp value
      have hsum := (h.set (r := value) (by decide) (m.tape.cell hp).toUInt32).set (r := value)
        (by decide) ((m.tape.cell hp).toUInt32 + UInt32.ofNat (stepByte amount).toNat)
      obtain ⟨s', hstore, hs'⟩ := hsum.exists_effect_storeByte hbase htape hserves value
        (by rw [State.set_registers_self, UInt32.ofNat_uInt8ToNat, UInt32.toUInt8_add,
          UInt8.toUInt8_toUInt32, UInt8.toUInt8_toUInt32])
      have hadd : (Statement.add value value (.immediate (stepByte amount).toNat)).effect base
          (s.set value (m.tape.cell hp).toUInt32) = .next _ := rfl
      refine ⟨s', ?_, hs'⟩
      exact (Assembly.after_cons hload _).trans <| (Assembly.after_cons hadd _).trans <|
        Assembly.after_cons hstore []
  | clear =>
      obtain ⟨hp, htape, hserves⟩ := h.serves.of_change hact
      have hzero := h.set (r := value) (by decide) 0
      obtain ⟨s', hstore, hs'⟩ := hzero.exists_effect_storeByte hbase htape hserves value rfl
      exact ⟨s', (Assembly.after_cons rfl _).trans (Assembly.after_cons hstore []), hs'⟩
  | print =>
      obtain ⟨hp, htape, hserves⟩ := h.serves.of_write hact
      obtain ⟨s', hkernel, hs'⟩ := exists_kernel_write hbase h htape hserves
      exact ⟨s', after_streamCall hkernel, hs'⟩
  | read =>
      obtain ⟨hp, ⟨hinput, htape, hserves⟩ | ⟨value, rest, hinput, htape, hserves⟩⟩ :=
        h.serves.of_read hact
      · obtain ⟨s', hkernel, hs'⟩ := exists_kernel_end hbase h hp hinput htape (hinput ▸ hserves)
        exact ⟨s', after_streamCall hkernel, hs'⟩
      · obtain ⟨s', hkernel, hs'⟩ := exists_kernel_read hbase h hinput htape hserves
        exact ⟨s', after_streamCall hkernel, hs'⟩

/-- The test of a loop compares the cell with zero. -/
theorem exists_after_test (hbase : base.toNat + Tape.standardLength ≤ 2 ^ 32)
    (h : Represents base m s) {zero : Bool} (hzero : m.isZero = .ok zero) (id : Nat) :
    ∃ s', Represents base m s' ∧ (assembly base).after
        [.label (.start id), .loadByte value pointer, .cmp value (.immediate 0)] s = some s' ∧
      s'.equal = zero := by
  have hp := Machine.inBounds_of_isZero hzero
  have hload := h.effect_loadByte hbase hp value
  rw [Machine.isZero_of_inBounds hp] at hzero
  have hcell : ((m.tape.cell hp).toUInt32 == UInt32.ofNat 0) = zero := by
    rw [← Except.ok.inj hzero, Bool.eq_iff_iff, beq_iff_eq, beq_iff_eq]
    exact UInt8.toUInt32_inj (b := 0)
  have hcmp : (Statement.cmp value (.immediate 0)).effect base
      (s.set value (m.tape.cell hp).toUInt32) =
        .next { s.set value (m.tape.cell hp).toUInt32 with equal := zero } := by
    simp only [Statement.effect, State.set_registers_self, State.operand, hcell]
  have hloaded := h.set (r := value) (by decide) (m.tape.cell hp).toUInt32
  refine ⟨{ s.set value (m.tape.cell hp).toUInt32 with equal := zero },
    ⟨hloaded.address_eq, hloaded.memory_eq, hloaded.size_eq, hloaded.serves⟩, ?_, rfl⟩
  exact (Assembly.after_cons rfl _).trans <| (Assembly.after_cons hload _).trans <|
    Assembly.after_cons hcmp []

/-- The code around the bodies of loops. -/
def loopCode (hbase : base.toNat + Tape.standardLength ≤ 2 ^ 32) :
    (assembly base).LoopCode body (Represents base) where
  start := .start
  finish := .finish
  startLine := fun id => .label (.start id)
  test := [.loadByte value pointer, .cmp value (.immediate 0)]
  branch := fun id => .branchEqual (.finish id)
  back := fun id => .branch (.start id)
  finishLine := fun id => .label (.finish id)
  opening_eq := body_opening
  closing_eq := body_closing
  label?_startLine := fun _ => rfl
  label?_finishLine := fun _ => rfl
  effect_back := fun _ _ => rfl
  effect_finishLine := fun _ _ => rfl
  tests := by
    intro m s zero id h hzero
    obtain ⟨s', hs', hafter, hequal⟩ := exists_after_test hbase h hzero id
    refine ⟨s', s', hs', hafter, ?_⟩
    simp only [assembly, Statement.effect, hequal]

/-- What is written for commands and around the bodies of loops does what they do. -/
theorem implements_body (hbase : base.toNat + Tape.standardLength ≤ 2 ^ 32)
    {code : List Statement} (hnodup : (code.filterMap labelling.label?).Nodup) :
    (assembly base).Implements code (Represents base) body := by
  refine (loopCode hbase).implements hnodup ?_
  intro place c k m m' hat hact s hs
  rw [body_command] at hat ⊢
  obtain ⟨s', hafter, hs'⟩ := exists_after_commandStatements hbase hs hact
  exact ⟨s', hs', Assembly.reaches_of_after hat hafter⟩

section Artifact

/-- The state in which an artifact is entered. -/
def initial (registers : Register → UInt32) (equal : Bool) (input : List UInt8) : State :=
  { registers, equal, memory := Array.replicate Tape.standardLength 0, input }

theorem load?_program (p : Program) (registers : Register → UInt32) (equal : Bool)
    (input : List UInt8) :
    load? (program p) registers equal input = some ⟨4, initial registers equal input⟩ := by
  have hentry : (program p).findIdx? (· = .entry) = some 4 := by
    rw [program, List.append_assoc, List.findIdx?_append]
    rfl
  have hreserved : reserved? (program p) = some Tape.standardLength := rfl
  rw [load?, hentry, hreserved]
  rfl

theorem represents_initial (base : UInt32) (registers : Register → UInt32) (equal : Bool)
    (input : List UInt8) :
    Represents base (Machine.start Tape.standardLength (inputOfBytes input) {})
      ((initial registers equal input).set pointer base) where
  address_eq := by
    have hword : (Tape.blank Tape.standardLength).word.toUInt32 = 0 := rfl
    rw [State.set_registers_self, Machine.start, hword, UInt32.add_zero]
  memory_eq := rfl
  size_eq := Array.size_replicate
  serves := Machine.serves_start _ input

/-- Where the artifact ends, the machine exits. -/
theorem ends_tail (base : UInt32) (code : List Statement) {k : Nat}
    (hat : tail <+: code.drop k) (s : State) :
    ∃ final : State, Transition.Ends ((assembly base).step code) ⟨k, s⟩ (.exited 0 final) ∧
      final.output = s.output ∧ final.memory = s.memory := by
  have hparts : [.comment "exit(0)", .mov .r0 (.immediate 0), .mov .r7 (.immediate 1)] ++
      [.kernel] <+: code.drop k := hat
  have hready : Reaches ((assembly base).step code) ⟨k, s⟩
      ⟨k + 3, (s.set .r0 0).set .r7 1⟩ :=
    Assembly.reaches_of_after ((List.prefix_append _ _).trans hparts) rfl
  have hkernel := getElem?_of_isPrefix_drop (isPrefix_drop_of_append hparts)
  exact ⟨_, Transition.ends_of_reaches hready (Assembly.ends_of_stop hkernel rfl), rfl, rfl⟩

/-- If a program whose loops have ids of their own ends well, running its artifact comes to
the call that exits, with the same output and the same memory. -/
theorem exits_artifact (hbase : base.toNat + Tape.standardLength ≤ 2 ^ 32) {p : Program}
    (hids : p.loopIds.Nodup) {input : List UInt8} {final : Machine}
    (hends : p.Ends (Machine.start Tape.standardLength (inputOfBytes input) {}) (.ok (), final)) :
    Exits base (artifact p) input final.sink.written final.tape.cells := by
  obtain ⟨m, hp, htape, hwritten⟩ := hends.exists_evaluates
  refine ⟨program p, read?_artifact p, fun registers equal => ?_⟩
  have hentry : [.entry, .loadTape pointer] <+: (program p).drop 4 :=
    ⟨body.write {} p ++ tail, rfl⟩
  have hparts : body.write {} p ++ tail <+: (program p).drop 6 := List.prefix_rfl
  have hstart : Reaches ((assembly base).step (program p)) ⟨4, initial registers equal input⟩
      ⟨6, (initial registers equal input).set pointer base⟩ :=
    Assembly.reaches_of_after hentry rfl
  have hbody := (implements_body hbase (nodup_label?_program hids)).carries hp {}
    ((List.prefix_append _ _).trans hparts)
  obtain ⟨s, hs, hreaches⟩ := hbody _ (represents_initial base registers equal input)
  obtain ⟨last, hlast, houtput, hmemory⟩ :=
    ends_tail base (program p) (isPrefix_drop_of_append hparts) s
  refine ⟨_, last, load?_program p registers equal input, ?_, ?_, ?_⟩
  · exact Transition.ends_of_reaches (hstart.trans hreaches) hlast
  · rw [houtput, hwritten, hs.serves.written_eq]
  · rw [hmemory, htape, hs.memory_eq]

end Artifact

end TapeCompiler.Arm
