import Mathlib.Algebra.Ring.Int.Defs
import TapeCompiler.Proofs.AssemblySimulation
import TapeCompiler.Proofs.Serving
import TapeCompiler.Proofs.Jasmin.StackHeight

/-!
# Jasmin assembly does what the program does

A frame represents a tape machine between the code of two nodes if nothing is on the
stack, the second variable holds the pointer, and the array in the first one the cells,
each as the byte with a sign that has the same bits. The pointer wraps earlier here, but
on the cells of the tape the two agree.
-/

namespace TapeCompiler.Jasmin

open Transition (Reaches)

section Numbers

/-- A signed step changes the bits of a cell as the byte does that it stands for. -/
theorem ofInt_signedStep (amount : Int) :
    Int8.ofInt (signedStep amount) = (stepByte amount).toInt8 := by
  have hsize : Int8.size = 256 := rfl
  rw [stepByte, UInt8.ofInt, UInt8.toInt8_ofNat', ← Int8.ofInt_eq_ofNat,
    Int.toNat_of_nonneg (Int.emod_nonneg _ (by decide)), Int8.ofInt_eq_iff_bmod_eq_toInt,
    Int8.toInt_ofInt, signedStep, hsize]
  exact Int.bmod_bmod.trans (Int.emod_bmod amount 256).symm

/-- The steps of a move come to the amount. -/
theorem sum_moveSteps (amount : Int) : (moveSteps amount).sum = amount := by
  have hlast (last : Int) : (if last = 0 then [] else [last]).sum = last := by
    split
    next h => exact h.symm
    next => exact List.sum_singleton
  rw [moveSteps, List.sum_append, hlast, List.sum_replicate_int,
    Int.add_comm, Int.sub_add_cancel]

/-- What a read call gives for a byte keeps its bits. -/
theorem toInt8_ofNat_toNat (value : UInt8) :
    (Int32.ofNat value.toNat).toInt8 = value.toInt8 := by
  rw [Int32.toInt8_ofNat', ← UInt8.toInt8_ofNat', UInt8.ofNat_toNat]

/-- The number of a byte is told from the end of the input by its sign. -/
theorem ofNat_toNat_nonneg (value : UInt8) : ¬ Int32.ofNat value.toNat < 0 := by
  have hbound := value.toNat_lt
  rw [Int32.lt_iff_toInt_lt, Int32.toInt_ofNat_of_lt (by omega)]
  exact Int.not_lt.mpr (Int.natCast_nonneg _)

/-- A cell is zero if it is loaded as zero. -/
theorem toInt32_toInt8_eq_zero {value : UInt8} : value.toInt8.toInt32 = 0 ↔ value = 0 := by
  constructor
  · intro h
    have hback : value.toInt8.toInt32.toInt8.toUInt8 = value := by
      rw [Int8.toInt8_toInt32, UInt8.toUInt8_toInt8]
    rw [← hback, h]
    rfl
  · rintro rfl
    rfl

end Numbers

namespace Frame

variable {f : Frame} {slot : Slot} {value : Value}

theorem assign_self (h : f.locals slot = some value) : f.assign slot value f.stack = f := by
  have hlocals : (fun slot' => if slot' = slot then some value else f.locals slot') = f.locals := by
    funext slot'
    split
    next heq => rw [heq, h]
    next => rfl
  rw [assign, hlocals]

theorem assign_assign (f : Frame) (slot : Slot) (value value' : Value)
    (stack stack' : List Value) :
    (f.assign slot value stack).assign slot value' stack' = f.assign slot value' stack' := by
  simp only [assign, mk.injEq, true_and, and_true]
  funext slot'
  split <;> rfl

end Frame

/-- The variables of a frame hold a tape. -/
structure Holds (tape : Tape) (f : Frame) : Prop where
  tape_eq : f.locals .tape = some (.array 0)
  pointer_eq : f.locals .pointer = some (.int tape.word)
  arrays_eq : f.arrays = #[tape.cells.map UInt8.toInt8]
  size_eq : tape.cells.size = Tape.standardLength

/-- A frame stands for a machine with a tape. -/
structure Represents (m : Machine) (f : Frame) : Prop where
  stack_eq : f.stack = []
  holds : Holds m.tape f
  serves : m.Serves f.input f.output

namespace Holds

variable {tape : Tape} {f : Frame}

/-- The stack and the streams do not matter. -/
theorem other (h : Holds tape f) (stack : List Value) (input : List UInt8)
    (output : Array UInt8) : Holds tape { f with stack, input, output } :=
  ⟨h.tape_eq, h.pointer_eq, h.arrays_eq, h.size_eq⟩

theorem assign_input (h : Holds tape f) (value : Value) (stack : List Value) :
    Holds tape (f.assign .input value stack) :=
  ⟨h.tape_eq, h.pointer_eq, h.arrays_eq, h.size_eq⟩

theorem shift (h : Holds tape f) (amount : Int) (stack : List Value) :
    Holds (tape.shift (Int64.ofInt amount))
      (f.assign .pointer (.int (tape.word + Int32.ofInt amount)) stack) where
  tape_eq := h.tape_eq
  pointer_eq := by
    rw [Tape.word_shift]
    rfl
  arrays_eq := h.arrays_eq
  size_eq := h.size_eq

theorem toInt_word (h : Holds tape f) (hp : tape.InBounds) :
    tape.word.toInt = (tape.place hp : Nat) := by
  refine Tape.toInt_word hp ?_
  rw [h.size_eq]
  decide

theorem byte? (h : Holds tape f) (hp : tape.InBounds) :
    f.byte? 0 tape.word = some (tape.cell hp).toInt8 := by
  have hsign : 0 ≤ tape.word := by
    rw [Int32.le_iff_toInt_le, h.toInt_word hp]
    exact Int.natCast_nonneg _
  rw [Frame.byte?, if_pos hsign, h.arrays_eq, h.toInt_word hp, Int.toNat_natCast]
  simp [Tape.cell]

theorem setByte (h : Holds tape f) (hp : tape.InBounds) (g : UInt8 → UInt8)
    (stack : List Value) :
    Holds (tape.change (tape.place hp) g)
      (f.setByte 0 tape.word (g (tape.cell hp)).toInt8 stack) where
  tape_eq := h.tape_eq
  pointer_eq := h.pointer_eq
  arrays_eq := by
    have hplace : (tape.place hp : Nat) < (tape.cells.map UInt8.toInt8).size := by
      rw [Array.size_map]
      exact (tape.place hp).isLt
    rw [Frame.setByte, h.arrays_eq, h.toInt_word hp, Int.toNat_natCast, Tape.cells_change hp,
      Array.map_set]
    exact congrArg (#[·]) (dif_pos hplace)
  size_eq := by
    rw [Tape.cells_change hp, Array.size_set, h.size_eq]

theorem after_cellAddress (h : Holds tape f) (rest : List Instruction) :
    assembly.after (cellAddress ++ rest) f =
      assembly.after rest { f with stack := .int tape.word :: .array 0 :: f.stack } := by
  simp [cellAddress, Assembly.after, assembly, Instruction.effect, Frame.push, h.tape_eq,
    h.pointer_eq]

theorem effect_loadByte (h : Holds tape f) (hp : tape.InBounds) (stack : List Value) :
    Instruction.loadByte.effect { f with stack := .int tape.word :: .array 0 :: stack } =
      .next { f with stack := .int (tape.cell hp).toInt8.toInt32 :: stack } := by
  have hbyte := (h.other (.int tape.word :: .array 0 :: stack) f.input f.output).byte? hp
  simp only [Instruction.effect, hbyte, Frame.push]

theorem effect_storeByte (h : Holds tape f) (hp : tape.InBounds) (n : Int32)
    (stack : List Value) :
    Instruction.storeByte.effect
        { f with stack := .int n :: .int tape.word :: .array 0 :: stack } =
      .next (f.setByte 0 tape.word n.toInt8 stack) := by
  have hbyte := (h.other (.int n :: .int tape.word :: .array 0 :: stack) f.input f.output).byte? hp
  simp only [Instruction.effect, hbyte, Option.isSome_some, if_true, Frame.setByte]

end Holds

variable {m m' : Machine} {f : Frame}

/-- Where the byte of the cell is stored, a frame stands for the machine after the change. -/
theorem Holds.represents_setByte (h : Holds m.tape f) {hp : m.tape.InBounds}
    {g : UInt8 → UInt8} (htape : m'.tape = m.tape.change (m.tape.place hp) g)
    (hserves : m'.Serves f.input f.output) {value : Int8}
    (hvalue : value = (g (m.tape.cell hp)).toInt8) :
    Represents m' (f.setByte 0 m.tape.word value []) where
  stack_eq := rfl
  holds := by
    rw [htape, hvalue]
    exact h.setByte hp g []
  serves := hserves

/-- Steps of the pointer add up. -/
theorem after_increments {n : Int32} (h : f.locals .pointer = some (.int n))
    (steps : List Int) :
    assembly.after (steps.map .increment) f =
      some (f.assign .pointer (.int (n + Int32.ofInt steps.sum)) f.stack) := by
  induction steps generalizing f n with
  | nil =>
      have hzero : n + Int32.ofInt 0 = n := Int32.add_zero n
      rw [List.sum_nil, hzero, Frame.assign_self h]
      rfl
  | cons step steps ih =>
      have hstep : (Instruction.increment step).effect f =
          .next (f.assign .pointer (.int (n + Int32.ofInt step)) f.stack) := by
        simp only [Instruction.effect, h]
      have hrest := ih (f := f.assign .pointer (.int (n + Int32.ofInt step)) f.stack)
        (n := n + Int32.ofInt step) rfl
      rw [List.map_cons, Assembly.after_cons hstep, hrest, List.sum_cons, Int32.ofInt_add,
        ← Int32.add_assoc, Frame.assign_assign]
      rfl

/-- The instructions of a command that reads nothing do what the command does. -/
theorem exists_after_commandInstructions (h : Represents m f) (number : Nat) {c : Command}
    (hc : c ≠ .read) (hact : m.act c.action = (.ok (), m')) :
    ∃ f', assembly.after (commandInstructions number c) f = some f' ∧ Represents m' f' := by
  cases c with
  | read => exact absurd rfl hc
  | move amount =>
      obtain ⟨htape, hserves⟩ := h.serves.of_shift hact
      have hafter := after_increments h.holds.pointer_eq (moveSteps amount)
      rw [sum_moveSteps] at hafter
      refine ⟨_, hafter, h.stack_eq, ?_, hserves⟩
      rw [htape]
      exact h.holds.shift amount _
  | add amount =>
      obtain ⟨hp, htape, hserves⟩ := h.serves.of_change hact
      have hvalue : ((m.tape.cell hp).toInt8.toInt32 +
          Int32.ofInt (signedStep amount)).toInt8.toInt32.toInt8 =
            (m.tape.cell hp + stepByte amount).toInt8 := by
        simp [ofInt_signedStep]
      refine ⟨_, ?_, h.holds.represents_setByte htape hserves hvalue⟩
      rw [commandInstructions, h.holds.after_cellAddress, h.stack_eq]
      exact (Assembly.after_cons rfl _).trans <|
        (Assembly.after_cons (h.holds.effect_loadByte hp _) _).trans <|
          (Assembly.after_cons rfl _).trans <| (Assembly.after_cons rfl _).trans <|
            (Assembly.after_cons rfl _).trans <|
              Assembly.after_cons (h.holds.effect_storeByte hp _ _) []
  | clear =>
      obtain ⟨hp, htape, hserves⟩ := h.serves.of_change hact
      refine ⟨_, ?_, h.holds.represents_setByte htape hserves rfl⟩
      rw [commandInstructions, h.holds.after_cellAddress, h.stack_eq]
      exact (Assembly.after_cons rfl _).trans <|
        Assembly.after_cons (h.holds.effect_storeByte hp _ _) []
  | print =>
      obtain ⟨hp, htape, hserves⟩ := h.serves.of_write hact
      have hready := h.holds.other [.output] f.input f.output
      refine ⟨{ f with stack := [], output := f.output.push (m.tape.cell hp) }, ?_, rfl, ?_,
        hserves⟩
      · have houtput : Instruction.output.effect f = .next { f with stack := [.output] } := by
          simp only [Instruction.effect, Frame.push, h.stack_eq]
        have hwrite : Instruction.callWrite.effect
              { f with stack := [.int (m.tape.cell hp).toInt8.toInt32, .output] } =
            .next { f with stack := [], output := f.output.push (m.tape.cell hp) } := by
          simp [Instruction.effect]
        rw [commandInstructions, List.cons_append, Assembly.after_cons houtput,
          hready.after_cellAddress]
        exact (Assembly.after_cons (hready.effect_loadByte hp _) _).trans <|
          Assembly.after_cons hwrite []
      · rw [htape]
        exact h.holds.other _ _ _

/-- What a read call gives. -/
def nextInt : List UInt8 → Int32
  | [] => -1
  | value :: _ => Int32.ofNat value.toNat

/-- The frame when the third variable has what a read call gave. -/
def Frame.asked (f : Frame) : Frame :=
  { f.assign .input (.int (nextInt f.input)) [] with input := f.input.tail }

theorem Holds.asked {tape : Tape} (h : Holds tape f) : Holds tape f.asked :=
  (h.assign_input _ _).other _ _ _

/-- A read starts by asking for the next byte. -/
theorem after_ask (h : f.stack = []) :
    assembly.after [.input, .callRead, .storeInt .input, .loadInt .input] f =
      some { f.asked with stack := [.int (nextInt f.input)] } := by
  obtain ⟨stack, locals, arrays, input, output⟩ := f
  obtain rfl : stack = [] := h
  cases input <;> rfl

/-- What was read is tested on its way from the third variable to the cell. -/
theorem effect_ifNegative (l : Label) (n : Int32) :
    (Instruction.ifNegative l).effect { f with stack := [.int n] } =
      if n < 0 then .jump l { f with stack := [] } else .next { f with stack := [] } := rfl

section Read

variable {code : List Instruction} {k number : Nat}

/-- At the end of the input a read goes behind the store. -/
theorem exists_reaches_read_end (hnodup : (code.filterMap labelling.label?).Nodup)
    (h : Represents m f) (hat : commandInstructions number .read <+: code.drop k)
    (hinput : f.input = []) (htape : m'.tape = m.tape) (hserves : m'.Serves [] f.output) :
    ∃ f', Represents m' f' ∧ Reaches (assembly.step code) ⟨k, f⟩ ⟨k + 11, f'⟩ := by
  have hparts : [.input, .callRead, .storeInt .input, .loadInt .input] ++
      ([.ifNegative (.skip number)] ++ (cellAddress ++ [.loadInt .input, .toByte, .storeByte] ++
        [.label (.skip number)])) <+: code.drop k := hat
  have hbranch := isPrefix_drop_of_append hparts
  have hlabel := isPrefix_drop_of_append (isPrefix_drop_of_append hbranch)
  have hask := Assembly.reaches_of_after ((List.prefix_append _ _).trans hparts)
    (after_ask h.stack_eq)
  have hnegative : nextInt f.input < 0 := by
    rw [hinput]
    decide
  have heffect : assembly.effect (.ifNegative (.skip number))
      { f.asked with stack := [.int (nextInt f.input)] } = .jump (.skip number) f.asked :=
    (effect_ifNegative _ _).trans (if_pos hnegative)
  have hjump := Assembly.reaches_of_jump hnodup (getElem?_of_isPrefix_drop hbranch) heffect
    (getElem?_of_isPrefix_drop hlabel) rfl
  have hpast : Reaches (assembly.step code) ⟨_, f.asked⟩ ⟨k + 11, f.asked⟩ :=
    Assembly.reaches_of_after hlabel rfl
  refine ⟨f.asked, ⟨rfl, ?_, ?_⟩, (hask.trans hjump).trans hpast⟩
  · rw [htape]
    exact h.holds.asked
  · rw [Frame.asked, hinput]
    exact hserves

/-- A byte that was read is stored in the cell. -/
theorem exists_after_read (h : Represents m f) (number : Nat) {value : UInt8}
    {rest : List UInt8} (hinput : f.input = value :: rest) {hp : m.tape.InBounds}
    (htape : m'.tape = m.tape.change (m.tape.place hp) fun _ => value)
    (hserves : m'.Serves rest f.output) :
    ∃ f', assembly.after (commandInstructions number .read) f = some f' ∧
      Represents m' f' := by
  have hasked : nextInt f.input = Int32.ofNat value.toNat := by
    rw [hinput]
    rfl
  have hbranch : (Instruction.ifNegative (.skip number)).effect
      { f.asked with stack := [.int (nextInt f.input)] } = .next f.asked := by
    rw [effect_ifNegative, hasked, if_neg (ofNat_toNat_nonneg value)]
    rfl
  have hvalue : (nextInt f.input).toInt8.toInt32.toInt8 = value.toInt8 := by
    rw [Int8.toInt8_toInt32, hasked, toInt8_ofNat_toNat]
  have hready := h.holds.asked
  have hserves' : m'.Serves f.asked.input f.asked.output := by
    rw [Frame.asked, hinput]
    exact hserves
  refine ⟨_, ?_, hready.represents_setByte htape hserves' hvalue⟩
  rw [commandInstructions, List.append_assoc]
  refine (Assembly.after_append (after_ask h.stack_eq) _).trans ?_
  refine (Assembly.after_cons hbranch _).trans ((hready.after_cellAddress _).trans ?_)
  exact (Assembly.after_cons rfl _).trans <| (Assembly.after_cons rfl _).trans <|
    (Assembly.after_cons (hready.effect_storeByte hp _ _) _).trans (Assembly.after_cons rfl [])

end Read

/-- The test at the start of a loop has the cell on the stack. -/
theorem after_test (h : Represents m f) (hp : m.tape.InBounds) (id : Nat) :
    assembly.after (.label (.start id) :: cellAddress ++ [.loadByte]) f =
      some { f with stack := [.int (m.tape.cell hp).toInt8.toInt32] } := by
  refine (Assembly.after_cons rfl _).trans ((h.holds.after_cellAddress _).trans ?_)
  rw [h.stack_eq]
  exact Assembly.after_cons (h.holds.effect_loadByte hp []) []

/-- The branch of a loop is taken if the cell is zero. -/
theorem effect_ifZero (h : Represents m f) (hp : m.tape.InBounds) (l : Label) :
    (Instruction.ifZero l).effect { f with stack := [.int (m.tape.cell hp).toInt8.toInt32] } =
      if m.tape.cell hp = 0 then .jump l f else .next f := by
  obtain ⟨stack, locals, arrays, input, output⟩ := f
  obtain rfl : stack = [] := h.stack_eq
  simp only [Instruction.effect, toInt32_toInt8_eq_zero]

/-- The code around the bodies of loops. -/
def loopCode : assembly.LoopCode body Represents where
  start := .start
  finish := .finish
  startLine := fun id => .label (.start id)
  test := cellAddress ++ [.loadByte]
  branch := fun id => .ifZero (.finish id)
  back := fun id => .goto (.start id)
  finishLine := fun id => .label (.finish id)
  opening_eq := body_opening
  closing_eq := body_closing
  label?_startLine := fun _ => rfl
  label?_finishLine := fun _ => rfl
  effect_back := fun _ _ => rfl
  effect_finishLine := fun _ _ => rfl
  tests := by
    intro m f zero id h hzero
    have hp := Machine.inBounds_of_isZero hzero
    rw [Machine.isZero_of_inBounds hp] at hzero
    refine ⟨_, f, h, after_test h hp id, (effect_ifZero h hp _).trans ?_⟩
    simp only [← Except.ok.inj hzero, beq_iff_eq]

/-- What is written for commands and around the bodies of loops does what they do. -/
theorem implements_body {code : List Instruction}
    (hnodup : (code.filterMap labelling.label?).Nodup) :
    assembly.Implements code Represents body := by
  refine loopCode.implements hnodup ?_
  intro place c k m m' hat hact f hf
  rw [body_command] at hat ⊢
  by_cases hc : c = .read
  · subst hc
    obtain ⟨hp, ⟨hinput, htape, hserves⟩ | ⟨value, rest, hinput, htape, hserves⟩⟩ :=
      hf.serves.of_read hact
    · exact exists_reaches_read_end hnodup hf hat hinput htape hserves
    · obtain ⟨f', hafter, hf'⟩ := exists_after_read hf place.number hinput htape hserves
      exact ⟨f', hf', Assembly.reaches_of_after hat hafter⟩
  · obtain ⟨f', hafter, hf'⟩ := exists_after_commandInstructions hf place.number hc hact
    exact ⟨f', hf', Assembly.reaches_of_after hat hafter⟩

section Artifact

/-- The frame when the tape and the pointer are set up. -/
def entered (input : List UInt8) : Frame :=
  (({ input, arrays := #[Array.replicate Tape.standardLength 0] } : Frame).assign .tape
    (.array 0) []).assign .pointer (.int 0) []

theorem after_setup (input : List UInt8) :
    assembly.after (head.drop 4) { input } = some (entered input) := by
  have hlength : (Int32.ofInt Tape.standardLength).toInt.toNat = Tape.standardLength := rfl
  have hnew : Instruction.newArray.effect
      { stack := [.int (Int32.ofInt Tape.standardLength)], input } =
        .next { stack := [.array 0], input,
                arrays := #[Array.replicate Tape.standardLength 0] } := by
    have hsign : 0 ≤ Int32.ofInt Tape.standardLength := by decide
    simp only [Instruction.effect, if_pos hsign, hlength]
    rfl
  exact (Assembly.after_cons rfl _).trans <| (Assembly.after_cons rfl _).trans <|
    (Assembly.after_cons rfl _).trans <| (Assembly.after_cons hnew _).trans <|
      (Assembly.after_cons rfl _).trans <| (Assembly.after_cons rfl _).trans <|
        Assembly.after_cons rfl []

theorem represents_entered (input : List UInt8) :
    Represents (Machine.start Tape.standardLength (inputOfBytes input) {}) (entered input) where
  stack_eq := rfl
  holds :=
    { tape_eq := rfl
      pointer_eq := rfl
      arrays_eq := by
        have hcells : (Tape.blank Tape.standardLength).cells.map UInt8.toInt8 =
          Array.replicate Tape.standardLength 0 := Array.map_replicate
        rw [Machine.start, hcells]
        rfl
      size_eq := Array.size_replicate }
  serves := Machine.serves_start _ input

/-- Where the artifact ends, the method returns. -/
theorem ends_tail {code : List Instruction} {k : Nat} (hat : tail <+: code.drop k) (f : Frame) :
    Transition.Ends (assembly.step code) ⟨k, f⟩ (.returned f) := by
  have hparts : [.output, .callFlush] ++ ([.return] ++ [.directive ".end method"]) <+:
      code.drop k := hat
  have hflushed : Reaches (assembly.step code) ⟨k, f⟩ ⟨k + 2, f⟩ :=
    Assembly.reaches_of_after ((List.prefix_append _ _).trans hparts) rfl
  have hreturn := getElem?_of_isPrefix_drop (isPrefix_drop_of_append hparts)
  exact Transition.ends_of_reaches hflushed (Assembly.ends_of_stop hreturn rfl)

/-- If a program whose loops have ids of their own ends well, the method `main` of its
artifact returns, with the same output and the same tape. -/
theorem returns_program {p : Program} (hids : p.loopIds.Nodup) {input : List UInt8}
    {final : Machine}
    (hends : p.Ends (Machine.start Tape.standardLength (inputOfBytes input) {}) (.ok (), final)) :
    Returns (program p) input final.sink.written final.tape.cells := by
  obtain ⟨m, hp, htape, hwritten⟩ := hends.exists_evaluates
  have hsetup : head.drop 4 <+: (program p).drop 4 := ⟨body.write {} p ++ tail, rfl⟩
  have hparts : body.write {} p ++ tail <+: (program p).drop 11 := List.prefix_rfl
  have hstart := Assembly.reaches_of_after hsetup (after_setup input)
  have hbody := (implements_body (nodup_label?_program hids)).carries hp {}
    ((List.prefix_append _ _).trans hparts)
  obtain ⟨f, hf, hreaches⟩ := hbody _ (represents_entered input)
  have hlast := ends_tail (isPrefix_drop_of_append hparts) f
  refine ⟨_, f, main?_program p input, ?_, ?_, ?_⟩
  · exact Transition.ends_of_reaches (hstart.trans hreaches) hlast
  · rw [hwritten, hf.serves.written_eq]
  · have hbytes : Int8.toUInt8 ∘ UInt8.toInt8 = id := funext UInt8.toUInt8_toInt8
    rw [Frame.cells?, hf.holds.tape_eq, htape]
    simp [hf.holds.arrays_eq, hbytes]

end Artifact

end TapeCompiler.Jasmin
