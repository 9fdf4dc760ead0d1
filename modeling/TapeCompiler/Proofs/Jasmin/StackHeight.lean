import TapeCompiler.Proofs.Jasmin.Execution

/-!
# The height of the operand stack

How high the stack is at a place of the code can be read off the code in front of it:
`heightAfter?` follows the instructions one by one and asks that none takes more than is
there, that the limit is kept, and that nothing is on the stack at a label and where an
instruction may go to one.
-/

namespace TapeCompiler.Jasmin

open Transition (Reaches)

/-- The limit that the artifacts declare. -/
def stackLimit : Nat := 6

namespace Instruction

/-- How many values an instruction takes from the stack. -/
def pops : Instruction → Nat
  | storeByte => 3
  | dup2 | loadByte | addInt | callWrite => 2
  | newArray | storeArray _ | storeInt _ | toByte | ifZero _ | ifNegative _ | callRead
  | callFlush => 1
  | _ => 0

/-- How many values an instruction leaves on the stack. -/
def pushes : Instruction → Nat
  | dup2 => 4
  | push _ | newArray | loadArray _ | loadInt _ | loadByte | addInt | toByte | output | input
  | callRead => 1
  | _ => 0

/-- What an instruction does to the height of the stack: it takes its values and leaves
others, and only branches go to labels, where nothing is left. -/
def MovesStack (i : Instruction) (f : Frame) : Flow Label Frame Result → Prop
  | .next f' =>
      i.pops ≤ f.stack.length ∧ f'.stack.length = f.stack.length - i.pops + i.pushes
  | .jump l f' =>
      labelling.target? i = some l ∧ i.pops ≤ f.stack.length ∧
        f'.stack.length = f.stack.length - i.pops
  | .stop _ => True

theorem movesStack_effect (i : Instruction) (f : Frame) : i.MovesStack f (i.effect f) := by
  fun_cases effect i f <;>
    simp_all [MovesStack, Frame.push, Frame.assign, Frame.setByte, pops, pushes, labelling]

end Instruction

section Heights

/-- The height behind an instruction, if it may stand where the stack has a height. -/
def heightBehind? (height : Nat) (i : Instruction) : Option Nat :=
  if i.pops ≤ height ∧ height - i.pops + i.pushes ≤ stackLimit ∧
      ((labelling.label? i).isSome → height = 0) ∧
      ((labelling.target? i).isSome → height - i.pops = 0) then
    some (height - i.pops + i.pushes)
  else none

/-- The height behind instructions. -/
def heightAfter? (height : Nat) (code : List Instruction) : Option Nat :=
  code.foldlM heightBehind? height

theorem heightAfter?_append (height : Nat) (code code' : List Instruction) :
    heightAfter? height (code ++ code') =
      (heightAfter? height code).bind (heightAfter? · code') :=
  List.foldlM_append

theorem heightAfter?_append_of_eq {height middle : Nat} {code : List Instruction}
    (h : heightAfter? height code = some middle) (code' : List Instruction) :
    heightAfter? height (code ++ code') = heightAfter? middle code' := by
  rw [heightAfter?_append, h, Option.bind_some]

theorem heightAfter?_commandInstructions (number : Nat) (c : Command) :
    heightAfter? 0 (commandInstructions number c) = some 0 := by
  cases c with
  | move amount =>
      rw [commandInstructions]
      induction moveSteps amount with
      | nil => rfl
      | cons step steps ih => exact ih
  | _ => rfl

/-- What is written for a program leaves nothing on the stack. -/
theorem heightAfter?_write (place : Place) (p : Program) :
    heightAfter? 0 (body.write place p) = some 0 := by
  induction p using Program.induction generalizing place with
  | nil => rfl
  | command c rest ih =>
      rw [Template.write_command, body_command,
        heightAfter?_append_of_eq (heightAfter?_commandInstructions ..), ih]
  | loop id inner rest ihBody ih =>
      have hopening : heightAfter? 0 (body.opening place id) = some 0 := rfl
      have hclosing : heightAfter? 0 (body.closing place id) = some 0 := rfl
      rw [Template.write_loop, List.append_assoc, List.append_assoc,
        heightAfter?_append_of_eq hopening, heightAfter?_append_of_eq (ihBody _),
        heightAfter?_append_of_eq hclosing, ih]

theorem heightAfter?_of_seam {place : Place} {p : Program} {before : List Instruction}
    (h : body.Seam place p before) : heightAfter? 0 before = some 0 := by
  induction h with
  | here => rfl
  | command _ ih =>
      rw [body_command, heightAfter?_append_of_eq (heightAfter?_commandInstructions ..), ih]
  | @body place id _ _ _ _ ih =>
      have hopening : heightAfter? 0 (body.opening place id) = some 0 := rfl
      rw [heightAfter?_append_of_eq hopening, ih]
  | @loop place id _ _ _ _ ih =>
      have hopening : heightAfter? 0 (body.opening place id) = some 0 := rfl
      have hclosing : heightAfter? 0 (body.closing place id) = some 0 := rfl
      rw [List.append_assoc, List.append_assoc, heightAfter?_append_of_eq hopening,
        heightAfter?_append_of_eq (heightAfter?_write ..), heightAfter?_append_of_eq hclosing, ih]

theorem heightAfter?_head : heightAfter? 0 head = some 0 := rfl

theorem heightAfter?_program (p : Program) : heightAfter? 0 (program p) = some 0 := by
  rw [program, List.append_assoc, heightAfter?_append_of_eq heightAfter?_head,
    heightAfter?_append_of_eq (heightAfter?_write ..)]
  rfl

end Heights

section Runs

variable {code : List Instruction} {last place height : Nat}

theorem heightBehind?_eq_some {i : Instruction} {behind : Nat}
    (h : heightBehind? height i = some behind) :
    i.pops ≤ height ∧ behind = height - i.pops + i.pushes ∧ behind ≤ stackLimit ∧
      ((labelling.label? i).isSome → height = 0) ∧
      ((labelling.target? i).isSome → height - i.pops = 0) := by
  unfold heightBehind? at h
  split at h
  next hi =>
    obtain rfl := Option.some.inj h
    exact ⟨hi.1, rfl, hi.2⟩
  next => cases h

/-- Code that can be followed to its end can be followed to each of its places. -/
theorem exists_heightAfter?_take (hcode : heightAfter? 0 code = some last) (place : Nat) :
    ∃ height, heightAfter? 0 (code.take place) = some height := by
  rw [← List.take_append_drop place code, heightAfter?_append] at hcode
  obtain ⟨height, hheight, -⟩ := Option.bind_eq_some_iff.mp hcode
  exact ⟨height, hheight⟩

theorem exists_heightBehind? (hcode : heightAfter? 0 code = some last) {i : Instruction}
    (hat : code[place]? = some i) (hheight : heightAfter? 0 (code.take place) = some height) :
    ∃ behind, heightBehind? height i = some behind ∧
      heightAfter? 0 (code.take (place + 1)) = some behind := by
  obtain ⟨behind, hbehind⟩ := exists_heightAfter?_take hcode (place + 1)
  have htake : code.take (place + 1) = code.take place ++ [i] := by
    rw [List.take_add_one, hat]
    rfl
  have hstep := hbehind
  rw [htake, heightAfter?_append_of_eq hheight] at hstep
  refine ⟨behind, ?_, hbehind⟩
  simpa [heightAfter?] using hstep

theorem le_stackLimit (hheight : heightAfter? 0 code = some height) : height ≤ stackLimit := by
  rcases List.eq_nil_or_concat' code with rfl | ⟨before, i, rfl⟩
  · obtain rfl := Option.some.inj hheight
    exact Nat.zero_le _
  · rw [heightAfter?_append] at hheight
    obtain ⟨middle, -, hlast⟩ := Option.bind_eq_some_iff.mp hheight
    have hbehind : heightBehind? middle i = some height := by simpa [heightAfter?] using hlast
    exact (heightBehind?_eq_some hbehind).2.2.1

/-- The stack is as high as the code in front of the place says. -/
def Position.IsLevel (code : List Instruction) (pos : Position Frame) : Prop :=
  heightAfter? 0 (code.take pos.place) = some pos.state.stack.length

variable {pos pos' : Position Frame}

/-- One step keeps the stack as high as the code says. -/
theorem isLevel_of_step (hcode : heightAfter? 0 code = some last)
    (hlevel : Position.IsLevel code pos) (hstep : assembly.step code pos = .next pos') :
    Position.IsLevel code pos' := by
  obtain ⟨place, f⟩ := pos
  rw [Assembly.step] at hstep
  split at hstep
  next => cases hstep
  next i hat =>
    obtain ⟨behind, hbehind, hnext⟩ := exists_heightBehind? hcode hat hlevel
    obtain ⟨hpops, hvalue, -, -, htarget⟩ := heightBehind?_eq_some hbehind
    have hmoves := i.movesStack_effect f
    split at hstep
    next f' heffect =>
      cases hstep
      have heffect' : i.effect f = .next f' := heffect
      rw [heffect'] at hmoves
      rw [Position.IsLevel, hnext, hvalue, hmoves.2]
    next l f' heffect =>
      have heffect' : i.effect f = .jump l f' := heffect
      rw [heffect'] at hmoves
      obtain ⟨hl, -, hlength⟩ := hmoves
      have hempty : f'.stack.length = 0 := hlength.trans (htarget (by rw [hl]; rfl))
      rw [Assembly.goTo] at hstep
      split at hstep
      next target hplace =>
        cases hstep
        obtain ⟨j, hj, hlabel⟩ := Assembly.label?_of_placeOf? hplace
        obtain ⟨height, hheight⟩ := exists_heightAfter?_take hcode target
        obtain ⟨_, hbehind', -⟩ := exists_heightBehind? hcode hj hheight
        have hlabel' : labelling.label? j = some l := hlabel
        have hzero := (heightBehind?_eq_some hbehind').2.2.2.1 (by rw [hlabel']; rfl)
        rw [Position.IsLevel, hheight, hzero, hempty]
      next => cases hstep
    next => cases hstep

/-- A run that starts with an empty stack keeps it as high as the code says. -/
theorem isLevel_of_reaches (hcode : heightAfter? 0 code = some last)
    (hlevel : Position.IsLevel code pos)
    (hreaches : Reaches (assembly.step code) pos pos') : Position.IsLevel code pos' := by
  induction hreaches with
  | refl => exact hlevel
  | tail _ hstep ih => exact isLevel_of_step hcode ih hstep

/-- At a place of the artifact of `p`, what the next instruction takes is on the stack, and
the stack is within its limit. It is empty at labels and where the code of a node begins or
ends. -/
structure StackSafe (p : Program) (pos : Position Frame) : Prop where
  no_underflow : ∀ i, (program p)[pos.place]? = some i → i.pops ≤ pos.state.stack.length
  within_limit : pos.state.stack.length ≤ stackLimit
  empty_at_label : ∀ l, (program p)[pos.place]? = some (.label l) → pos.state.stack = []
  empty_at_seam : ∀ before, body.Seam {} p before →
    pos.place = (head ++ before).length → pos.state.stack = []

/-- Whatever a run of an artifact visits is safe. -/
theorem stackSafe_of_reaches {p : Program} (hempty : pos.state.stack = [])
    (hplace : heightAfter? 0 ((program p).take pos.place) = some 0)
    (hreaches : Reaches (assembly.step (program p)) pos pos') : StackSafe p pos' := by
  have hcode := heightAfter?_program p
  have hlevel : Position.IsLevel (program p) pos := by
    rw [Position.IsLevel, hplace, hempty, List.length_nil]
  have hlevel' := isLevel_of_reaches hcode hlevel hreaches
  refine ⟨fun i hi => ?_, le_stackLimit hlevel', fun l hl => ?_, fun before hseam hbefore => ?_⟩
  · obtain ⟨_, hbehind, -⟩ := exists_heightBehind? hcode hi hlevel'
    exact (heightBehind?_eq_some hbehind).1
  · obtain ⟨_, hbehind, -⟩ := exists_heightBehind? hcode hl hlevel'
    exact List.eq_nil_of_length_eq_zero ((heightBehind?_eq_some hbehind).2.2.2.1 rfl)
  · have hfront : head ++ before <+: program p :=
      ((List.prefix_append_right_inj _).mpr hseam.isPrefix_write).trans (List.prefix_append _ _)
    have htake : (program p).take pos'.place = head ++ before := by
      rw [hbefore]
      exact (List.prefix_iff_eq_take.mp hfront).symm
    rw [Position.IsLevel, htake, heightAfter?_append_of_eq heightAfter?_head,
      heightAfter?_of_seam hseam] at hlevel'
    exact List.eq_nil_of_length_eq_zero (Option.some.inj hlevel').symm

/-- Whatever the method `main` of an artifact visits is safe. -/
theorem stackSafe_of_main {p : Program} {input : List UInt8}
    (hstart : main? (program p) input = some pos)
    (hreaches : Reaches (assembly.step (program p)) pos pos') : StackSafe p pos' := by
  rw [main?_program] at hstart
  obtain rfl := Option.some.inj hstart
  exact stackSafe_of_reaches rfl rfl hreaches

end Runs

end TapeCompiler.Jasmin
