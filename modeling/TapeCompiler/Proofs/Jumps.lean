import TapeCompiler.Proofs.Assembly
import TapeCompiler.Proofs.CodeSimulation

/-!
# Jumps of flat code

The code of a loop is the code of its body between two jumps, and the body may hold
finished loops of its own. Offsets are relative, so putting the first jump in front moves
every inner pair as a whole. `JumpsPaired` is what a block of code keeps then: each jump
has its partner at the other end of its loop, and two loops lie one in the other or one
behind the other. Blocks with paired jumps may be joined (`JumpsPaired.append`) and may be
the body of a loop (`JumpsPaired.loopCode`).

In code with paired jumps no step of the engine wraps its place, and the only place
outside the code that a step leads to is the one behind the last instruction. As for
`Program.run_eq_runCode`, the code has fewer than `UInt64.size` instructions.
-/

namespace TapeCompiler

open Transition (Reaches)

section Places

variable {α : Type} {part rest : List α} {x : α} {place : Nat}

theorem getElem?_append_eq_some :
    (part ++ rest)[place]? = some x ↔
      part[place]? = some x ∨ ∃ k, part.length + k = place ∧ rest[k]? = some x := by
  rw [List.getElem?_append]
  split
  next hlt =>
    constructor
    · exact .inl
    · rintro (h | ⟨k, rfl, -⟩)
      · exact h
      · omega
  next hge =>
    have hnone : part[place]? = none := List.getElem?_eq_none (by omega)
    constructor
    · intro h
      exact .inr ⟨place - part.length, by omega, h⟩
    · rintro (h | ⟨k, rfl, h⟩)
      · rw [hnone] at h
        cases h
      · rwa [Nat.add_sub_cancel_left]

theorem getElem?_loopCode_eq_some {body : List Instruction} {i : Instruction} :
    (loopCode body)[place]? = some i ↔
      (place = 0 ∧ i = .jumpForward (.ofNat (body.length + 2))) ∨
      (∃ k, k + 1 = place ∧ body[k]? = some i) ∨
      (place = body.length + 1 ∧ i = .jumpBack (.ofNat body.length)) := by
  cases place with
  | zero => simp [loopCode, eq_comm]
  | succ k =>
      rw [loopCode, List.cons_append, List.getElem?_cons_succ, getElem?_append_eq_some]
      simp [List.getElem?_singleton, eq_comm]

end Places

/-- Each jump of the code has its partner. Of two loops, the second stands behind the
first or inside it. -/
structure JumpsPaired (code : List Instruction) : Prop where
  forward {first : Nat} {offset : UInt64} (hat : code[first]? = some (.jumpForward offset)) :
    2 ≤ offset.toNat ∧ code[first + offset.toNat - 1]? = some (.jumpBack (offset - 2))
  back {last : Nat} {offset : UInt64} (hat : code[last]? = some (.jumpBack offset)) :
    offset.toNat + 1 ≤ last ∧
      code[last - offset.toNat - 1]? = some (.jumpForward (offset + 2))
  apart {first first' : Nat} {offset offset' : UInt64}
    (hat : code[first]? = some (.jumpForward offset))
    (hat' : code[first']? = some (.jumpForward offset')) (hlt : first < first') :
    first + offset.toNat ≤ first' ∨ first' + offset'.toNat < first + offset.toNat

namespace JumpsPaired

variable {code code' body : List Instruction} {first : Nat} {offset : UInt64}

theorem nil : JumpsPaired [] := by
  constructor <;> simp

theorem act (action : Action) : JumpsPaired [.act action] := by
  constructor <;> simp [List.getElem?_singleton]

/-- A loop ends in the code. -/
theorem le_length (h : JumpsPaired code) (hat : code[first]? = some (.jumpForward offset)) :
    first + offset.toNat ≤ code.length := by
  obtain ⟨hpair, hlast⟩ := h.forward hat
  obtain ⟨hlt, -⟩ := List.getElem?_eq_some_iff.mp hlast
  omega

theorem append (h : JumpsPaired code) (h' : JumpsPaired code') :
    JumpsPaired (code ++ code') where
  forward hat := by
    rcases getElem?_append_eq_some.mp hat with hin | ⟨k, rfl, hin⟩
    · obtain ⟨hpair, hlast⟩ := h.forward hin
      exact ⟨hpair, getElem?_append_eq_some.mpr (.inl hlast)⟩
    · obtain ⟨hpair, hlast⟩ := h'.forward hin
      exact ⟨hpair, getElem?_append_eq_some.mpr (.inr ⟨_, by omega, hlast⟩)⟩
  back hat := by
    rcases getElem?_append_eq_some.mp hat with hin | ⟨k, rfl, hin⟩
    · obtain ⟨hpair, hfirst⟩ := h.back hin
      exact ⟨hpair, getElem?_append_eq_some.mpr (.inl hfirst)⟩
    · obtain ⟨hpair, hfirst⟩ := h'.back hin
      exact ⟨by omega, getElem?_append_eq_some.mpr (.inr ⟨_, by omega, hfirst⟩)⟩
  apart hat hat' hlt := by
    rcases getElem?_append_eq_some.mp hat with hin | ⟨k, rfl, hin⟩ <;>
      rcases getElem?_append_eq_some.mp hat' with hin' | ⟨k', rfl, hin'⟩
    · exact h.apart hin hin' hlt
    -- a loop of the first part ends in it, before anything of the second
    · have hle := h.le_length hin
      omega
    · obtain ⟨hlt', -⟩ := List.getElem?_eq_some_iff.mp hin'
      omega
    · have hapart := h'.apart hin hin' (by omega)
      omega

theorem loopCode (h : JumpsPaired body) (hsize : body.length + 2 < UInt64.size) :
    JumpsPaired (loopCode body) where
  forward hat := by
    rcases getElem?_loopCode_eq_some.mp hat with ⟨rfl, heq⟩ | ⟨k, rfl, hin⟩ | ⟨-, heq⟩
    · obtain rfl := Instruction.jumpForward.inj heq
      rw [UInt64.toNat_ofNat_of_lt' hsize]
      refine ⟨by omega, getElem?_loopCode_eq_some.mpr (.inr (.inr ⟨by omega, ?_⟩))⟩
      rw [UInt64.ofNat_add]
      exact congrArg _ (UInt64.add_sub_cancel _ _)
    · obtain ⟨hpair, hlast⟩ := h.forward hin
      exact ⟨hpair, getElem?_loopCode_eq_some.mpr (.inr (.inl ⟨_, by omega, hlast⟩))⟩
    · cases heq
  back hat := by
    rcases getElem?_loopCode_eq_some.mp hat with ⟨-, heq⟩ | ⟨k, rfl, hin⟩ | ⟨rfl, heq⟩
    · cases heq
    · obtain ⟨hpair, hfirst⟩ := h.back hin
      exact ⟨by omega, getElem?_loopCode_eq_some.mpr (.inr (.inl ⟨_, by omega, hfirst⟩))⟩
    · obtain rfl := Instruction.jumpBack.inj heq
      rw [UInt64.toNat_ofNat_of_lt' (by omega)]
      refine ⟨by omega, getElem?_loopCode_eq_some.mpr (.inl ⟨by omega, ?_⟩)⟩
      rw [UInt64.ofNat_add]
      rfl
  apart hat hat' hlt := by
    rcases getElem?_loopCode_eq_some.mp hat' with ⟨rfl, -⟩ | ⟨k', rfl, hin'⟩ | ⟨-, heq⟩
    · omega
    · have hle := h.le_length hin'
      rcases getElem?_loopCode_eq_some.mp hat with ⟨rfl, heq⟩ | ⟨k, rfl, hin⟩ | ⟨-, heq⟩
      -- the new loop is around every loop of the body
      · obtain rfl := Instruction.jumpForward.inj heq
        rw [UInt64.toNat_ofNat_of_lt' hsize]
        omega
      · have hapart := h.apart hin hin' (by omega)
        omega
      · cases heq
    · cases heq

end JumpsPaired

theorem Program.jumpsPaired_code {p : Program} (hsize : p.code.length < UInt64.size) :
    JumpsPaired p.code := by
  induction p using Program.induction with
  | nil => exact .nil
  | command c rest ih =>
      rw [code_cons, Node.code_command, List.length_append] at hsize
      rw [code_cons, Node.code_command]
      exact (JumpsPaired.act c.action).append (ih (by omega))
  | loop id body rest ihBody ih =>
      rw [code_cons, Node.code_loop] at hsize ⊢
      simp only [loopCode, List.length_append, List.length_cons, List.length_nil] at hsize
      exact ((ihBody (by omega)).loopCode (by omega)).append (ih (by omega))

namespace CodeRun

variable {code : List Instruction} {run next : CodeRun}

/-- What one step does to the place. -/
theorem place_of_step (hstep : run.step code.toArray = .next next) :
    (∃ action, code[run.place.toNat]? = some (.act action) ∧ next.place = run.place + 1) ∨
      ∃ offset zero, run.machine.isZero = .ok zero ∧
        (code[run.place.toNat]? = some (.jumpForward offset) ∧
            next.place = run.place + (if zero then offset else 1) ∨
          code[run.place.toNat]? = some (.jumpBack offset) ∧
            next.place = if zero then run.place + 1 else run.place - offset) := by
  rw [step, List.getElem?_toArray] at hstep
  split at hstep
  next => cases hstep
  next action hat =>
    split at hstep <;> cases hstep
    exact .inl ⟨action, hat, rfl⟩
  next offset hat =>
    split at hstep <;> cases hstep
    next zero hzero => exact .inr ⟨offset, zero, hzero, .inl ⟨hat, rfl⟩⟩
  next offset hat =>
    split at hstep <;> cases hstep
    next zero hzero => exact .inr ⟨offset, zero, hzero, .inr ⟨hat, rfl⟩⟩

/-- Without a fault, the engine stops only where no instruction is. -/
theorem length_le_of_stop {m : Machine} (hstop : run.step code.toArray = .stop (.ok (), m)) :
    code.length ≤ run.place.toNat := by
  rw [step, List.getElem?_toArray] at hstop
  split at hstop
  next hnone => exact List.getElem?_eq_none_iff.mp hnone
  all_goals split at hstop <;> cases hstop

end CodeRun

/-- An instruction leads from one place to another, in numbers that do not wrap and with
the cell of the machine to test. -/
inductive GoesOn (code : List Instruction) (m : Machine) : Nat → Nat → Prop
  | act {place : Nat} {action : Action} (hat : code[place]? = some (.act action)) :
      GoesOn code m place (place + 1)
  | skip {first : Nat} {offset : UInt64} (hat : code[first]? = some (.jumpForward offset))
      (hzero : m.isZero = .ok true) : GoesOn code m first (first + offset.toNat)
  | enter {first : Nat} {offset : UInt64} (hat : code[first]? = some (.jumpForward offset))
      (hzero : m.isZero = .ok false) : GoesOn code m first (first + 1)
  | again {next last : Nat} {offset : UInt64} (hat : code[last]? = some (.jumpBack offset))
      (hzero : m.isZero = .ok false) (hnext : next + offset.toNat = last) :
      GoesOn code m last next
  | leave {last : Nat} {offset : UInt64} (hat : code[last]? = some (.jumpBack offset))
      (hzero : m.isZero = .ok true) : GoesOn code m last (last + 1)

namespace JumpsPaired

variable {code : List Instruction} {first run next : CodeRun}

theorem goesOn_le_length (h : JumpsPaired code) {m : Machine} {place place' : Nat}
    (hstep : GoesOn code m place place') : place' ≤ code.length := by
  cases hstep with
  | skip hat _ => exact h.le_length hat
  | act hat | enter hat _ | leave hat _ =>
      exact (List.getElem?_eq_some_iff.mp hat).1
  | again hat _ hnext =>
      have hlt := (List.getElem?_eq_some_iff.mp hat).1
      omega

/-- The engine goes on as it would with places that do not wrap. -/
theorem goesOn (h : JumpsPaired code) (hsize : code.length < UInt64.size)
    (hstep : run.step code.toArray = .next next) :
    GoesOn code run.machine run.place.toNat next.place.toNat := by
  have hone {i : Instruction} (hat : code[run.place.toNat]? = some i) :
      (run.place + 1).toNat = run.place.toNat + 1 := by
    have hlt := (List.getElem?_eq_some_iff.mp hat).1
    exact Program.toNat_add_one (by omega)
  rcases CodeRun.place_of_step hstep with ⟨action, hat, hnext⟩ | ⟨offset, zero, hzero, hjump⟩
  · rw [hnext, hone hat]
    exact .act hat
  rcases hjump with ⟨hat, hnext⟩ | ⟨hat, hnext⟩ <;> rw [hnext] <;> cases zero
  case inl.false => exact hone hat ▸ .enter hat hzero
  case inl.true =>
    have hle := h.le_length hat
    have hskip : (run.place + offset).toNat = run.place.toNat + offset.toNat := by
      simpa using Program.toNat_add_ofNat (n := offset.toNat) (by omega)
    exact hskip ▸ .skip hat hzero
  case inr.false =>
    obtain ⟨hpair, -⟩ := h.back hat
    have hagain : (run.place - offset).toNat + offset.toNat = run.place.toNat := by
      rw [UInt64.toNat_sub_of_le _ _ (UInt64.le_iff_toNat_le.mpr (by omega))]
      omega
    exact .again hat hzero hagain
  case inr.true => exact hone hat ▸ .leave hat hzero

/-- A run that starts in the code, or behind it, stays there. -/
theorem place_le_length (h : JumpsPaired code) (hsize : code.length < UInt64.size)
    (hfirst : first.place.toNat ≤ code.length)
    (hreaches : Reaches (CodeRun.step code.toArray) first run) :
    run.place.toNat ≤ code.length := by
  induction hreaches with
  | refl => exact hfirst
  | tail _ hstep _ => exact h.goesOn_le_length (h.goesOn hsize hstep)

end JumpsPaired

namespace Program

/-- The jumps of flat code are paired and its loops nested. Therefore, on every machine, no
step wraps the place, the place is never behind that of the last instruction by more than
one, and a run that ends without a fault ends right there. -/
theorem places_in_range (p : Program) (hsize : p.code.length < UInt64.size) :
    JumpsPaired p.code ∧ ∀ m : Machine,
      (∀ run, Reaches (CodeRun.step p.code.toArray) ⟨0, m⟩ run →
        run.place.toNat ≤ p.code.length ∧
        ∀ next, run.step p.code.toArray = .next next →
          GoesOn p.code run.machine run.place.toNat next.place.toNat) ∧
      ∀ m', CodeEnds p.code m (.ok (), m') →
        ∃ last, Reaches (CodeRun.step p.code.toArray) ⟨0, m⟩ last ∧
          last.step p.code.toArray = .stop (.ok (), m') ∧
          last.place.toNat = p.code.length := by
  have hpaired := jumpsPaired_code hsize
  refine ⟨hpaired, fun m => ⟨fun run hreaches => ⟨?_, fun next hstep => ?_⟩, ?_⟩⟩
  · exact hpaired.place_le_length hsize (Nat.zero_le _) hreaches
  · exact hpaired.goesOn hsize hstep
  · intro m' hends
    obtain ⟨last, hreaches, hstop⟩ := Transition.exists_reaches_of_ends hends
    have hle := hpaired.place_le_length hsize (Nat.zero_le _) hreaches
    exact ⟨last, hreaches, hstop, Nat.le_antisymm hle (CodeRun.length_le_of_stop hstop)⟩

/-- An inner loop at the start of an outer one moves with the jump put in front of it. -/
theorem places_in_range_nested :
    let p : Program :=
      [.command .read, .loop 0 [.loop 1 [.command (.add (-1))], .command (.move 1)],
        .command .print]
    let m : Machine := { tape := ⟨#[0, 0], 0⟩, input := [.byte 2] }
    let m' : Machine := { tape := ⟨#[0, 0], 1⟩, sink := { written := #[0], flushes := 1 } }
    p.code.length < UInt64.size ∧
      p.code =
        [.act .read, .jumpForward 6, .jumpForward 3, .act (.add 255), .jumpBack 1,
          .act (.shift 1), .jumpBack 4, .act .write] ∧
      JumpsPaired p.code ∧ CodeEnds p.code m (.ok (), m') ∧
      ∃ last, Reaches (CodeRun.step p.code.toArray) ⟨0, m⟩ last ∧
        last.step p.code.toArray = .stop (.ok (), m') ∧ last.place.toNat = 8 := by
  intro p m m'
  have hcode : p.code = [.act .read, .jumpForward 6, .jumpForward 3, .act (.add 255),
      .jumpBack 1, .act (.shift 1), .jumpBack 4, .act .write] := by
    simp [p, Program.code_cons, Node.code_loop, loopCode, Command.action]
    decide
  have hsize : p.code.length < UInt64.size := by
    rw [hcode]
    decide
  have hends : CodeEnds p.code m (.ok (), m') := by
    rw [hcode]
    exact ⟨20, by decide +kernel⟩
  obtain ⟨hpaired, hruns⟩ := places_in_range p hsize
  obtain ⟨last, hreaches, hstop, hlast⟩ := (hruns m).2 m' hends
  rw [hcode] at hlast
  exact ⟨hsize, hcode, hpaired, hends, last, hreaches, hstop, hlast⟩

end Program

end TapeCompiler
