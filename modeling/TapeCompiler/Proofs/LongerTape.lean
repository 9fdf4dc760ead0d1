import TapeCompiler.Proofs.Actions
import TapeCompiler.Proofs.StreamUse

/-!
# Runs on a longer tape

Whether there is a cell at the pointer is asked only where a cell is used. As long as
there is one, a tape with more cells behind its own answers alike, and the cells behind
stay as they are (`Machine.act_extend`). The pointer may leave either tape in between, to
cells that only the longer one has. So a run that never fails for want of a cell is the
same on the longer tape (`Demand.run_extend`), and a blank tape is the start of any longer
one (`Engine.ends_longer_tape`).
-/

namespace TapeCompiler

namespace Tape

/-- The tape with `count` more cells behind its own, all zero. -/
def extend (tape : Tape) (count : Nat) : Tape :=
  { tape with cells := tape.cells ++ Array.replicate count 0 }

theorem extend_blank (length count : Nat) :
    (blank length).extend count = blank (length + count) := by
  rw [extend, blank, Array.replicate_append_replicate, blank]

section InBounds

variable {tape : Tape}

theorem InBounds.extend (h : tape.InBounds) (count : Nat) : (tape.extend count).InBounds := by
  refine ⟨h.1, ?_⟩
  rw [Tape.extend, Array.size_append]
  exact Nat.lt_add_right _ h.2

theorem cell_extend (h : tape.InBounds) (count : Nat) :
    (tape.extend count).cell (h.extend count) = tape.cell h :=
  Array.getElem_append_left h.2

theorem change_extend (h : tape.InBounds) (count : Nat) (f : UInt8 → UInt8) :
    (tape.extend count).change ((tape.extend count).place (h.extend count)) f =
      (tape.change (tape.place h) f).extend count := by
  suffices hcells : (tape.cells ++ Array.replicate count 0).modify tape.pointer.toNatClampNeg f =
      tape.cells.modify tape.pointer.toNatClampNeg f ++ Array.replicate count 0 from
    congrArg (Tape.mk · tape.pointer) hcells
  apply Array.ext
  · simp
  · intro i hi hi'
    by_cases hplace : tape.pointer.toNatClampNeg = i
    · subst hplace
      simp [Array.getElem_modify, h.2]
    · simp [Array.getElem_modify, Array.getElem_append, hplace]

end InBounds

end Tape

namespace Machine

/-- The machine with `count` more cells on its tape. -/
def extend (m : Machine) (count : Nat) : Machine :=
  { m with tape := m.tape.extend count }

theorem extend_start (length count : Nat) (input : List ReadEvent) (sink : Sink) :
    (start length input sink).extend count = start (length + count) input sink := by
  rw [extend, start, Tape.extend_blank, start]

theorem flush_extend (m : Machine) (count : Nat) :
    (m.extend count).flush = (m.flush.1, m.flush.2.extend count) := by
  simp only [flush, Sink.flush, extend]
  cases m.sink.flushFault <;> rfl

section InBounds

variable {m : Machine} (hp : m.tape.InBounds) (count : Nat)
include hp

theorem isZero_extend : (m.extend count).isZero = m.isZero := by
  have hp' : (m.extend count).tape.InBounds := hp.extend count
  rw [isZero_of_inBounds hp, isZero_of_inBounds hp']
  exact congrArg (fun cell => Except.ok (cell == 0)) (Tape.cell_extend hp count)

theorem change_extend (f : UInt8 → UInt8) :
    (m.extend count).change f = ((m.change f).1, (m.change f).2.extend count) := by
  have hp' : (m.extend count).tape.InBounds := hp.extend count
  rw [change_of_inBounds hp, change_of_inBounds hp']
  simp only [extend, Tape.change_extend hp]

theorem read_extend : (m.extend count).read = (m.read.1, m.read.2.extend count) := by
  have hp' : (m.extend count).tape.InBounds := hp.extend count
  have hinput : (m.extend count).input = m.input := rfl
  rw [read, read, Tape.index_of_inBounds hp, Tape.index_of_inBounds hp', hinput]
  rcases readByte m.input with ⟨fault | _ | value, rest⟩
  · rfl
  · rfl
  · simp only [extend, Tape.change_extend hp]

theorem write_extend : (m.extend count).write = (m.write.1, m.write.2.extend count) := by
  have hindex := Tape.index_of_inBounds hp
  have hindex' : (m.extend count).tape.index = _ := Tape.index_of_inBounds (hp.extend count)
  cases hfull : m.sink.isFull with
  | true =>
      rw [write_of_full hindex hfull, write_of_full hindex' hfull]
      rfl
  | false =>
      have hcell := Tape.cell_extend hp count
      rw [write_of_room hindex hfull, write_of_room hindex' hfull]
      exact congrArg (fun value => (Except.ok (), { m.extend count with
        sink := { m.sink with written := m.sink.written.push value } })) hcell

end InBounds

variable {m : Machine}

theorem act_of_not_inBounds (hp : ¬m.tape.InBounds) (action : Action) :
    (∃ amount, action = .shift amount) ∨
      m.act action = (.error (.outOfBounds m.tape.pointer m.tape.cells.size), m) := by
  have hindex := Tape.index_of_not_inBounds hp
  cases action with
  | shift amount => exact .inl ⟨amount, rfl⟩
  | add value => exact .inr (change_of_not_inBounds hp _)
  | clear => exact .inr (change_of_not_inBounds hp _)
  | read => exact .inr (by rw [act, read, hindex])
  | write => exact .inr (by rw [act, write, hindex])

/-- An action does the same on a longer tape, unless it fails for want of a cell. -/
theorem act_extend {action : Action} (hcounts : Counts (·.isIo) (m.act action)) (count : Nat) :
    (m.extend count).act action = ((m.act action).1, (m.act action).2.extend count) := by
  by_cases hp : m.tape.InBounds
  · cases action with
    | shift amount => rfl
    | add value => exact change_extend hp count _
    | clear => exact change_extend hp count _
    | read => exact read_extend hp count
    | write => exact write_extend hp count
  · rcases act_of_not_inBounds hp action with ⟨amount, rfl⟩ | hfault
    · rfl
    · exact absurd (hcounts _ (congrArg Prod.fst hfault)) (by simp [RuntimeFault.isIo])

end Machine

/-- A run that does not fail for want of a cell is the same on a longer tape, step for
step. -/
theorem Demand.run_extend {κ : Type} {demand : κ → Demand κ} {fuel : Nat} {k : κ} {m : Machine}
    {outcome : Outcome Unit} (hcounts : Counts (·.isIo) outcome) (count : Nat)
    (h : Transition.run (step demand) fuel (k, m) = some outcome) :
    Transition.run (step demand) fuel (k, m.extend count) =
      some (outcome.1, outcome.2.extend count) := by
  induction fuel generalizing k m with
  | zero => simp at h
  | succ fuel ih =>
      rw [Transition.run_succ, step] at h ⊢
      generalize demand k = asked at h ⊢
      cases asked with
      | finish =>
          obtain rfl := Option.some.inj h
          rw [answer, Machine.flush_extend]
      | test next =>
          rw [answer] at h ⊢
          rcases hzero : m.isZero with fault | zero <;> rw [hzero] at h
          · -- A test has no other way to fail than to want a cell.
            obtain rfl := Option.some.inj h
            have hio : fault.isIo = true := hcounts fault rfl
            rw [Machine.not_isIo_of_isZero hzero] at hio
            cases hio
          · rw [Machine.isZero_extend (Machine.inBounds_of_isZero hzero), hzero]
            exact ih h
      | act action next =>
          rw [answer] at h ⊢
          rcases hact : m.act action with ⟨fault | ⟨⟩, m'⟩ <;> rw [hact] at h
          · obtain rfl := Option.some.inj h
            rw [Machine.act_extend (hact ▸ hcounts), hact]
          · rw [Machine.act_extend (hact ▸ counts_ok _ m'), hact]
            exact ih h

namespace Engine

/-- A run that does not end because the pointer was off the tape ends with the same
result on a longer blank tape, and leaves the same tape with the further cells behind it,
which are still zero. -/
theorem ends_longer_tape (engine : Engine) (p : Program) {length length' : Nat}
    (hle : length ≤ length') (input : List ReadEvent) (sink : Sink)
    {result : Except RuntimeFault Unit} {final : Machine}
    (h : engine.Ends p (Machine.start length input sink) (result, final))
    (hresult : ∀ pointer size, result ≠ .error (.outOfBounds pointer size)) :
    engine.Ends p (Machine.start length' input sink)
      (result, { final with
        tape := ⟨final.tape.cells ++ Array.replicate (length' - length) 0,
          final.tape.pointer⟩ }) := by
  have hcounts : Counts (·.isIo) (result, final) := by
    rintro (fault | ⟨pointer, size⟩) hfault
    · rfl
    · exact absurd hfault (hresult pointer size)
  obtain ⟨fuel, hrun⟩ := h
  obtain ⟨κ, demand, first, hengine⟩ := engine.run_engine p
  rw [hengine] at hrun
  have hlonger := Demand.run_extend hcounts (length' - length) hrun
  rw [Machine.extend_start, Nat.add_sub_of_le hle] at hlonger
  exact ⟨fuel, (hengine fuel _).trans hlonger⟩

/-- The pointer goes to the left of both tapes, and to a cell that only the longer one has,
and comes back each time before a cell is used. -/
theorem ends_longer_tape_detours :
    let p : Program :=
      [.command (.move (-1)), .command (.move 2), .command (.move (-1)), .command .read,
        .loop 0 [.command .print, .command (.add (-1))]]
    let start (length : Nat) := Machine.start length [.byte 2, .byte 7] {}
    let final (cells : Array UInt8) : Machine := ⟨⟨cells, 0⟩, [.byte 7], ⟨#[2, 1], none,
      .takesNothing, none, 1⟩⟩
    Engine.tree.Ends p (start 1) (.ok (), final #[0]) ∧
      Engine.tree.Ends p (start 3) (.ok (), final #[0, 0, 0]) := by
  intro p start final
  have hends : Engine.tree.Ends p (start 1) (.ok (), final #[0]) :=
    ⟨12, by decide +kernel⟩
  exact ⟨hends, ends_longer_tape .tree p (by decide) _ _ hends nofun⟩

end Engine

end TapeCompiler
