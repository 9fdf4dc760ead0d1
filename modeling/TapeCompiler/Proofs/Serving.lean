import Mathlib.Algebra.Group.Nat.Defs
import TapeCompiler.Proofs.Actions

/-!
# Machines with bytes to read and room to write

A machine serves `input` and `output` if its input brings just these bytes, and its sink
has taken the others and takes whatever comes. What an action does to such a machine is
said by what it does to the tape, to the bytes that are left and to those that were
written. A run that ends well is an evaluation and a flush
(`Program.Ends.exists_evaluates`).

`Tape.word` is the pointer as machines with words of 32 bits have it. On a tape that is
not too long it still tells the place of the cell (`Tape.toInt_word`).
-/

namespace TapeCompiler

namespace Tape

/-- The low half of the pointer. -/
def word (tape : Tape) : Int32 :=
  tape.pointer.toInt32

theorem word_shift (tape : Tape) (amount : Int) :
    (tape.shift (Int64.ofInt amount)).word = tape.word + Int32.ofInt amount := by
  rw [word, shift, Int64.toInt32_add, Int64.toInt32_ofInt]
  rfl

theorem toInt_word {tape : Tape} (h : tape.InBounds) (hlength : tape.cells.size < 2 ^ 31) :
    tape.word.toInt = (tape.place h : Nat) := by
  have hpointer : 0 ≤ tape.pointer.toInt := Int64.le_iff_toInt_le.mp h.1
  have hplace : (tape.place h : Nat) = tape.pointer.toInt.toNat := rfl
  have hbound : tape.pointer.toInt.toNat < tape.cells.size := h.2
  rw [word, Int64.toInt_toInt32, hplace, Int.toNat_of_nonneg hpointer]
  refine Int.bmod_eq_of_le ?_ ?_ <;> omega

theorem cells_change {tape : Tape} (h : tape.InBounds) (f : UInt8 → UInt8) :
    (tape.change (tape.place h) f).cells =
      tape.cells.set (tape.place h) (f (tape.cell h)) (tape.place h).isLt := by
  apply Array.ext
  · simp [change]
  · intro i hi hi'
    simp only [change, Array.getElem_modify, Array.getElem_set, cell, Fin.getElem_fin]
    split
    next heq => simp only [heq]
    next => rfl

theorem inBounds_change {tape : Tape} {i : Fin tape.cells.size} {f : UInt8 → UInt8} :
    (tape.change i f).InBounds ↔ tape.InBounds := by
  simp [InBounds, change]

theorem cell_change {tape : Tape} (h : tape.InBounds) (f : UInt8 → UInt8)
    (h' : (tape.change (tape.place h) f).InBounds) :
    (tape.change (tape.place h) f).cell h' = f (tape.cell h) := by
  have hplace : ((tape.change (tape.place h) f).place h' : Nat) = tape.place h := rfl
  simp only [cell, Fin.getElem_fin, hplace, cells_change h, Array.getElem_set_self]

theorem toNat_word {tape : Tape} (h : tape.InBounds) (hlength : tape.cells.size < 2 ^ 31) :
    tape.word.toUInt32.toNat = tape.place h := by
  have hword := toInt_word h hlength
  have hsign : 0 ≤ tape.word := by
    rw [Int32.le_iff_toInt_le, hword]
    exact Int.natCast_nonneg _
  rw [Int32.toNat_toUInt32_of_le hsign, Int32.toNatClampNeg, hword, Int.toNat_natCast]

end Tape

namespace Machine

structure Serves (m : Machine) (input : List UInt8) (output : Array UInt8) : Prop where
  input_eq : m.input = inputOfBytes input
  written_eq : m.sink.written = output
  capacity_eq : m.sink.capacity = none

theorem serves_start (length : Nat) (input : List UInt8) :
    (start length (inputOfBytes input) {}).Serves input #[] :=
  ⟨rfl, rfl, rfl⟩

variable {m m' : Machine} {input : List UInt8} {output : Array UInt8}

theorem Serves.of_shift {amount : Int64} (h : m.Serves input output)
    (hact : m.act (.shift amount) = (.ok (), m')) :
    m'.tape = m.tape.shift amount ∧ m'.Serves input output := by
  obtain rfl := (Prod.mk.inj hact).2
  exact ⟨rfl, h.input_eq, h.written_eq, h.capacity_eq⟩

theorem Serves.of_change {f : UInt8 → UInt8} (h : m.Serves input output)
    (hact : m.change f = (.ok (), m')) :
    ∃ hp : m.tape.InBounds, m'.tape = m.tape.change (m.tape.place hp) f ∧
      m'.Serves input output := by
  have hp := inBounds_of_change hact
  rw [change_of_inBounds hp] at hact
  obtain rfl := (Prod.mk.inj hact).2
  exact ⟨hp, rfl, h.input_eq, h.written_eq, h.capacity_eq⟩

theorem Serves.of_write (h : m.Serves input output) (hact : m.write = (.ok (), m')) :
    ∃ hp : m.tape.InBounds, m'.tape = m.tape ∧
      m'.Serves input (output.push (m.tape.cell hp)) := by
  by_cases hp : m.tape.InBounds
  · have hfull : m.sink.isFull = false := by rw [Sink.isFull, h.capacity_eq]; rfl
    rw [write, Tape.index_of_inBounds hp] at hact
    simp only [Sink.write, hfull] at hact
    obtain rfl := (Prod.mk.inj hact).2
    exact ⟨hp, rfl, h.input_eq, congrArg (Array.push · _) h.written_eq, h.capacity_eq⟩
  · rw [write, Tape.index_of_not_inBounds hp] at hact
    cases (Prod.mk.inj hact).1

/-- A read takes the next byte, or leaves the cell alone at the end of the input. -/
theorem Serves.of_read (h : m.Serves input output) (hact : m.read = (.ok (), m')) :
    ∃ hp : m.tape.InBounds,
      (input = [] ∧ m'.tape = m.tape ∧ m'.Serves [] output) ∨
      ∃ value rest, input = value :: rest ∧
        m'.tape = m.tape.change (m.tape.place hp) (fun _ => value) ∧ m'.Serves rest output := by
  by_cases hp : m.tape.InBounds
  · refine ⟨hp, ?_⟩
    rw [read, Tape.index_of_inBounds hp, h.input_eq] at hact
    cases input with
    | nil =>
        obtain rfl := (Prod.mk.inj hact).2
        exact .inl ⟨rfl, rfl, rfl, h.written_eq, h.capacity_eq⟩
    | cons value rest =>
        obtain rfl := (Prod.mk.inj hact).2
        exact .inr ⟨value, rest, rfl, rfl, rfl, h.written_eq, h.capacity_eq⟩
  · rw [read, Tape.index_of_not_inBounds hp] at hact
    cases (Prod.mk.inj hact).1

end Machine

/-- A run that ends well is an evaluation, and the flush at its end changes neither the
tape nor what was written. -/
theorem Program.Ends.exists_evaluates {p : Program} {m final : Machine}
    (h : p.Ends m (.ok (), final)) :
    ∃ m', Evaluates p m (.ok (), m') ∧ final.tape = m'.tape ∧
      final.sink.written = m'.sink.written := by
  obtain ⟨⟨_ | ⟨⟩, m'⟩, hp, hflush⟩ := ends_iff_evaluates.mp h
  · cases (Prod.mk.inj hflush).1
  · rw [continues_ok, Machine.flush, Sink.flush] at hflush
    refine ⟨m', hp, ?_⟩
    cases hfault : m'.sink.flushFault with
    | none =>
        rw [hfault] at hflush
        obtain rfl := (Prod.mk.inj hflush).2
        exact ⟨rfl, rfl⟩
    | some fault =>
        rw [hfault] at hflush
        cases (Prod.mk.inj hflush).1

end TapeCompiler
