import TapeCompiler.Proofs.Refinement
import TapeCompiler.Program.Optimizer

/-!
# What actions do to a machine

The facts about single actions on which rewrites of programs rest. Whether the pointer
is on the tape decides alone if an action on a cell succeeds. Two commands that merge do
one behind the other what the merged one does, and a command without an effect leaves
the machine as it was. Clearing a cell that is zero changes nothing, so a blank tape
stays blank until an `add` or a `read`.
-/

namespace TapeCompiler

/-- The pointer stands on a cell. -/
def Tape.InBounds (tape : Tape) : Prop :=
  0 ≤ tape.pointer ∧ tape.pointer.toNatClampNeg < tape.cells.size

def Tape.place (tape : Tape) (h : tape.InBounds) : Fin tape.cells.size :=
  ⟨tape.pointer.toNatClampNeg, h.2⟩

def Tape.cell (tape : Tape) (h : tape.InBounds) : UInt8 :=
  tape.cells[tape.place h]

theorem Tape.index_of_inBounds {tape : Tape} (h : tape.InBounds) :
    tape.index = .ok (tape.place h) :=
  dif_pos h

theorem Tape.index_of_not_inBounds {tape : Tape} (h : ¬tape.InBounds) :
    tape.index = .error (.outOfBounds tape.pointer tape.cells.size) :=
  dif_neg h

/-- Whether a stream failed, and not the use of a cell. -/
def RuntimeFault.isIo : RuntimeFault → Bool
  | io _ => true
  | outOfBounds _ _ => false

namespace Machine

theorem change_of_inBounds {m : Machine} (h : m.tape.InBounds) (f : UInt8 → UInt8) :
    m.change f = (.ok (), { m with tape := m.tape.change (m.tape.place h) f }) := by
  rw [change, Tape.index_of_inBounds h]

theorem change_of_not_inBounds {m : Machine} (h : ¬m.tape.InBounds) (f : UInt8 → UInt8) :
    m.change f = (.error (.outOfBounds m.tape.pointer m.tape.cells.size), m) := by
  rw [change, Tape.index_of_not_inBounds h]

theorem isZero_of_inBounds {m : Machine} (h : m.tape.InBounds) :
    m.isZero = .ok (m.tape.cell h == 0) := by
  rw [isZero, Tape.index_of_inBounds h]
  rfl

theorem isZero_of_not_inBounds {m : Machine} (h : ¬m.tape.InBounds) :
    m.isZero = .error (.outOfBounds m.tape.pointer m.tape.cells.size) := by
  rw [isZero, Tape.index_of_not_inBounds h]

theorem inBounds_of_change {m m' : Machine} {f : UInt8 → UInt8}
    (h : m.change f = (.ok (), m')) : m.tape.InBounds := by
  by_cases hp : m.tape.InBounds
  · exact hp
  · rw [change_of_not_inBounds hp] at h
    cases h

theorem inBounds_of_isZero {m : Machine} {zero : Bool} (h : m.isZero = .ok zero) :
    m.tape.InBounds := by
  by_cases hp : m.tape.InBounds
  · exact hp
  · rw [isZero_of_not_inBounds hp] at h
    cases h

theorem change_of_isZero_error {m : Machine} {fault : RuntimeFault}
    (h : m.isZero = .error fault) (f : UInt8 → UInt8) : m.change f = (.error fault, m) := by
  by_cases hp : m.tape.InBounds
  · rw [isZero_of_inBounds hp] at h
    cases h
  · rw [isZero_of_not_inBounds hp] at h
    cases h
    exact change_of_not_inBounds hp f

/-- A change can only fail because the pointer is not on the tape. -/
theorem not_isIo_of_change {m m' : Machine} {f : UInt8 → UInt8} {fault : RuntimeFault}
    (h : m.change f = (.error fault, m')) : fault.isIo = false := by
  by_cases hp : m.tape.InBounds
  · rw [change_of_inBounds hp] at h
    cases h
  · rw [change_of_not_inBounds hp] at h
    cases h
    rfl

theorem not_isIo_of_isZero {m : Machine} {fault : RuntimeFault}
    (h : m.isZero = .error fault) : fault.isIo = false := by
  by_cases hp : m.tape.InBounds
  · rw [isZero_of_inBounds hp] at h
    cases h
  · rw [isZero_of_not_inBounds hp] at h
    cases h
    rfl

/-- Two changes of a cell are one change. -/
theorem change_change (m : Machine) (f g : UInt8 → UInt8) :
    Continues (fun m' final => m'.change g = final) (m.change f) (m.change (g ∘ f)) := by
  by_cases h : m.tape.InBounds
  · rw [change_of_inBounds h, change_of_inBounds h, continues_ok]
    have h' : (m.tape.change (m.tape.place h) f).InBounds := by
      simpa [Tape.InBounds, Tape.change] using h
    rw [change_of_inBounds (m := { m with tape := m.tape.change (m.tape.place h) f }) h']
    simp only [Tape.change, Tape.place, Prod.mk.injEq, Machine.mk.injEq, Tape.mk.injEq, and_true,
      true_and]
    apply Array.ext
    · simp
    · intro i hi hi'
      simp only [Array.getElem_modify]
      split <;> simp
  · rw [change_of_not_inBounds h, change_of_not_inBounds h, continues_error]

theorem eq_of_change {m m' : Machine} {f : UInt8 → UInt8} (h : m.change f = (.ok (), m'))
    (hf : ∀ hp : m.tape.InBounds, f (m.tape.cell hp) = m.tape.cell hp) : m' = m := by
  have hp := inBounds_of_change h
  have hcells : m.tape.cells.modify (m.tape.place hp) f = m.tape.cells := by
    apply Array.ext
    · simp
    · intro i hi hi'
      rw [Array.getElem_modify]
      split
      case isTrue heq => simpa only [Tape.cell, Fin.getElem_fin, heq] using hf hp
      case isFalse => rfl
  rw [change_of_inBounds hp] at h
  obtain rfl := (Prod.mk.inj h).2
  simp only [Tape.change, hcells]

/-- A zero cell can be cleared, and that changes nothing. -/
theorem change_zero_of_isZero {m : Machine} (h : m.isZero = .ok true) :
    m.change (fun _ => 0) = (.ok (), m) := by
  have hp := inBounds_of_isZero h
  rw [isZero_of_inBounds hp] at h
  have hcell : m.tape.cell hp = 0 := by simpa using h
  have hchange := change_of_inBounds hp fun _ => 0
  rw [hchange, eq_of_change hchange fun _ => hcell.symm]

/-- All cells are zero. The pointer may stand anywhere. -/
def IsBlank (m : Machine) : Prop :=
  ∀ i (h : i < m.tape.cells.size), m.tape.cells[i] = 0

theorem isBlank_start (length : Nat) (input : List ReadEvent) (sink : Sink) :
    (start length input sink).IsBlank := by
  intro i h
  simp [start, Tape.blank]

theorem IsBlank.of_cells_eq {m m' : Machine} (h : m.IsBlank)
    (hcells : m'.tape.cells = m.tape.cells) : m'.IsBlank := by
  intro i hi
  simp only [hcells] at hi ⊢
  exact h i hi

theorem IsBlank.isZero_ne {m : Machine} (h : m.IsBlank) : m.isZero ≠ .ok false := by
  by_cases hp : m.tape.InBounds
  · rw [isZero_of_inBounds hp]
    simpa [Tape.cell] using h _ (m.tape.place hp).2
  · rw [isZero_of_not_inBounds hp]
    simp

theorem IsBlank.eq_of_clear {m m' : Machine} (h : m.IsBlank)
    (hact : m.act .clear = (.ok (), m')) : m' = m :=
  eq_of_change hact fun hp => (h _ (m.tape.place hp).2).symm

theorem tape_of_write {m m' : Machine} (h : m.write = (.ok (), m')) :
    m'.tape = m.tape := by
  unfold write at h
  split at h
  · cases h
  · simp only at h
    split at h <;> cases h
    rfl

end Machine

theorem Machine.IsBlank.act {m m' : Machine} {c : Command} (h : m.IsBlank)
    (htouches : (Node.command c).touchesTape = false)
    (hact : m.act c.action = (.ok (), m')) : m'.IsBlank := by
  cases c with
  | move amount =>
      cases hact
      exact h.of_cells_eq rfl
  | clear => exact h.eq_of_clear hact ▸ h
  | print => exact h.of_cells_eq (by rw [tape_of_write hact])
  | add amount => simp [Node.touchesTape] at htouches
  | read => simp [Node.touchesTape] at htouches

namespace Command

/-- Merged commands do together what they do one behind the other. -/
theorem act_of_merge? {c d merged : Command} (h : c.merge? d = some merged) (m : Machine) :
    Continues (fun m' final => m'.act d.action = final) (m.act c.action)
      (m.act merged.action) := by
  cases c <;> cases d <;> simp only [merge?, Option.some.injEq, reduceCtorEq] at h <;>
    subst h
  case move.move a b =>
    simp [action, Machine.act, Tape.shift, Int64.add_assoc]
  case add.add a b =>
    have hsum : (fun v => v + stepByte (a + b)) =
        (fun v => v + stepByte b) ∘ (fun v => v + stepByte a) := by
      funext v
      simp [stepByte, UInt8.add_assoc]
    simpa [action, Machine.act, hsum] using m.change_change (· + stepByte a) (· + stepByte b)
  case clear.clear =>
    exact m.change_change (fun _ => 0) (fun _ => 0)

/-- A command without an effect leaves the machine as it was, if it succeeds. -/
theorem act_of_not_isEffective {c : Command} (h : (Node.command c).isEffective = false)
    {m m' : Machine} (hact : m.act c.action = (.ok (), m')) : m' = m := by
  cases c with
  | move amount =>
      obtain rfl : amount = 0 := by simpa [Node.isEffective] using h
      simpa [action, Machine.act, Tape.shift] using hact.symm
  | add amount =>
      obtain rfl : amount = 0 := by simpa [Node.isEffective] using h
      have hstep : stepByte 0 = 0 := rfl
      exact Machine.eq_of_change hact fun _ => by rw [hstep, UInt8.add_zero]
  | clear => simp [Node.isEffective] at h
  | print => simp [Node.isEffective] at h
  | read => simp [Node.isEffective] at h

end Command

end TapeCompiler
