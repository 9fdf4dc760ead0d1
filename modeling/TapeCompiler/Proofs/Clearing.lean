import TapeCompiler.Proofs.Actions
import TapeCompiler.Proofs.Spelling

/-!
# Loops that step their cell to zero

A loop around a single step up or down of its cell ends with the cell at zero, whatever
the cell held, and it fails where a clear fails. So putting the clears into a plain
program changes none of its evaluations, at any depth (`equivalent_withClears`).
-/

namespace TapeCompiler

namespace Machine

/-- The cell at the pointer, and `steps` steps of `step` after it, is zero. -/
def ReachesZero (m : Machine) (step : UInt8) (steps : Nat) : Prop :=
  ∀ hp : m.tape.InBounds, m.tape.cell hp + UInt8.ofNat steps * step = 0

theorem exists_reachesZero (m : Machine) {amount : Int} (h : amount = 1 ∨ amount = -1) :
    ∃ steps, m.ReachesZero (stepByte amount) steps := by
  by_cases hp : m.tape.InBounds
  · rcases h with rfl | rfl
    · have hstep : stepByte 1 = 1 := rfl
      refine ⟨(-m.tape.cell hp).toNat, fun _ => ?_⟩
      rw [hstep, UInt8.ofNat_toNat]
      grind
    · have hstep : stepByte (-1) = -1 := rfl
      refine ⟨(m.tape.cell hp).toNat, fun _ => ?_⟩
      rw [hstep, UInt8.ofNat_toNat]
      grind
  · exact ⟨0, fun h => absurd h hp⟩

theorem cell_of_change {m m' : Machine} {f : UInt8 → UInt8}
    (hact : m.change f = (.ok (), m')) (hp : m.tape.InBounds) (hp' : m'.tape.InBounds) :
    m'.tape.cell hp' = f (m.tape.cell hp) := by
  rw [change_of_inBounds hp] at hact
  obtain rfl := (Prod.mk.inj hact).2
  simp [Tape.cell, Tape.change, Tape.place, Array.getElem_modify_self]

/-- A step takes one step away from those to zero. -/
theorem ReachesZero.of_change {m m' : Machine} {step : UInt8} {steps : Nat}
    (h : m.ReachesZero step (steps + 1)) (hact : m.change (· + step) = (.ok (), m')) :
    m'.ReachesZero step steps := by
  intro hp'
  have hp := inBounds_of_change hact
  have hzero := h hp
  rw [UInt8.ofNat_add] at hzero
  rw [cell_of_change hact hp hp']
  grind

theorem ReachesZero.isZero_ne {m : Machine} {step : UInt8} (h : m.ReachesZero step 0) :
    m.isZero ≠ .ok false := by
  by_cases hp : m.tape.InBounds
  · rw [isZero_of_inBounds hp]
    simpa using h hp
  · rw [isZero_of_not_inBounds hp]
    simp

end Machine

namespace Program

variable {id : Nat} {amount : Int} {rest : Program} {m : Machine} {final : Outcome Unit}

/-- A loop that takes no turn does what a clear does, and it fails where a clear fails. -/
theorem evaluates_loop_of_isZero_ne {body : Program} (h : m.isZero ≠ .ok false) :
    Evaluates (.loop id body :: rest) m final ↔
      Evaluates (.command .clear :: rest) m final := by
  rw [evaluates_loop, evaluates_command, Command.action, Machine.act]
  rcases hzero : m.isZero with fault | _ | _
  · rw [Machine.change_of_isZero_error hzero, continues_error]
  · exact absurd hzero h
  · rw [Machine.change_zero_of_isZero hzero, continues_ok]

/-- A loop that steps its cell to zero does what a clear does. The steps that are left
to zero bound its turns. -/
theorem evaluates_stepLoop (steps : Nat) (h : m.ReachesZero (stepByte amount) steps) :
    Evaluates (.loop id [.command (.add amount)] :: rest) m final ↔
      Evaluates (.command .clear :: rest) m final := by
  induction steps generalizing m with
  | zero => exact evaluates_loop_of_isZero_ne h.isZero_ne
  | succ steps ih =>
      by_cases hzero : m.isZero = .ok false
      · rw [evaluates_loop, hzero]
        show Evaluates (.command (.add amount) :: .loop id [.command (.add amount)] :: rest) m
          final ↔ _
        simp only [evaluates_command, Command.action, Machine.act]
        have hboth := m.change_change (· + stepByte amount) (fun _ => 0)
        rcases hact : m.change (· + stepByte amount) with ⟨fault | ⟨⟩, m'⟩
        · rw [Machine.change_of_inBounds (Machine.inBounds_of_isZero hzero)] at hact
          cases hact
        · rw [hact, continues_ok] at hboth
          rw [continues_ok, ih (h.of_change hact), evaluates_command, Command.action,
            Machine.act, hboth]
          rfl
      · exact evaluates_loop_of_isZero_ne hzero

theorem stepLoop_equivalent_clear (id : Nat) (h : amount = 1 ∨ amount = -1)
    (rest : Program) :
    Equivalent (.loop id [.command (.add amount)] :: rest) (.command .clear :: rest) := by
  refine .of_evaluates fun m final => ?_
  obtain ⟨steps, hsteps⟩ := m.exists_reachesZero h
  exact evaluates_stepLoop steps hsteps

theorem ofBody_cases (id : Nat) (body : Program) :
    (∃ amount, body = [.command (.add amount)] ∧ Node.ofBody id body = .command .clear) ∨
      Node.ofBody id body = .loop id body := by
  unfold Node.ofBody
  split
  next amount => exact .inl ⟨amount, rfl, rfl⟩
  next => exact .inr rfl

/-- No `add` comes of putting in clears. -/
theorem eq_of_withClears_eq {body : Program} (h : body.withClears = [.command (.add amount)]) :
    body = [.command (.add amount)] := by
  obtain ⟨n, rfl, hn⟩ := List.map_eq_singleton_iff.mp h
  cases n with
  | command c => rw [← hn, Node.withClears_command]
  | loop id inner =>
      rw [Node.withClears_loop] at hn
      rcases ofBody_cases id (withClears inner) with ⟨_, -, hclear⟩ | hloop
      · cases hclear.symm.trans hn
      · cases hloop.symm.trans hn

/-- In a plain program a loop becomes a clear only if it takes single steps. -/
theorem eq_one_of_withClears_eq {body : Program} (hplain : body.IsPlain)
    (h : body.withClears = [.command (.add amount)]) : amount = 1 ∨ amount = -1 := by
  obtain rfl := eq_of_withClears_eq h
  obtain ⟨s, hs⟩ := (Node.isPlain_command _).mp (hplain _ List.mem_cons_self)
  cases s <;> simp [Symbol.command?] at hs
  · exact .inl hs.symm
  · exact .inr hs.symm

theorem equivalent_withClears {p : Program} (hplain : p.IsPlain) :
    Equivalent p p.withClears := by
  induction p using Program.induction with
  | nil => exact .refl []
  | command c rest ih =>
      rw [withClears_cons, Node.withClears_command]
      exact .command c (ih fun n hn => hplain n (List.mem_cons_of_mem _ hn))
  | loop id body rest ihBody ih =>
      obtain ⟨hloop, hrest⟩ := List.forall_mem_cons.mp hplain
      have hbody := (Node.isPlain_loop id body).mp hloop
      have hequiv := Equivalent.loop id id (ihBody hbody) (ih hrest)
      rw [withClears_cons, Node.withClears_loop]
      rcases ofBody_cases id body.withClears with ⟨amount, hamount, hclear⟩ | hsame
      · rw [hclear]
        rw [hamount] at hequiv
        exact hequiv.trans
          (stepLoop_equivalent_clear id (eq_one_of_withClears_eq hbody hamount) _)
      · rw [hsame]
        exact hequiv

end Program

end TapeCompiler
