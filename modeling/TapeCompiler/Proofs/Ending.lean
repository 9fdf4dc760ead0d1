import TapeCompiler.Program.Evaluation

/-!
# Runs that end

`Transition.Ends step state result` says that an engine that starts in `state` stops
with `result`, whatever fuel that takes. An engine has at most one result, and
`ends_iff_of_step` moves along one step in either direction.

Two engines whose steps agree give related answers for every amount of fuel:
`run_lockstep` takes a relation between the states and asks only for one step.
-/

namespace TapeCompiler

namespace Transition

variable {σ τ ρ ς : Type} {step : σ → Transition σ ρ} {step' : τ → Transition τ ς}

/-- An engine that starts in `state` stops with `result`. -/
def Ends (step : σ → Transition σ ρ) (state : σ) (result : ρ) : Prop :=
  ∃ fuel, run step fuel state = some result

theorem Ends.unique {state : σ} {result result' : ρ} (h : Ends step state result)
    (h' : Ends step state result') : result = result' := by
  obtain ⟨fuel, hrun⟩ := h
  obtain ⟨fuel', hrun'⟩ := h'
  have hmore := run_eq_some_of_le hrun (Nat.le_max_left fuel fuel')
  have hmore' := run_eq_some_of_le hrun' (Nat.le_max_right fuel fuel')
  exact Option.some.inj (hmore.symm.trans hmore')

/-- What an engine does from a state is what it does after one step. -/
theorem ends_iff_of_step (state : σ) (result : ρ) :
    Ends step state result ↔
      match step state with
      | .next state' => Ends step state' result
      | .stop found => found = result := by
  constructor
  · rintro ⟨_ | fuel, hrun⟩
    · simp at hrun
    · rw [run_succ] at hrun
      cases hstep : step state with
      | next state' => exact ⟨fuel, by simpa [hstep] using hrun⟩
      | stop found => simpa [hstep] using hrun
  · intro h
    cases hstep : step state with
    | next state' =>
        rw [hstep] at h
        obtain ⟨fuel, hrun⟩ := h
        exact ⟨fuel + 1, by simpa [run_succ, hstep] using hrun⟩
    | stop found =>
        rw [hstep] at h
        exact ⟨1, by simpa [run_succ, hstep] using h⟩

/-- Two steps agree if both go on, from related states, or both stop, with related
results. -/
inductive Agree (R : σ → τ → Prop) (Q : ρ → ς → Prop) :
    Transition σ ρ → Transition τ ς → Prop
  | next {state : σ} {state' : τ} (h : R state state') :
      Agree R Q (.next state) (.next state')
  | stop {result : ρ} {result' : ς} (h : Q result result') :
      Agree R Q (.stop result) (.stop result')

/-- Engines whose steps agree on related states agree on whole runs, fuel for fuel. -/
theorem run_lockstep {R : σ → τ → Prop} {Q : ρ → ς → Prop}
    (hstep : ∀ state state', R state state' → Agree R Q (step state) (step' state'))
    {state : σ} {state' : τ} (h : R state state') (fuel : Nat) :
    Option.Rel Q (run step fuel state) (run step' fuel state') := by
  induction fuel generalizing state state' with
  | zero => exact .none
  | succ fuel ih =>
      rw [run_succ, run_succ]
      have hagree := hstep state state' h
      generalize step state = done at hagree
      generalize step' state' = done' at hagree
      cases hagree with
      | next hnext => exact ih hnext
      | stop hstop => exact .some hstop

/-- Engines that stop with equal results have equal runs. -/
theorem run_eq_of_lockstep {step' : τ → Transition τ ρ} {R : σ → τ → Prop}
    (hstep : ∀ state state', R state state' → Agree R Eq (step state) (step' state'))
    {state : σ} {state' : τ} (h : R state state') (fuel : Nat) :
    run step fuel state = run step' fuel state' := by
  have hrel := run_lockstep hstep h fuel
  generalize run step fuel state = answer at hrel
  generalize run step' fuel state' = answer' at hrel
  cases hrel with
  | none => rfl
  | some heq => rw [heq]

end Transition

/-- A run of the program `p` on the machine `m` ends with `outcome`. -/
def Program.Ends (p : Program) (m : Machine) (outcome : Outcome Unit) : Prop :=
  ∃ fuel, p.run fuel m = some outcome

end TapeCompiler
