/-!
# Running step by step

An engine is a function that takes one step from a state. `Transition.run` takes steps until the
engine stops, as long as the fuel lasts. Running out of fuel is the only way to get no
answer, and `run_eq_some_of_le` says that more fuel does not change an answer.
-/

namespace TapeCompiler

/-- One step of an engine: it goes on from a new state, or it stops with a result. -/
inductive Transition (σ ρ : Type) where
  | next (state : σ)
  | stop (result : ρ)

namespace Transition

variable {σ ρ : Type}

/-- Takes at most `fuel` steps. The result is `none` if the engine has not stopped by
then. -/
@[specialize] def run (step : σ → Transition σ ρ) : Nat → σ → Option ρ
  | 0, _ => none
  | fuel + 1, state =>
      match step state with
      | .next state => run step fuel state
      | .stop result => some result

@[simp] theorem run_zero (step : σ → Transition σ ρ) (state : σ) :
    run step 0 state = none := rfl

theorem run_succ (step : σ → Transition σ ρ) (fuel : Nat) (state : σ) :
    run step (fuel + 1) state =
      match step state with
      | .next state => run step fuel state
      | .stop result => some result := rfl

theorem run_eq_some_of_le {step : σ → Transition σ ρ} {fuel fuel' : Nat} {state : σ}
    {result : ρ} (h : run step fuel state = some result) (hle : fuel ≤ fuel') :
    run step fuel' state = some result := by
  induction fuel generalizing state fuel' with
  | zero => simp at h
  | succ fuel ih =>
      obtain ⟨more, rfl⟩ : ∃ more, fuel' = more + 1 :=
        ⟨fuel' - 1, by omega⟩
      rw [run_succ] at h ⊢
      cases hstep : step state with
      | stop found => simpa [hstep] using h
      | next state' =>
          rw [hstep] at h
          exact ih h (by omega)

end Transition

end TapeCompiler
