import Mathlib.Algebra.Order.BigOperators.Group.List
import TapeCompiler.Proofs.AmountRange
import TapeCompiler.Proofs.Jasmin.Simulation

/-!
# The steps of a move

An increment takes a word of 16 bits, so a move is split. `SplitLoop` splits off as much as
a word can hold, again and again, until nothing is left. It ends with the steps of the move,
in builds that wrap and in builds that stop, because what is left comes closer to zero with
each turn (`SplitLoop.ends_moveSteps`).

No list of words that comes to the same amount is shorter: `shortestSplit_moveSteps`.
-/

namespace TapeCompiler.Jasmin

/-- A number that an increment can take. -/
def FitsInt16 (step : Int) : Prop :=
  -32768 ≤ step ∧ step ≤ 32767

/-- As much of an amount as an increment can take. -/
def longestStep (amount : Int) : Int :=
  max (-32768) (min amount 32767)

section Steps

variable {amount : Int}

theorem moveSteps_zero : moveSteps 0 = [] := rfl

theorem moveSteps_of_nonpos (h : amount ≤ 0) :
    moveSteps amount = List.replicate (amount.natAbs / 32768) (-32768) ++
      if amount - (amount.natAbs / 32768 : Nat) * -32768 = 0 then []
      else [amount - (amount.natAbs / 32768 : Nat) * -32768] := by
  rcases Int.lt_or_eq_of_le h with hneg | rfl
  · rw [moveSteps, if_pos hneg]
    rfl
  · rfl

theorem moveSteps_of_nonneg (h : 0 ≤ amount) :
    moveSteps amount = List.replicate (amount.natAbs / 32767) 32767 ++
      if amount - (amount.natAbs / 32767 : Nat) * 32767 = 0 then []
      else [amount - (amount.natAbs / 32767 : Nat) * 32767] := by
  rw [moveSteps, if_neg (Int.not_lt.mpr h)]
  rfl

theorem moveSteps_of_le (h : amount ≤ -32768) :
    moveSteps amount = -32768 :: moveSteps (amount - -32768) := by
  have hcount : amount.natAbs / 32768 = (amount - -32768).natAbs / 32768 + 1 := by omega
  have hlast : amount - ((amount - -32768).natAbs / 32768 + 1 : Nat) * -32768 =
      amount - -32768 - ((amount - -32768).natAbs / 32768 : Nat) * -32768 := by omega
  rw [moveSteps_of_nonpos (by omega), moveSteps_of_nonpos (by omega), hcount, hlast,
    List.replicate_succ, List.cons_append]

theorem moveSteps_of_ge (h : 32767 ≤ amount) :
    moveSteps amount = 32767 :: moveSteps (amount - 32767) := by
  have hcount : amount.natAbs / 32767 = (amount - 32767).natAbs / 32767 + 1 := by omega
  have hlast : amount - ((amount - 32767).natAbs / 32767 + 1 : Nat) * 32767 =
      amount - 32767 - ((amount - 32767).natAbs / 32767 : Nat) * 32767 := by omega
  rw [moveSteps_of_nonneg (by omega), moveSteps_of_nonneg (by omega), hcount, hlast,
    List.replicate_succ, List.cons_append]

theorem moveSteps_of_between (hlower : -32768 < amount) (hupper : amount < 32767)
    (hne : amount ≠ 0) : moveSteps amount = [amount] := by
  rcases Int.le_total amount 0 with hsign | hsign
  · have hcount : amount.natAbs / 32768 = 0 := by omega
    rw [moveSteps_of_nonpos hsign, hcount]
    simp [hne]
  · have hcount : amount.natAbs / 32767 = 0 := by omega
    rw [moveSteps_of_nonneg hsign, hcount]
    simp [hne]

/-- A move starts with as much of the amount as an increment can take. -/
theorem moveSteps_of_ne_zero (h : amount ≠ 0) :
    moveSteps amount = longestStep amount :: moveSteps (amount - longestStep amount) := by
  by_cases hupper : 32767 ≤ amount
  · have hstep : longestStep amount = 32767 := by
      unfold longestStep
      omega
    rw [hstep, moveSteps_of_ge hupper]
  · by_cases hlower : amount ≤ -32768
    · have hstep : longestStep amount = -32768 := by
        unfold longestStep
        omega
      rw [hstep, moveSteps_of_le hlower]
    · have hstep : longestStep amount = amount := by
        unfold longestStep
        omega
      rw [hstep, moveSteps_of_between (by omega) (by omega) h, Int.sub_self, moveSteps_zero]

/-- What holds of zero, and of an amount if it holds of what is left of it, holds of every
amount. -/
theorem induction_longestStep {motive : Int → Prop} (zero : motive 0)
    (step : ∀ amount, amount ≠ 0 → motive (amount - longestStep amount) → motive amount)
    (amount : Int) : motive amount := by
  induction hsize : amount.natAbs using Nat.strong_induction_on generalizing amount with
  | h size ih =>
      by_cases h : amount = 0
      · exact h ▸ zero
      · refine step amount h (ih _ ?_ _ rfl)
        unfold longestStep
        omega

end Steps

/-- Steps that come to an amount, all in its direction, and as few as there can be. -/
structure ShortestSplit (amount : Int) (steps : List Int) : Prop where
  fits : ∀ step ∈ steps, FitsInt16 step
  sign_eq : ∀ step ∈ steps, step.sign = amount.sign
  sum_eq : steps.sum = amount
  length_le : ∀ others : List Int, (∀ step ∈ others, FitsInt16 step) → others.sum = amount →
    steps.length ≤ others.length

section Shortest

variable {amount : Int} {steps : List Int}

/-- So many words come to no more, in either direction. -/
theorem sum_bounds (h : ∀ step ∈ steps, FitsInt16 step) :
    (steps.length : Int) * -32768 ≤ steps.sum ∧ steps.sum ≤ (steps.length : Int) * 32767 := by
  have hle := List.sum_le_card_nsmul steps 32767 fun step hstep => (h step hstep).2
  have hge := List.card_nsmul_le_sum steps (-32768) fun step hstep => (h step hstep).1
  rw [nsmul_eq_mul] at hle hge
  exact ⟨hge, hle⟩

/-- Every step goes in the direction of the amount, and no further than a word can. -/
theorem mem_moveSteps {step : Int} (h : step ∈ moveSteps amount) :
    (0 < amount ∧ 0 < step ∧ step ≤ 32767) ∨ (amount < 0 ∧ step < 0 ∧ -32768 ≤ step) := by
  induction amount using induction_longestStep with
  | zero => cases h
  | step amount hne ih =>
      rw [moveSteps_of_ne_zero hne] at h
      rcases List.mem_cons.mp h with rfl | h
      · unfold longestStep
        omega
      · have hrest := ih h
        unfold longestStep at hrest
        omega

/-- All steps but one are as long as a word can be. -/
theorem length_moveSteps (amount : Int) :
    (0 ≤ amount → ((moveSteps amount).length : Int) * 32767 ≤ amount + 32766) ∧
      (amount ≤ 0 → ((moveSteps amount).length : Int) * 32768 ≤ 32767 - amount) := by
  induction amount using induction_longestStep with
  | zero => decide
  | step amount hne ih =>
      rw [moveSteps_of_ne_zero hne, List.length_cons]
      unfold longestStep at ih ⊢
      omega

theorem shortestSplit_moveSteps (amount : Int) : ShortestSplit amount (moveSteps amount) where
  fits step hstep := by
    unfold FitsInt16
    rcases mem_moveSteps hstep with h | h <;> omega
  sign_eq step hstep := by
    rcases mem_moveSteps hstep with ⟨ha, hs, -⟩ | ⟨ha, hs, -⟩
    · rw [Int.sign_eq_one_of_pos ha, Int.sign_eq_one_of_pos hs]
    · rw [Int.sign_eq_neg_one_of_neg ha, Int.sign_eq_neg_one_of_neg hs]
  sum_eq := sum_moveSteps amount
  length_le others hfits hsum := by
    obtain ⟨hlower, hupper⟩ := sum_bounds hfits
    obtain ⟨hpos, hneg⟩ := length_moveSteps amount
    omega

end Shortest

namespace SplitLoop

/-- What is left of a move, and the steps that were split off. -/
structure State where
  remaining : Int
  steps : List Int := []
deriving DecidableEq, Repr, Inhabited

/-- One turn of the loop. A checked build stops where what is left has more than 32 bits. -/
def step (build : Build) (s : State) : Transition State (Option (List Int)) :=
  if s.remaining = 0 then .stop (some s.steps)
  else
    match build.sum? s.remaining (-longestStep s.remaining) with
    | some remaining => .next ⟨remaining, s.steps ++ [longestStep s.remaining]⟩
    | none => .stop none

/-- The loop ends with the steps of the move behind those that were split off before. -/
theorem ends_moveSteps (build : Build) {amount : Int} (h : FitsInt32 amount) (steps : List Int) :
    Transition.Ends (step build) ⟨amount, steps⟩ (some (steps ++ moveSteps amount)) := by
  induction amount using induction_longestStep generalizing steps with
  | zero =>
      rw [Transition.ends_iff_of_step, moveSteps_zero, List.append_nil]
      rfl
  | step amount hne ih =>
      have hrest : FitsInt32 (amount - longestStep amount) := by
        rw [fitsInt32_iff] at h ⊢
        unfold longestStep
        omega
      have hends := ih hrest (steps ++ [longestStep amount])
      rw [List.append_assoc, List.singleton_append, ← moveSteps_of_ne_zero hne] at hends
      have hsum : build.sum? amount (-longestStep amount) = some (amount - longestStep amount) :=
        build.sum?_eq hrest
      rw [Transition.ends_iff_of_step]
      simpa only [step, if_neg hne, hsum] using hends

end SplitLoop

end TapeCompiler.Jasmin
