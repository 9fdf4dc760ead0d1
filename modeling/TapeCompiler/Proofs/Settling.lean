import Mathlib.Data.Nat.Count
import TapeCompiler.Proofs.Shrinking

/-!
# How many passes change a program

A pass that changes a program takes a node away, and behind a pass that changes nothing
no other pass changes anything. So the passes that change a program are the first ones,
and there are no more of them than nodes. `settle` stops behind the last of them: its
program is that of all passes that are allowed, and its number is how many of them
changed something (`settle_counts_changes`).
-/

namespace TapeCompiler

namespace Program

/-- The pass behind `i` others changes something. -/
def PassChanges (p : Program) (i : Nat) : Prop :=
  p.optimize (i + 1) ≠ p.optimize i

instance (p : Program) : DecidablePred p.PassChanges :=
  fun _ => inferInstanceAs (Decidable (_ ≠ _))

theorem optimize_pass (p : Program) (passes : Nat) :
    p.pass.optimize passes = p.optimize (passes + 1) := by
  induction passes with
  | zero => rfl
  | succ passes ih => rw [optimize_succ, ih, optimize_succ p (passes + 1)]

theorem passChanges_pass_iff (p : Program) (i : Nat) :
    p.pass.PassChanges i ↔ p.PassChanges (i + 1) := by
  rw [PassChanges, PassChanges, optimize_pass, optimize_pass]

/-- What `settle` comes to: behind the passes that it counts, which all change something,
it has met one that changes nothing, or the limit. -/
theorem settleFrom_eq (p : Program) (changed limit : Nat) :
    ∃ k, settleFrom changed p limit = (p.optimize k, changed + k) ∧ k ≤ limit ∧
      (∀ i < k, p.PassChanges i) ∧ (k < limit → ¬p.PassChanges k) := by
  induction limit generalizing p changed with
  | zero => exact ⟨0, rfl, Nat.le_refl 0, by simp, by simp⟩
  | succ limit ih =>
      rw [settleFrom]
      split
      next heq =>
        have hpass : p.pass = p := by simpa using heq
        exact ⟨0, rfl, Nat.zero_le _, by simp, fun _ hchanges => hchanges hpass⟩
      next hne =>
        have hpass : p.pass ≠ p := by simpa using hne
        obtain ⟨k, hsettle, hle, hfirst, hlast⟩ := ih p.pass (changed + 1)
        refine ⟨k + 1, ?_, Nat.succ_le_succ hle, ?_, ?_⟩
        · rw [hsettle, optimize_pass, Nat.add_right_comm, Nat.add_assoc]
        · intro i hi
          cases i with
          | zero => exact hpass
          | succ i =>
              exact (passChanges_pass_iff p i).mp (hfirst i (Nat.lt_of_succ_lt_succ hi))
        · intro hlt
          rw [← passChanges_pass_iff]
          exact hlast (Nat.lt_of_succ_lt_succ hlt)

/-- Where a pass changes nothing, all later passes are about the same program. -/
theorem optimize_eq_of_not_passChanges {p : Program} {k : Nat} (h : ¬p.PassChanges k)
    {i : Nat} (hle : k ≤ i) : p.optimize i = p.optimize k := by
  have hpass : (p.optimize k).pass = p.optimize k := Classical.not_not.mp h
  induction i, hle using Nat.le_induction with
  | base => rfl
  | succ i _ ih => rw [optimize_succ, ih, hpass]

/-- A program that one pass leaves alone is left alone by any number of them. -/
theorem optimize_eq_self {p : Program} (h : p.pass = p) (passes : Nat) :
    p.optimize passes = p := by
  have hzero : ¬p.PassChanges 0 := fun hchanges => hchanges h
  exact optimize_eq_of_not_passChanges hzero (Nat.zero_le passes)

theorem not_passChanges_of_le {p : Program} {k : Nat} (h : ¬p.PassChanges k) {i : Nat}
    (hle : k ≤ i) : ¬p.PassChanges i := by
  intro hchanges
  apply hchanges
  rw [optimize_eq_of_not_passChanges h hle,
    optimize_eq_of_not_passChanges h (Nat.le_succ_of_le hle)]

/-- Every pass that changes something takes at least one node away. -/
theorem nodeCount_optimize_add_le {p : Program} {k : Nat} (h : ∀ i < k, p.PassChanges i) :
    (p.optimize k).nodeCount + k ≤ p.nodeCount := by
  induction k with
  | zero => exact Nat.le_refl _
  | succ k ih =>
      have hle := ih fun i hi => h i (Nat.lt_succ_of_lt hi)
      have hlt := (pass_shrinks (p.optimize k)).nodeCount_lt (h k (Nat.lt_succ_self k))
      rw [← optimize_succ] at hlt
      omega

/-- A program of which the passes took away every node is left alone. -/
theorem not_passChanges_of_nodeCount {p : Program} (h : ∀ i < p.nodeCount, p.PassChanges i) :
    ¬p.PassChanges p.nodeCount := by
  intro hchanges
  have hle := nodeCount_optimize_add_le (k := p.nodeCount + 1) fun i hi => by
    rcases Nat.lt_succ_iff_lt_or_eq.mp hi with hi | rfl
    · exact h i hi
    · exact hchanges
  omega

/-- Counting the numbers below `limit` that are among the first `k`. -/
theorem count_eq_of_forall_lt_iff {P : Nat → Prop} [DecidablePred P] {k limit : Nat}
    (hle : k ≤ limit) (h : ∀ i < limit, P i ↔ i < k) : Nat.count P limit = k := by
  obtain ⟨more, rfl⟩ := Nat.exists_eq_add_of_le hle
  have hfirst : Nat.count P k = k :=
    Nat.count_iff_forall.mpr fun i hi => (h i (Nat.lt_add_right more hi)).mpr hi
  have hlast : Nat.count (fun i => P (k + i)) more = 0 :=
    Nat.count_iff_forall_not.mpr fun i hi hP =>
      Nat.not_lt.mpr (Nat.le_add_right k i) ((h (k + i) (Nat.add_lt_add_left hi k)).mp hP)
  rw [Nat.count_add, hfirst, hlast, Nat.add_zero]

/-- Passes that are taken until one changes nothing come to the program of all passes that
are allowed. They count those among them that change something. These are the first ones,
and no more than there are nodes. As many passes as nodes are enough for all that
follow. -/
theorem settle_counts_changes (p : Program) (limit : Nat) :
    let settled := (p.settle limit).1
    let changed := (p.settle limit).2
    settled = p.optimize limit ∧ changed ≤ min limit p.nodeCount ∧
      changed = Nat.count p.PassChanges limit ∧
      (∀ i < limit, p.PassChanges i ↔ i < changed) ∧
      (p.nodeCount ≤ limit →
        settled.optimize 1 = settled ∧ ∀ passes, settled.optimize passes = settled) := by
  obtain ⟨k, hsettle, hle, hfirst, hlast⟩ := settleFrom_eq p 0 limit
  rw [Nat.zero_add, ← settle] at hsettle
  rw [hsettle]
  have hnodes := nodeCount_optimize_add_le hfirst
  have hiff (i : Nat) (hi : i < limit) : p.PassChanges i ↔ i < k := by
    refine ⟨fun hchanges => ?_, hfirst i⟩
    refine Nat.lt_of_not_le fun hki => ?_
    exact not_passChanges_of_le (hlast (Nat.lt_of_le_of_lt hki hi)) hki hchanges
  have hall : p.optimize k = p.optimize limit := by
    rcases Nat.lt_or_eq_of_le hle with hlt | rfl
    · exact (optimize_eq_of_not_passChanges (hlast hlt) hle).symm
    · rfl
  refine ⟨hall, by omega, (count_eq_of_forall_lt_iff hle hiff).symm, hiff, fun hlimit => ?_⟩
  have hsettled : (p.optimize k).pass = p.optimize k := by
    have hnot : ¬p.PassChanges k := by
      rcases Nat.lt_or_eq_of_le hle with hlt | rfl
      · exact hlast hlt
      · obtain rfl : k = p.nodeCount := by omega
        exact not_passChanges_of_nodeCount hfirst
    exact Classical.not_not.mp hnot
  exact ⟨optimize_eq_self hsettled 1, optimize_eq_self hsettled⟩

/-- Three passes change this program, and the limit is its number of nodes. -/
theorem settle_counts_changes_nested :
    let p : Program :=
      [.command .read, .loop 0 [.loop 1 [.command (.add 1), .command (.add (-1))]],
        .command (.move 1), .command (.move (-1))]
    let settled := (p.settle 7).1
    p.nodeCount ≤ 7 ∧ settled.optimize 1 = settled ∧
      Nat.count p.PassChanges 7 = (p.settle 7).2 ∧ (p.settle 7).2 = 3 := by
  intro p settled
  have hcount : p.nodeCount ≤ 7 := by decide
  obtain ⟨-, -, hchanged, -, hsettled⟩ := settle_counts_changes p 7
  exact ⟨hcount, (hsettled hcount).1, hchanged.symm, by decide +kernel⟩

end Program

end TapeCompiler
