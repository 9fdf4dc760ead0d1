import TapeCompiler.Token.Cursor

/-!
# Matching brackets

The brackets of a word match if no prefix closes more loops than it opens and the whole
word closes all of them. Counting says so without a stack. `Closes depth w` is the same
for a word inside `depth` open loops, and its lemmas read the word from the left.
-/

namespace TapeCompiler

namespace Symbol

def BracketsMatch (w : List Symbol) : Prop :=
  (∀ u, u <+: w → u.count .closeLoop ≤ u.count .openLoop) ∧
    w.count .closeLoop = w.count .openLoop

/-- No prefix of a word closes more than `depth` loops that were open before it, besides
those that it opens. -/
def StaysOpen (depth : Nat) (w : List Symbol) : Prop :=
  ∀ u, u <+: w → u.count .closeLoop ≤ u.count .openLoop + depth

/-- A word closes `depth` loops that are open before it, and all that it opens. -/
def Closes (depth : Nat) (w : List Symbol) : Prop :=
  (∀ u, u <+: w → u.count .closeLoop ≤ u.count .openLoop + depth) ∧
    w.count .closeLoop = w.count .openLoop + depth

theorem closes_zero_iff (w : List Symbol) : Closes 0 w ↔ BracketsMatch w := Iff.rfl

theorem closes_iff (depth : Nat) (w : List Symbol) :
    Closes depth w ↔
      StaysOpen depth w ∧ w.count .closeLoop = w.count .openLoop + depth := Iff.rfl

@[simp] theorem closes_nil (depth : Nat) : Closes depth [] ↔ depth = 0 := by
  simp [Closes, eq_comm]

/-- Reading one symbol: what it counts for goes over to the depth. -/
theorem staysOpen_cons (depth : Nat) (s : Symbol) (w : List Symbol) :
    StaysOpen depth (s :: w) ↔
      ∀ u, u <+: w → u.count .closeLoop + [s].count .closeLoop ≤
        u.count .openLoop + [s].count .openLoop + depth := by
  have hcount (t : Symbol) (u : List Symbol) :
      (s :: u).count t = u.count t + [s].count t := by
    rw [← List.singleton_append, List.count_append, Nat.add_comm]
  constructor
  · intro h u hu
    rw [← hcount _ u, ← hcount _ u]
    exact h (s :: u) ((List.prefix_cons_inj s).mpr hu)
  · intro h u hu
    rcases List.prefix_cons_iff.mp hu with rfl | ⟨v, rfl, hv⟩
    · simp
    · rw [hcount _ v, hcount _ v]
      exact h v hv

theorem staysOpen_openLoop (depth : Nat) (w : List Symbol) :
    StaysOpen depth (.openLoop :: w) ↔ StaysOpen (depth + 1) w := by
  rw [staysOpen_cons]
  simp [StaysOpen, Nat.add_assoc, Nat.add_comm 1 depth]

theorem staysOpen_closeLoop (depth : Nat) (w : List Symbol) :
    StaysOpen depth (.closeLoop :: w) ↔ ∃ outer, depth = outer + 1 ∧ StaysOpen outer w := by
  rw [staysOpen_cons]
  cases depth with
  | zero =>
      simp only [Nat.add_zero]
      constructor
      · intro h
        exact absurd (h [] List.nil_prefix) (by decide)
      · rintro ⟨outer, h, -⟩
        cases h
  | succ outer => simp [StaysOpen, ← Nat.add_assoc]

theorem staysOpen_other (depth : Nat) {s : Symbol} {w : List Symbol} (hopen : s ≠ .openLoop)
    (hclose : s ≠ .closeLoop) : StaysOpen depth (s :: w) ↔ StaysOpen depth w := by
  rw [staysOpen_cons]
  simp [StaysOpen, hopen, hclose]

theorem closes_openLoop (depth : Nat) (w : List Symbol) :
    Closes depth (.openLoop :: w) ↔ Closes (depth + 1) w := by
  rw [closes_iff, closes_iff, staysOpen_openLoop]
  simp [Nat.add_assoc, Nat.add_comm 1 depth]

theorem closes_closeLoop (depth : Nat) (w : List Symbol) :
    Closes depth (.closeLoop :: w) ↔ ∃ outer, depth = outer + 1 ∧ Closes outer w := by
  rw [closes_iff, staysOpen_closeLoop]
  cases depth with
  | zero => simp
  | succ outer => simp [closes_iff, ← Nat.add_assoc]

theorem closes_other (depth : Nat) {s : Symbol} {w : List Symbol} (hopen : s ≠ .openLoop)
    (hclose : s ≠ .closeLoop) : Closes depth (s :: w) ↔ Closes depth w := by
  rw [closes_iff, closes_iff, staysOpen_other depth hopen hclose]
  simp [hopen, hclose]

/-- Where a word closes too much, it does so for the first time behind a word that
closes all loops that are open. -/
theorem exists_closes_of_not_staysOpen {depth : Nat} {w : List Symbol}
    (h : ¬StaysOpen depth w) : ∃ u v, w = u ++ .closeLoop :: v ∧ Closes depth u := by
  induction w generalizing depth with
  | nil => exact absurd (by simp [StaysOpen]) h
  | cons s w ih =>
      have other (hopen : s ≠ .openLoop) (hclose : s ≠ .closeLoop) :
          ∃ u v, s :: w = u ++ .closeLoop :: v ∧ Closes depth u := by
        rw [staysOpen_other depth hopen hclose] at h
        obtain ⟨u, v, rfl, hu⟩ := ih h
        exact ⟨s :: u, v, rfl, (closes_other depth hopen hclose).mpr hu⟩
      cases s with
      | openLoop =>
          rw [staysOpen_openLoop] at h
          obtain ⟨u, v, rfl, hu⟩ := ih h
          exact ⟨.openLoop :: u, v, rfl, (closes_openLoop depth u).mpr hu⟩
      | closeLoop =>
          rw [staysOpen_closeLoop] at h
          cases depth with
          | zero => exact ⟨[], w, rfl, by simp⟩
          | succ outer =>
              obtain ⟨u, v, rfl, hu⟩ := ih fun hw => h ⟨outer, rfl, hw⟩
              exact ⟨.closeLoop :: u, v, rfl,
                (closes_closeLoop (outer + 1) u).mpr ⟨outer, rfl, hu⟩⟩
      | _ => exact other (by decide) (by decide)

end Symbol

end TapeCompiler
