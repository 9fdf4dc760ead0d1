import TapeCompiler.Proofs.Ending

/-!
# Evaluation along the tree

`Program.Evaluates p m outcome` says that the nodes of `p`, run one behind the other on
the machine `m`, come to `outcome`. The body of a loop is evaluated on its own, so an
evaluation has the shape of the tree, and a run that does not end has none.
`evaluates_append` takes two programs apart, and `evaluates_command` and
`evaluates_loop` read off the first node. `ends_iff_evaluates` is the bridge to the
engine: a run ends exactly if the evaluation does, and flushes if it came to no fault.
-/

namespace TapeCompiler

/-- What follows on an outcome: after a fault nothing does. -/
def Continues (after : Machine → Outcome Unit → Prop) (outcome final : Outcome Unit) :
    Prop :=
  match outcome with
  | (.ok _, m) => after m final
  | (.error fault, m) => (.error fault, m) = final

@[simp] theorem continues_ok (after : Machine → Outcome Unit → Prop) (m : Machine)
    (final : Outcome Unit) : Continues after (.ok (), m) final ↔ after m final := Iff.rfl

@[simp] theorem continues_error (after : Machine → Outcome Unit → Prop)
    (fault : RuntimeFault) (m : Machine) (final : Outcome Unit) :
    Continues after (.error fault, m) final ↔ (.error fault, m) = final := Iff.rfl

theorem Continues.imp {after after' : Machine → Outcome Unit → Prop}
    {outcome final : Outcome Unit} (h : Continues after outcome final)
    (himp : ∀ m, after m final → after' m final) : Continues after' outcome final := by
  obtain ⟨_ | ⟨⟩, m⟩ := outcome
  · exact h
  · exact himp m h

namespace Program

/-- The nodes of a program, run one behind the other on a machine, come to an
outcome. The sink is not flushed here. -/
inductive Evaluates : Program → Machine → Outcome Unit → Prop
  | nil (m : Machine) : Evaluates [] m (.ok (), m)
  | command {c : Command} {rest : Program} {m m' : Machine} {final : Outcome Unit}
      (hact : m.act c.action = (.ok (), m')) (hrest : Evaluates rest m' final) :
      Evaluates (.command c :: rest) m final
  | commandFault {c : Command} {rest : Program} {m m' : Machine} {fault : RuntimeFault}
      (hact : m.act c.action = (.error fault, m')) :
      Evaluates (.command c :: rest) m (.error fault, m')
  | loopFault {id : Nat} {body rest : Program} {m : Machine} {fault : RuntimeFault}
      (hzero : m.isZero = .error fault) :
      Evaluates (.loop id body :: rest) m (.error fault, m)
  | loopDone {id : Nat} {body rest : Program} {m : Machine} {final : Outcome Unit}
      (hzero : m.isZero = .ok true) (hrest : Evaluates rest m final) :
      Evaluates (.loop id body :: rest) m final
  | loopBodyFault {id : Nat} {body rest : Program} {m m' : Machine}
      {fault : RuntimeFault} (hzero : m.isZero = .ok false)
      (hbody : Evaluates body m (.error fault, m')) :
      Evaluates (.loop id body :: rest) m (.error fault, m')
  | loopAgain {id : Nat} {body rest : Program} {m m' : Machine} {final : Outcome Unit}
      (hzero : m.isZero = .ok false) (hbody : Evaluates body m (.ok (), m'))
      (hagain : Evaluates (.loop id body :: rest) m' final) :
      Evaluates (.loop id body :: rest) m final

theorem evaluates_command {c : Command} {rest : Program} {m : Machine}
    {final : Outcome Unit} :
    Evaluates (.command c :: rest) m final ↔
      Continues (Evaluates rest) (m.act c.action) final := by
  constructor
  · intro h
    cases h with
    | command hact hrest => simpa [hact] using hrest
    | commandFault hact => simp [hact]
  · intro h
    rcases hact : m.act c.action with ⟨_ | ⟨⟩, m'⟩
    · rw [hact, continues_error] at h
      exact h ▸ .commandFault hact
    · rw [hact, continues_ok] at h
      exact .command hact h

theorem Evaluates.append {p q : Program} {m : Machine} {outcome final : Outcome Unit}
    (h : Evaluates p m outcome) (hq : Continues (Evaluates q) outcome final) :
    Evaluates (p ++ q) m final := by
  induction h with
  | nil => exact hq
  | command hact _ ih => exact .command hact (ih hq)
  | commandFault hact => exact hq ▸ .commandFault hact
  | loopFault hzero => exact hq ▸ .loopFault hzero
  | loopDone hzero _ ih => exact .loopDone hzero (ih hq)
  | loopBodyFault hzero hbody => exact hq ▸ .loopBodyFault hzero hbody
  | loopAgain hzero hbody _ _ ih => exact .loopAgain hzero hbody (ih hq)

/-- The first node comes to an outcome of its own before the others are looked at. -/
theorem Evaluates.split_cons {n : Node} {rest : Program} {m : Machine}
    {final : Outcome Unit} (h : Evaluates (n :: rest) m final) :
    ∃ outcome, Evaluates [n] m outcome ∧ Continues (Evaluates rest) outcome final := by
  generalize hp : n :: rest = p at h
  induction h with
  | nil => cases hp
  | command hact hrest =>
      cases hp
      exact ⟨_, .command hact (.nil _), hrest⟩
  | commandFault hact =>
      cases hp
      exact ⟨_, .commandFault hact, rfl⟩
  | loopFault hzero =>
      cases hp
      exact ⟨_, .loopFault hzero, rfl⟩
  | loopDone hzero hrest =>
      cases hp
      exact ⟨_, .loopDone hzero (.nil _), hrest⟩
  | loopBodyFault hzero hbody =>
      cases hp
      exact ⟨_, .loopBodyFault hzero hbody, rfl⟩
  | loopAgain hzero hbody _ _ ih =>
      cases hp
      obtain ⟨outcome, hloop, hrest⟩ := ih rfl
      exact ⟨outcome, .loopAgain hzero hbody hloop, hrest⟩

theorem Evaluates.split {p q : Program} {m : Machine} {final : Outcome Unit}
    (h : Evaluates (p ++ q) m final) :
    ∃ outcome, Evaluates p m outcome ∧ Continues (Evaluates q) outcome final := by
  induction p generalizing m with
  | nil => exact ⟨_, .nil m, h⟩
  | cons n p ih =>
      obtain ⟨⟨_ | ⟨⟩, m'⟩, hn, hrest⟩ := Evaluates.split_cons h
      · exact ⟨_, hn.append (q := p) rfl, hrest⟩
      · obtain ⟨outcome, hp, hq⟩ := ih hrest
        exact ⟨outcome, hn.append (q := p) hp, hq⟩

theorem evaluates_append {p q : Program} {m : Machine} {final : Outcome Unit} :
    Evaluates (p ++ q) m final ↔
      ∃ outcome, Evaluates p m outcome ∧ Continues (Evaluates q) outcome final :=
  ⟨Evaluates.split, fun ⟨_, hp, hq⟩ => hp.append hq⟩

/-- What a loop comes to, read off its cell. -/
theorem evaluates_loop {id : Nat} {body rest : Program} {m : Machine}
    {final : Outcome Unit} :
    Evaluates (.loop id body :: rest) m final ↔
      match m.isZero with
      | .error fault => (.error fault, m) = final
      | .ok true => Evaluates rest m final
      | .ok false => Evaluates (body ++ .loop id body :: rest) m final := by
  constructor
  · intro h
    cases h with
    | loopFault hzero => simp [hzero]
    | loopDone hzero hrest => simpa [hzero] using hrest
    | loopBodyFault hzero hbody =>
        rw [hzero]
        exact hbody.append rfl
    | loopAgain hzero hbody hagain =>
        rw [hzero]
        exact hbody.append hagain
  · intro h
    rcases hzero : m.isZero with fault | _ | _
    · rw [hzero] at h
      exact h ▸ .loopFault hzero
    · rw [hzero] at h
      obtain ⟨⟨_ | ⟨⟩, m'⟩, hbody, hagain⟩ := evaluates_append.mp h
      · exact hagain ▸ .loopBodyFault hzero hbody
      · exact .loopAgain hzero hbody hagain
    · rw [hzero] at h
      exact .loopDone hzero h

/-- An evaluation is followed by the engine, whatever it has still to run after it. -/
theorem Evaluates.ends_walk {p : Program} {m : Machine} {outcome : Outcome Unit}
    (h : Evaluates p m outcome) (rest : Program) (final : Outcome Unit) :
    Transition.Ends Walk.step ⟨p ++ rest, m⟩ final ↔
      Continues (fun m' => Transition.Ends Walk.step ⟨rest, m'⟩) outcome final := by
  induction h generalizing rest with
  | nil m => rfl
  | command hact _ ih =>
      rw [Transition.ends_iff_of_step, List.cons_append, Walk.step, hact]
      exact ih rest
  | commandFault hact =>
      rw [Transition.ends_iff_of_step, List.cons_append, Walk.step, hact]
      rfl
  | loopFault hzero =>
      rw [Transition.ends_iff_of_step, List.cons_append, Walk.step, hzero]
      rfl
  | loopDone hzero _ ih =>
      rw [Transition.ends_iff_of_step, List.cons_append, Walk.step, hzero]
      exact ih rest
  | loopBodyFault hzero _ ih =>
      rw [Transition.ends_iff_of_step, List.cons_append, Walk.step, hzero]
      exact ih _
  | loopAgain hzero _ _ ihBody ih =>
      rw [Transition.ends_iff_of_step, List.cons_append, Walk.step, hzero]
      exact (ihBody _).trans (ih rest)

/-- What the engine comes to, having `p` and then `rest` to run, it comes to by an
evaluation of `p`, and the fuel is enough for `rest` then. -/
theorem exists_evaluates_of_run {fuel : Nat} {p rest : Program} {m : Machine}
    {final : Outcome Unit} (h : Transition.run Walk.step fuel ⟨p ++ rest, m⟩ = some final) :
    ∃ outcome, Evaluates p m outcome ∧
      Continues (fun m' final => Transition.run Walk.step fuel ⟨rest, m'⟩ = some final)
        outcome final := by
  -- A loop is entered with the body and then the loop itself to run, and the step that
  -- entered it leaves less fuel for both.
  induction fuel generalizing p rest m with
  | zero => simp at h
  | succ fuel ih =>
      have more {q : Program} {outcome : Outcome Unit}
          (hless : Continues (fun m' final =>
            Transition.run Walk.step fuel ⟨q, m'⟩ = some final) outcome final) :
          Continues (fun m' final =>
            Transition.run Walk.step (fuel + 1) ⟨q, m'⟩ = some final) outcome final :=
        hless.imp fun _ hrun => Transition.run_eq_some_of_le hrun (Nat.le_succ fuel)
      rcases p with _ | ⟨c | ⟨id, body⟩, p⟩
      · exact ⟨_, .nil m, h⟩
      · rw [Transition.run_succ, List.cons_append, Walk.step] at h
        rcases hact : m.act c.action with ⟨fault | ⟨⟩, m'⟩ <;> rw [hact] at h
        · exact ⟨_, .commandFault hact, Option.some.inj h⟩
        · obtain ⟨outcome, hp, hrest⟩ := ih h
          exact ⟨outcome, .command hact hp, more hrest⟩
      · rw [Transition.run_succ, List.cons_append, Walk.step] at h
        rcases hzero : m.isZero with fault | _ | _ <;> rw [hzero] at h
        · exact ⟨_, .loopFault hzero, Option.some.inj h⟩
        · obtain ⟨⟨fault | ⟨⟩, m'⟩, hbody, hagain⟩ := ih h
          · exact ⟨_, .loopBodyFault hzero hbody, hagain⟩
          · obtain ⟨outcome, hloop, hrest⟩ := ih (p := .loop id body :: p) hagain
            exact ⟨outcome, .loopAgain hzero hbody hloop, more hrest⟩
        · obtain ⟨outcome, hp, hrest⟩ := ih h
          exact ⟨outcome, .loopDone hzero hp, more hrest⟩

/-- A run ends exactly if the program evaluates, and it flushes the sink if the
evaluation came to no fault. -/
theorem ends_iff_evaluates {p : Program} {m : Machine} {final : Outcome Unit} :
    p.Ends m final ↔
      ∃ outcome, Evaluates p m outcome ∧
        Continues (fun m' final => m'.flush = final) outcome final := by
  have hdone (m' : Machine) (final : Outcome Unit) :
      Transition.Ends Walk.step ⟨[], m'⟩ final ↔ m'.flush = final := by
    rw [Transition.ends_iff_of_step, Walk.step]
  constructor
  · rintro ⟨fuel, hrun⟩
    have hwalk : Transition.run Walk.step fuel ⟨p ++ [], m⟩ = some final := by
      rwa [List.append_nil]
    obtain ⟨outcome, hp, hrest⟩ := exists_evaluates_of_run hwalk
    refine ⟨outcome, hp, hrest.imp ?_⟩
    exact fun m' h => (hdone m' final).mp ⟨fuel, h⟩
  · rintro ⟨outcome, hp, hfinal⟩
    have hwalk := (hp.ends_walk [] final).mpr
      (hfinal.imp fun m' h => (hdone m' final).mpr h)
    rwa [List.append_nil] at hwalk

end Program

end TapeCompiler
