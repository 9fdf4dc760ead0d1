import TapeCompiler.Proofs.Assembly
import TapeCompiler.Proofs.Templates
import TapeCompiler.Proofs.Actions

/-!
# Code that does what a program does

A relation between machines with a tape and states of an assembly is carried from one
place of the code to another if a run from related states comes there, to related states
(`Assembly.Carries`). `Assembly.Implements` asks this of the parts of a template: of the
code of each command, and of the code around the body of a loop, which is entered, left
and gone back to. Then it holds of all that the template writes, by induction on the
evaluation of the program (`Implements.carries`).

`LoopCode` is how the targets write loops: a label and a test, a branch over the loop, and
behind the body the way back and a second label. Such code does what loops do.
-/

namespace TapeCompiler.Assembly

open Transition (Reaches)

variable {ι κ σ ρ : Type} [DecidableEq κ]

/-- Where the parts of a loop and what follows on it stand. -/
theorem isPrefix_drop_parts {words opening body closing rest : List ι} {k : Nat}
    (h : opening ++ body ++ closing ++ rest <+: words.drop k) :
    opening <+: words.drop k ∧ body <+: words.drop (k + opening.length) ∧
      closing <+: words.drop (k + opening.length + body.length) ∧
      rest <+: words.drop (k + opening.length + body.length + closing.length) := by
  simp only [List.append_assoc] at h
  have hbody := isPrefix_drop_of_append h
  have hclosing := isPrefix_drop_of_append hbody
  exact ⟨(List.prefix_append _ _).trans h, (List.prefix_append _ _).trans hbody,
    (List.prefix_append _ _).trans hclosing, isPrefix_drop_of_append hclosing⟩

section Carries

variable (a : Assembly ι κ σ ρ) (code : List ι) (R : Machine → σ → Prop)

/-- From states related to `m` at `place`, a run comes to `target`, to states related to
`m'`. -/
def Carries (place target : Nat) (m m' : Machine) : Prop :=
  ∀ state, R m state →
    ∃ state', R m' state' ∧ Reaches (a.step code) ⟨place, state⟩ ⟨target, state'⟩

/-- Wherever the parts of a template stand in the code, they do what commands and loops
do. -/
structure Implements (t : Template ι) : Prop where
  command : ∀ {place : Place} {c : Command} {k : Nat} {m m' : Machine},
    t.command place c <+: code.drop k → m.act c.action = (.ok (), m') →
    a.Carries code R k (k + (t.command place c).length) m m'
  /-- The test at the start of a loop lets a cell that is not zero pass. -/
  enter : ∀ {place : Place} {id k : Nat} {m : Machine},
    t.opening place id <+: code.drop k → m.isZero = .ok false →
    a.Carries code R k (k + (t.opening place id).length) m m
  /-- A cell that is zero leads behind the loop. -/
  leave : ∀ {place : Place} {id k k' : Nat} {m : Machine},
    t.opening place id <+: code.drop k → t.closing place id <+: code.drop k' →
    m.isZero = .ok true → a.Carries code R k (k' + (t.closing place id).length) m m
  /-- Behind the body a run goes back to the start of the loop. -/
  again : ∀ {place : Place} {id k k' : Nat} {m : Machine},
    t.opening place id <+: code.drop k → t.closing place id <+: code.drop k' →
    a.Carries code R k' k m m

end Carries

/-- The code around the bodies of loops, in a form that tests the cell. -/
structure LoopCode (a : Assembly ι κ σ ρ) (t : Template ι) (R : Machine → σ → Prop) where
  start : Nat → κ
  finish : Nat → κ
  startLine : Nat → ι
  test : List ι
  branch : Nat → ι
  back : Nat → ι
  finishLine : Nat → ι
  opening_eq : ∀ place id, t.opening place id = startLine id :: test ++ [branch id]
  closing_eq : ∀ place id, t.closing place id = [back id, finishLine id]
  label?_startLine : ∀ id, a.label? (startLine id) = some (start id)
  label?_finishLine : ∀ id, a.label? (finishLine id) = some (finish id)
  effect_back : ∀ id state, a.effect (back id) state = .jump (start id) state
  effect_finishLine : ∀ id state, a.effect (finishLine id) state = .next state
  /-- The branch is taken where the cell is zero. -/
  tests : ∀ {m : Machine} {state : σ} {zero : Bool} (id : Nat), R m state →
    m.isZero = .ok zero → ∃ middle state', R m state' ∧
      a.after (startLine id :: test) state = some middle ∧
      a.effect (branch id) middle = if zero then .jump (finish id) state' else .next state'

variable {a : Assembly ι κ σ ρ} {code : List ι} {R : Machine → σ → Prop} {t : Template ι}

theorem Carries.trans {first middle last : Nat} {m m' m'' : Machine}
    (h : a.Carries code R first middle m m') (h' : a.Carries code R middle last m' m'') :
    a.Carries code R first last m m'' := by
  intro state hstate
  obtain ⟨state', hstate', hreaches⟩ := h state hstate
  obtain ⟨state'', hstate'', hreaches'⟩ := h' state' hstate'
  exact ⟨state'', hstate'', hreaches.trans hreaches'⟩

/-- What a template writes for a program does what the program does. -/
theorem Implements.carries (h : a.Implements code R t) {p : Program} {m m' : Machine}
    (hp : Program.Evaluates p m (.ok (), m')) (place : Place) {k : Nat}
    (hat : t.write place p <+: code.drop k) :
    a.Carries code R k (k + (t.write place p).length) m m' := by
  generalize hfinal : (Except.ok (), m') = final at hp
  induction hp generalizing m' place k with
  | nil =>
      cases hfinal
      exact fun state hstate => ⟨state, hstate, .refl⟩
  | @command c rest m next final hact _ ih =>
      rw [Template.write_command] at hat ⊢
      have hfirst := h.command ((List.prefix_append _ _).trans hat) hact
      have hrest := ih _ (isPrefix_drop_of_append hat) hfinal
      rw [List.length_append, ← Nat.add_assoc]
      exact hfirst.trans hrest
  | commandFault => cases hfinal
  | loopFault => cases hfinal
  | loopBodyFault => cases hfinal
  | @loopDone id body rest m final hzero _ ih =>
      rw [Template.write_loop] at hat ⊢
      obtain ⟨hopening, -, hclosing, hrest⟩ := isPrefix_drop_parts hat
      have hleave := h.leave hopening hclosing hzero
      have hafter := ih _ hrest hfinal
      simp only [List.length_append, ← Nat.add_assoc]
      exact hleave.trans hafter
  | @loopAgain id body rest m next final hzero _ _ ihBody ih =>
      have hloop := ih place hat hfinal
      rw [Template.write_loop] at hat
      obtain ⟨hopening, hbody, hclosing, -⟩ := isPrefix_drop_parts hat
      have henter := h.enter hopening hzero
      have hinner := ihBody _ hbody rfl
      exact ((henter.trans hinner).trans (h.again hopening hclosing)).trans hloop

/-- Where no label stands twice, the code of loops does what loops do. -/
theorem LoopCode.implements (loops : LoopCode a t R) (hnodup : (code.filterMap a.label?).Nodup)
    (hcommand : ∀ {place : Place} {c : Command} {k : Nat} {m m' : Machine},
      t.command place c <+: code.drop k → m.act c.action = (.ok (), m') →
      a.Carries code R k (k + (t.command place c).length) m m') :
    a.Implements code R t where
  command := hcommand
  enter := by
    intro place id k m hat hzero state hstate
    obtain ⟨middle, state', hstate', htest, hbranch⟩ := loops.tests id hstate hzero
    rw [loops.opening_eq] at hat ⊢
    exact ⟨state', hstate', reaches_of_after hat
      ((after_append htest _).trans (after_cons hbranch []))⟩
  leave := by
    intro place id k k' m hat hat' hzero state hstate
    obtain ⟨middle, state', hstate', htest, hbranch⟩ := loops.tests id hstate hzero
    rw [loops.opening_eq] at hat
    rw [loops.closing_eq] at hat' ⊢
    have hreaches := reaches_of_after ((List.prefix_append _ _).trans hat) htest
    have hclosing : [loops.back id] ++ [loops.finishLine id] <+: code.drop k' := hat'
    have hfinish := isPrefix_drop_of_append hclosing
    have hjump := reaches_of_jump hnodup
      (getElem?_of_isPrefix_drop (isPrefix_drop_of_append hat)) hbranch
      (getElem?_of_isPrefix_drop hfinish) (loops.label?_finishLine id)
    have hpast := reaches_of_after hfinish (after_cons (loops.effect_finishLine id state') [])
    exact ⟨state', hstate', (hreaches.trans hjump).trans hpast⟩
  again := by
    intro place id k k' m hat hat' state hstate
    rw [loops.opening_eq] at hat
    rw [loops.closing_eq] at hat'
    exact ⟨state, hstate, reaches_of_jump hnodup (getElem?_of_isPrefix_drop hat')
      (loops.effect_back id state) (getElem?_of_isPrefix_drop hat) (loops.label?_startLine id)⟩

end TapeCompiler.Assembly
