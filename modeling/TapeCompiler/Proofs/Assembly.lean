import TapeCompiler.Proofs.Ending
import TapeCompiler.Proofs.Flattening
import Mathlib.Data.List.Nodup
import Mathlib.Logic.Relation

/-!
# Machines that run labelled code

An `Assembly` says of each instruction whether it is a label, and what it does to a
state: it goes on with the next instruction, or to a label, or it stops. From this
`Assembly.step` is an engine for a list of instructions, which looks a label up in the
whole list. Where no label stands twice, it finds the one place of the label
(`placeOf?_of_nodup`).

`Assembly.after` runs instructions that go straight on. `reaches_of_after` finds such a
run in the engine, wherever the instructions stand.
-/

namespace TapeCompiler

namespace Transition

variable {σ ρ : Type} {step : σ → Transition σ ρ}

/-- An engine comes from one state to another without stopping. -/
abbrev Reaches (step : σ → Transition σ ρ) : σ → σ → Prop :=
  Relation.ReflTransGen fun state next => step state = .next next

/-- Whatever an engine comes to from a later state, it comes to from an earlier one. -/
theorem ends_of_reaches {first last : σ} {result : ρ} (h : Reaches step first last)
    (hends : Ends step last result) : Ends step first result := by
  induction h using Relation.ReflTransGen.head_induction_on with
  | refl => exact hends
  | head hstep _ ih =>
      rw [ends_iff_of_step, hstep]
      exact ih

/-- An engine that ends comes to a state in which it stops. -/
theorem exists_reaches_of_ends {first : σ} {result : ρ} (h : Ends step first result) :
    ∃ last, Reaches step first last ∧ step last = .stop result := by
  obtain ⟨fuel, hrun⟩ := h
  induction fuel generalizing first with
  | zero => cases hrun
  | succ fuel ih =>
      rw [run_succ] at hrun
      cases hstep : step first with
      | next state =>
          obtain ⟨last, hreaches, hstop⟩ := ih (by simpa [hstep] using hrun)
          exact ⟨last, .head hstep hreaches, hstop⟩
      | stop found =>
          rw [hstep] at hrun
          obtain rfl := Option.some.inj hrun
          exact ⟨first, .refl, hstep⟩

end Transition

open Transition (Reaches)

/-- What an instruction does: it goes on with the next one, or to a label, or it stops. -/
inductive Flow (κ σ ρ : Type) where
  | next (state : σ)
  | jump (label : κ) (state : σ)
  | stop (result : ρ)

/-- What the instructions of a machine do. -/
structure Assembly (ι κ σ ρ : Type) where
  /-- The label that an instruction is. -/
  label? : ι → Option κ
  effect : ι → σ → Flow κ σ ρ
  /-- What comes of going where no instruction is. -/
  astray : σ → ρ

/-- A place in the code and the state of the machine there. -/
structure Position (σ : Type) where
  place : Nat
  state : σ

namespace Assembly

variable {ι κ σ ρ : Type} (a : Assembly ι κ σ ρ)

section Straight

/-- The state after instructions that all go straight on. -/
def after : List ι → σ → Option σ
  | [], state => some state
  | i :: rest, state =>
      match a.effect i state with
      | .next state => after rest state
      | _ => none

variable {a} {state state' : σ} {i : ι}

theorem after_cons (heffect : a.effect i state = .next state') (rest : List ι) :
    a.after (i :: rest) state = a.after rest state' := by
  rw [after, heffect]

theorem after_append {part : List ι} (h : a.after part state = some state') (rest : List ι) :
    a.after (part ++ rest) state = a.after rest state' := by
  induction part generalizing state with
  | nil =>
      obtain rfl := Option.some.inj h
      rfl
  | cons i part ih =>
      rw [after] at h
      split at h
      next middle heffect => exact (after_cons heffect _).trans (ih h)
      next => cases h

end Straight

variable [DecidableEq κ] (code : List ι)

/-- The place of a label. -/
def placeOf? (l : κ) : Option Nat :=
  code.findIdx? fun i => a.label? i = some l

def goTo (l : κ) (state : σ) : Transition (Position σ) ρ :=
  match a.placeOf? code l with
  | some place => .next ⟨place, state⟩
  | none => .stop (a.astray state)

/-- Runs the instruction at a place. -/
def step : Position σ → Transition (Position σ) ρ
  | ⟨place, state⟩ =>
      match code[place]? with
      | none => .stop (a.astray state)
      | some i =>
          match a.effect i state with
          | .next state => .next ⟨place + 1, state⟩
          | .jump l state => a.goTo code l state
          | .stop result => .stop result

variable {a code} {state state' : σ} {place : Nat} {i : ι} {l : κ}

/-- A label that stands once is found where it stands. -/
theorem placeOf?_of_nodup (hnodup : (code.filterMap a.label?).Nodup)
    (hat : code[place]? = some i) (hl : a.label? i = some l) :
    a.placeOf? code l = some place := by
  obtain ⟨hplace, rfl⟩ := List.getElem?_eq_some_iff.mp hat
  refine List.findIdx?_eq_some_iff_getElem.mpr ⟨hplace, by simpa using hl, ?_⟩
  intro earlier hearlier hfound
  have hpairs := List.pairwise_iff_getElem.mp (List.pairwise_filterMap.mp hnodup)
  have hother := hpairs earlier place (by omega) hplace hearlier l
  exact hother (by simpa using hfound) l hl rfl

theorem label?_of_placeOf? (h : a.placeOf? code l = some place) :
    ∃ i, code[place]? = some i ∧ a.label? i = some l := by
  obtain ⟨hplace, hl, -⟩ := List.findIdx?_eq_some_iff_getElem.mp h
  exact ⟨code[place], List.getElem?_eq_getElem hplace, by simpa using hl⟩

theorem step_of_next (hat : code[place]? = some i) (heffect : a.effect i state = .next state') :
    a.step code ⟨place, state⟩ = .next ⟨place + 1, state'⟩ := by
  rw [step, hat]
  simp only [heffect]

theorem step_of_jump {target : Nat} (hat : code[place]? = some i)
    (heffect : a.effect i state = .jump l state')
    (htarget : a.placeOf? code l = some target) :
    a.step code ⟨place, state⟩ = .next ⟨target, state'⟩ := by
  rw [step, hat]
  simp only [heffect, goTo, htarget]

theorem ends_of_stop {result : ρ} (hat : code[place]? = some i)
    (heffect : a.effect i state = .stop result) :
    Transition.Ends (a.step code) ⟨place, state⟩ result := by
  rw [Transition.ends_iff_of_step, step, hat]
  simp only [heffect]

/-- The engine follows instructions that go straight on. -/
theorem reaches_of_after {part : List ι} (hat : part <+: code.drop place)
    (h : a.after part state = some state') :
    Reaches (a.step code) ⟨place, state⟩ ⟨place + part.length, state'⟩ := by
  induction part generalizing place state with
  | nil =>
      obtain rfl := Option.some.inj h
      exact .refl
  | cons i part ih =>
      rw [after] at h
      split at h
      next middle heffect =>
        have hparts : [i] ++ part <+: code.drop place := hat
        have hreaches := ih (isPrefix_drop_of_append hparts) h
        rw [List.length_singleton, Nat.add_right_comm, Nat.add_assoc] at hreaches
        exact .head (step_of_next (getElem?_of_isPrefix_drop hat) heffect) hreaches
      next => cases h

/-- The engine goes to a label that stands once. -/
theorem reaches_of_jump {target : Nat} {j : ι}
    (hnodup : (code.filterMap a.label?).Nodup) (hat : code[place]? = some i)
    (heffect : a.effect i state = .jump l state') (htarget : code[target]? = some j)
    (hl : a.label? j = some l) :
    Reaches (a.step code) ⟨place, state⟩ ⟨target, state'⟩ :=
  .single (step_of_jump hat heffect (placeOf?_of_nodup hnodup htarget hl))

end Assembly

end TapeCompiler
