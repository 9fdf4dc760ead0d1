import TapeCompiler.Proofs.Evaluation

/-!
# One program for another

`q` refines `p` if `q` comes to every outcome that `p` comes to, on every machine, apart
from faults that are not allowed for. Nothing is asked where `p` comes to no outcome.
Refinement is kept by the constructors of programs, the bodies of loops included, and
`ends_of_evaluates` takes it to whole runs.
-/

namespace TapeCompiler

/-- An outcome counts if it is no fault, or one of the faults that are allowed. -/
def Counts (allowed : RuntimeFault → Prop) (outcome : Outcome Unit) : Prop :=
  ∀ fault, outcome.1 = .error fault → allowed fault

theorem counts_ok (allowed : RuntimeFault → Prop) (m : Machine) :
    Counts allowed (.ok (), m) := by
  intro fault h
  cases h

namespace Program

/-- Whatever outcome counts and comes of `p`, comes of `q`. -/
def Refines (allowed : RuntimeFault → Prop) (p q : Program) : Prop :=
  ∀ m outcome, Counts allowed outcome → Evaluates p m outcome → Evaluates q m outcome

variable {allowed : RuntimeFault → Prop} {p q r body body' : Program}

namespace Refines

theorem refl (p : Program) : Refines allowed p p :=
  fun _ _ _ h => h

theorem trans (h : Refines allowed p q) (h' : Refines allowed q r) :
    Refines allowed p r :=
  fun m outcome hcounts hp => h' m outcome hcounts (h m outcome hcounts hp)

/-- A loop whose body is refined is refined, and its number does not matter. -/
theorem loop (id id' : Nat) (hbody : Refines allowed body body')
    (hrest : Refines allowed p q) :
    Refines allowed (.loop id body :: p) (.loop id' body' :: q) := by
  intro m final hcounts h
  generalize hloop : Node.loop id body :: p = loop at h
  induction h with
  | nil => cases hloop
  | command => cases hloop
  | commandFault => cases hloop
  | loopFault hzero => exact .loopFault hzero
  | loopDone hzero h =>
      cases hloop
      exact .loopDone hzero (hrest _ _ hcounts h)
  | loopBodyFault hzero h =>
      cases hloop
      exact .loopBodyFault hzero (hbody _ _ hcounts h)
  | loopAgain hzero h _ _ ih =>
      cases hloop
      exact .loopAgain hzero (hbody _ _ (counts_ok allowed _) h) (ih hcounts rfl)

theorem command (c : Command) (hrest : Refines allowed p q) :
    Refines allowed (.command c :: p) (.command c :: q) := by
  intro m final hcounts h
  cases h with
  | command hact h => exact .command hact (hrest _ _ hcounts h)
  | commandFault hact => exact .commandFault hact

theorem cons (n : Node) (hrest : Refines allowed p q) :
    Refines allowed (n :: p) (n :: q) := by
  cases n with
  | command c => exact command c hrest
  | loop id body => exact loop id id (refl body) hrest

end Refines

/-- A run that ends, and whose ending counts, ends the same way with another program
if all that counts and comes of the one comes of the other. -/
theorem ends_of_evaluates {m : Machine} {final : Outcome Unit}
    (hrefines : ∀ outcome, Counts allowed outcome →
      Evaluates p m outcome → Evaluates q m outcome)
    (hcounts : Counts allowed final) (h : p.Ends m final) : q.Ends m final := by
  rw [ends_iff_evaluates] at h ⊢
  obtain ⟨⟨fault | ⟨⟩, m'⟩, hp, hfinal⟩ := h
  · exact ⟨_, hrefines _ (by rwa [hfinal]) hp, hfinal⟩
  · exact ⟨_, hrefines _ (counts_ok allowed m') hp, hfinal⟩

/-- Two programs come to the same outcomes, faults of every kind included. -/
def Equivalent (p q : Program) : Prop :=
  Refines (fun _ => True) p q ∧ Refines (fun _ => True) q p

namespace Equivalent

theorem refl (p : Program) : Equivalent p p :=
  ⟨.refl p, .refl p⟩

theorem symm (h : Equivalent p q) : Equivalent q p :=
  ⟨h.2, h.1⟩

theorem trans (h : Equivalent p q) (h' : Equivalent q r) : Equivalent p r :=
  ⟨h.1.trans h'.1, h'.2.trans h.2⟩

theorem loop (id id' : Nat) (hbody : Equivalent body body') (hrest : Equivalent p q) :
    Equivalent (.loop id body :: p) (.loop id' body' :: q) :=
  ⟨.loop id id' hbody.1 hrest.1, .loop id' id hbody.2 hrest.2⟩

theorem command (c : Command) (hrest : Equivalent p q) :
    Equivalent (.command c :: p) (.command c :: q) :=
  ⟨.command c hrest.1, .command c hrest.2⟩

theorem of_evaluates (h : ∀ m final, Evaluates p m final ↔ Evaluates q m final) :
    Equivalent p q :=
  ⟨fun m final _ => (h m final).mp, fun m final _ => (h m final).mpr⟩

theorem ends_iff (h : Equivalent p q) (m : Machine) (final : Outcome Unit) :
    p.Ends m final ↔ q.Ends m final :=
  ⟨ends_of_evaluates (h.1 m) fun _ _ => trivial, ends_of_evaluates (h.2 m) fun _ _ => trivial⟩

end Equivalent

end Program

end TapeCompiler
