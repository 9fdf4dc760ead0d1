import TapeCompiler.Proofs.Ending
import TapeCompiler.Code.Evaluation

/-!
# What engines ask of their machine

An engine keeps a machine and something besides: the nodes that are still to run, or a
place in the code. What it does with the machine in one step is a `Demand`, and it goes on
by what the machine answers alone. So what is to be proved of runs can be proved of the
single actions of a machine, for both engines at once: `run_engine` is the bridge, and
`related_of_run` takes a relation from actions to runs.
-/

namespace TapeCompiler

/-- What an engine asks of its machine in one step, and from where it goes on then. -/
inductive Demand (κ : Type) where
  | act (action : Action) (next : κ)
  | test (next : Bool → κ)
  | finish

namespace Demand

variable {κ : Type}

/-- What comes of a demand on a machine. -/
def answer (m : Machine) : Demand κ → Transition (κ × Machine) (Outcome Unit)
  | finish => .stop m.flush
  | act action next =>
      match m.act action with
      | (.ok _, m) => .next (next, m)
      | (.error fault, m) => .stop (.error fault, m)
  | test next =>
      match m.isZero with
      | .error fault => .stop (.error fault, m)
      | .ok zero => .next (next zero, m)

/-- One step of an engine that asks what `demand` says. -/
def step (demand : κ → Demand κ) : κ × Machine → Transition (κ × Machine) (Outcome Unit)
  | (k, m) => (demand k).answer m

/-- What is kept by the actions of a machine, and by flushing it, is kept by a run. -/
theorem related_of_run {R : Machine → Machine → Prop} (hrefl : ∀ m, R m m)
    (htrans : ∀ {m m' m''}, R m m' → R m' m'' → R m m'')
    (hact : ∀ m action, R m (m.act action).2) (hflush : ∀ m, R m m.flush.2)
    {demand : κ → Demand κ} {fuel : Nat} {k : κ} {m : Machine} {outcome : Outcome Unit}
    (h : Transition.run (step demand) fuel (k, m) = some outcome) : R m outcome.2 := by
  induction fuel generalizing k m with
  | zero => simp at h
  | succ fuel ih =>
      rw [Transition.run_succ, step] at h
      generalize demand k = asked at h
      cases asked with
      | finish =>
          obtain rfl := Option.some.inj h
          exact hflush m
      | act action next =>
          have hkept := hact m action
          rw [answer] at h
          rcases hdone : m.act action with ⟨fault | ⟨⟩, m'⟩ <;> rw [hdone] at h hkept
          · obtain rfl := Option.some.inj h
            exact hkept
          · exact htrans hkept (ih h)
      | test next =>
          rw [answer] at h
          rcases hzero : m.isZero with fault | zero <;> rw [hzero] at h
          · obtain rfl := Option.some.inj h
            exact hrefl m
          · exact ih h

end Demand

def Walk.demand : List Node → Demand (List Node)
  | [] => .finish
  | .command c :: rest => .act c.action rest
  | .loop id body :: rest =>
      .test fun zero => if zero then rest else body ++ .loop id body :: rest

def CodeRun.demand (code : Array Instruction) (place : UInt64) : Demand UInt64 :=
  match code[place.toNat]? with
  | none => .finish
  | some (.act action) => .act action (place + 1)
  | some (.jumpForward offset) => .test fun zero => place + if zero then offset else 1
  | some (.jumpBack offset) => .test fun zero => if zero then place + 1 else place - offset

theorem Walk.run_step (fuel : Nat) (todo : List Node) (m : Machine) :
    Transition.run Walk.step fuel ⟨todo, m⟩ =
      Transition.run (Demand.step Walk.demand) fuel (todo, m) := by
  refine Transition.run_eq_of_lockstep (R := fun walk state => state = (walk.todo, walk.machine))
    ?_ rfl fuel
  rintro ⟨todo, m⟩ _ rfl
  rcases todo with _ | ⟨c | ⟨id, body⟩, rest⟩ <;>
    simp only [Walk.step, Demand.step, Walk.demand, Demand.answer]
  · exact .stop rfl
  · rcases m.act c.action with ⟨fault | ⟨⟩, m'⟩
    · exact .stop rfl
    · exact .next rfl
  · rcases m.isZero with fault | _ | _
    · exact .stop rfl
    · exact .next rfl
    · exact .next rfl

theorem CodeRun.run_step (code : Array Instruction) (fuel : Nat) (place : UInt64)
    (m : Machine) :
    Transition.run (CodeRun.step code) fuel ⟨place, m⟩ =
      Transition.run (Demand.step (CodeRun.demand code)) fuel (place, m) := by
  refine Transition.run_eq_of_lockstep (R := fun run state => state = (run.place, run.machine))
    ?_ rfl fuel
  rintro ⟨place, m⟩ _ rfl
  simp only [CodeRun.step, Demand.step, CodeRun.demand]
  rcases code[place.toNat]? with _ | action | offset | offset <;> simp only [Demand.answer]
  · exact .stop rfl
  · rcases m.act action with ⟨fault | ⟨⟩, m'⟩
    · exact .stop rfl
    · exact .next rfl
  · rcases m.isZero with fault | _
    · exact .stop rfl
    · exact .next rfl
  · rcases m.isZero with fault | _
    · exact .stop rfl
    · exact .next rfl

/-- The two ways to run a program. -/
inductive Engine where
  /-- Along the tree. -/
  | tree
  /-- Along the flat code. -/
  | code
deriving DecidableEq, Repr, Inhabited

namespace Engine

/-- Runs a program on a machine for at most `fuel` steps. -/
def run (engine : Engine) (fuel : Nat) (p : Program) (m : Machine) :
    Option (Outcome Unit) :=
  match engine with
  | tree => p.run fuel m
  | code => runCode fuel p.code m

/-- A run of the program `p` on the machine `m` ends with `outcome`. -/
def Ends (engine : Engine) (p : Program) (m : Machine) (outcome : Outcome Unit) : Prop :=
  ∃ fuel, engine.run fuel p m = some outcome

/-- Every engine is one that goes on by the answers of its machine alone. -/
theorem run_engine (engine : Engine) (p : Program) :
    ∃ (κ : Type) (demand : κ → Demand κ) (start : κ), ∀ fuel m,
      engine.run fuel p m = Transition.run (Demand.step demand) fuel (start, m) := by
  cases engine with
  | tree => exact ⟨List Node, Walk.demand, p, fun fuel m => Walk.run_step fuel p m⟩
  | code =>
      exact ⟨UInt64, CodeRun.demand p.code.toArray, 0,
        fun fuel m => CodeRun.run_step p.code.toArray fuel 0 m⟩

end Engine

end TapeCompiler
