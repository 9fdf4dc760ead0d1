import TapeCompiler.Proofs.Actions
import TapeCompiler.Proofs.Engines

/-!
# Interrupted reads

A read that is interrupted is tried again before the instruction that reads is done. So a
run cannot tell how often it was interrupted. `DropsInterrupted input input'` says that
`input'` is `input` without some of its interrupted reads. An action does the same with
either of them, and leaves inputs behind that are in this relation again
(`Machine.act_withInput`). So whole runs of either engine go in step
(`Engine.run_iff_of_dropsInterrupted`).
-/

namespace TapeCompiler

/-- The second list of events is the first one without some of its interrupted reads. -/
inductive DropsInterrupted : List ReadEvent → List ReadEvent → Prop
  | nil : DropsInterrupted [] []
  | keep (event : ReadEvent) {input input' : List ReadEvent}
      (h : DropsInterrupted input input') : DropsInterrupted (event :: input) (event :: input')
  | drop {input input' : List ReadEvent} (h : DropsInterrupted input input') :
      DropsInterrupted (.interrupted :: input) input'

/-- One read brings the same, and what is left differs in interrupted reads only. -/
theorem DropsInterrupted.readByte {input input' : List ReadEvent}
    (h : DropsInterrupted input input') :
    ∃ rest', DropsInterrupted (readByte input).2 rest' ∧
      readByte input' = ((readByte input).1, rest') := by
  induction h with
  | nil => exact ⟨[], .nil, rfl⟩
  | keep event h ih =>
      cases event with
      | interrupted => exact ih
      | _ => exact ⟨_, h, rfl⟩
  | drop _ ih => exact ih

theorem readByte_interrupted (count : Nat) (input : List ReadEvent) :
    readByte (List.replicate count .interrupted ++ input) = readByte input := by
  induction count with
  | zero => rfl
  | succ count ih => exact ih

namespace Machine

/-- The machine with another input. -/
def withInput (m : Machine) (input : List ReadEvent) : Machine :=
  { m with input }

section Input

variable {m : Machine} {input' : List ReadEvent}

theorem isZero_withInput (m : Machine) (input : List ReadEvent) :
    (m.withInput input).isZero = m.isZero := by
  simp only [isZero, withInput]
  cases m.tape.index <;> rfl

theorem flush_withInput (m : Machine) (input : List ReadEvent) :
    (m.withInput input).flush = (m.flush.1, m.flush.2.withInput input) := by
  simp only [flush, Sink.flush, withInput]
  cases m.sink.flushFault <;> rfl

theorem input_flush (m : Machine) : m.flush.2.input = m.input := by
  simp only [flush, Sink.flush]
  cases m.sink.flushFault <;> rfl

theorem change_withInput (h : DropsInterrupted m.input input') (f : UInt8 → UInt8) :
    ∃ rest', DropsInterrupted (m.change f).2.input rest' ∧
      (m.withInput input').change f = ((m.change f).1, (m.change f).2.withInput rest') := by
  refine ⟨input', ?_⟩
  simp only [change, withInput]
  cases m.tape.index <;> exact ⟨h, rfl⟩

theorem read_withInput (h : DropsInterrupted m.input input') :
    ∃ rest', DropsInterrupted m.read.2.input rest' ∧
      (m.withInput input').read = (m.read.1, m.read.2.withInput rest') := by
  simp only [read, withInput]
  cases m.tape.index with
  | error fault => exact ⟨input', h, rfl⟩
  | ok i =>
      obtain ⟨rest', hrest, hread⟩ := h.readByte
      rw [hread]
      rcases hfound : readByte m.input with ⟨fault | _ | value, rest⟩ <;> rw [hfound] at hrest <;>
        exact ⟨rest', hrest, rfl⟩

theorem write_withInput (h : DropsInterrupted m.input input') :
    ∃ rest', DropsInterrupted m.write.2.input rest' ∧
      (m.withInput input').write = (m.write.1, m.write.2.withInput rest') := by
  refine ⟨input', ?_⟩
  simp only [write, withInput]
  cases m.tape.index with
  | error fault => exact ⟨h, rfl⟩
  | ok i =>
      dsimp only
      rcases m.sink.write m.tape.cells[i] with ⟨fault | ⟨⟩, sink⟩ <;> exact ⟨h, rfl⟩

/-- An action does the same if some interrupted reads are left out of the input. -/
theorem act_withInput (h : DropsInterrupted m.input input') (action : Action) :
    ∃ rest', DropsInterrupted (m.act action).2.input rest' ∧
      (m.withInput input').act action =
        ((m.act action).1, (m.act action).2.withInput rest') := by
  cases action with
  | shift amount => exact ⟨input', h, rfl⟩
  | add value => exact change_withInput h _
  | clear => exact change_withInput h _
  | read => exact read_withInput h
  | write => exact write_withInput h

end Input

/-- The second machine is the first one without some of the interrupted reads that are to
come. -/
def LessInterrupted (m m' : Machine) : Prop :=
  ∃ input', DropsInterrupted m.input input' ∧ m' = m.withInput input'

end Machine

/-- All is the same except for interrupted reads that the second machine will not meet. -/
def SameButInterrupted {α : Type} (x x' : α × Machine) : Prop :=
  x'.1 = x.1 ∧ x.2.LessInterrupted x'.2

theorem SameButInterrupted.exists_rest_iff {α : Type} {x x' : α × Machine}
    (h : SameButInterrupted x x') (a : α) (tape : Tape) (sink : Sink) :
    (∃ rest, x = (a, ⟨tape, rest, sink⟩)) ↔ ∃ rest, x' = (a, ⟨tape, rest, sink⟩) := by
  obtain ⟨b, m⟩ := x
  obtain ⟨b', m'⟩ := x'
  obtain ⟨hb, input', -, hm⟩ := h
  obtain rfl : b' = b := hb
  obtain rfl : m' = m.withInput input' := hm
  constructor
  · rintro ⟨rest, heq⟩
    cases heq
    exact ⟨input', rfl⟩
  · rintro ⟨rest, heq⟩
    cases m
    cases heq
    exact ⟨_, rfl⟩

namespace Demand

variable {κ : Type}

theorem answer_withInput {m : Machine} {input' : List ReadEvent}
    (h : DropsInterrupted m.input input') (asked : Demand κ) :
    Transition.Agree SameButInterrupted SameButInterrupted (asked.answer m)
      (asked.answer (m.withInput input')) := by
  cases asked with
  | finish =>
      rw [answer, answer, Machine.flush_withInput]
      have hrest : DropsInterrupted m.flush.2.input input' := m.input_flush ▸ h
      exact .stop ⟨rfl, input', hrest, rfl⟩
  | test next =>
      rw [answer, answer, Machine.isZero_withInput]
      cases m.isZero with
      | error fault => exact .stop ⟨rfl, input', h, rfl⟩
      | ok zero => exact .next ⟨rfl, input', h, rfl⟩
  | act action next =>
      obtain ⟨rest', hrest, hact⟩ := Machine.act_withInput h action
      rw [answer, answer, hact]
      rcases hdone : m.act action with ⟨fault | ⟨⟩, m'⟩ <;> rw [hdone] at hrest
      · exact .stop ⟨rfl, rest', hrest, rfl⟩
      · exact .next ⟨rfl, rest', hrest, rfl⟩

/-- Runs go in step, whether they are interrupted or not. -/
theorem run_lessInterrupted (demand : κ → Demand κ) (fuel : Nat) {state state' : κ × Machine}
    (h : SameButInterrupted state state') :
    Option.Rel SameButInterrupted (Transition.run (step demand) fuel state)
      (Transition.run (step demand) fuel state') := by
  refine Transition.run_lockstep ?_ h fuel
  rintro ⟨k, m⟩ ⟨k', m'⟩ ⟨hk, input', hinput, hm⟩
  obtain rfl : k' = k := hk
  obtain rfl : m' = m.withInput input' := hm
  exact answer_withInput hinput (demand k')

end Demand

namespace Engine

theorem run_lessInterrupted (engine : Engine) (fuel : Nat) (p : Program) {m m' : Machine}
    (h : m.LessInterrupted m') :
    Option.Rel SameButInterrupted (engine.run fuel p m) (engine.run fuel p m') := by
  obtain ⟨κ, demand, start, hengine⟩ := engine.run_engine p
  rw [hengine, hengine]
  exact Demand.run_lessInterrupted demand fuel ⟨rfl, h⟩

/-- How often the reads of a run are interrupted makes no difference to it: after as many
steps it ends with the same result, the same tape and the same sink, or it does not end in
either case. A read goes on to the first event that is no interruption, and if there is
none, to the end of the input. -/
theorem run_iff_of_dropsInterrupted (engine : Engine) (p : Program) (tape : Tape) (sink : Sink)
    {input input' : List ReadEvent} (h : DropsInterrupted input input') :
    (∀ fuel result tape' sink',
      (∃ rest, engine.run fuel p ⟨tape, input, sink⟩ = some (result, ⟨tape', rest, sink'⟩)) ↔
        ∃ rest, engine.run fuel p ⟨tape, input', sink⟩ = some (result, ⟨tape', rest, sink'⟩)) ∧
    ∀ (hp : tape.InBounds) (count : Nat) (rest : List ReadEvent),
      let read (events : List ReadEvent) : Outcome Unit :=
        Machine.read ⟨tape, List.replicate count .interrupted ++ events, sink⟩
      (∀ value, read (.byte value :: rest) =
        (.ok (), ⟨tape.change (tape.place hp) fun _ => value, rest, sink⟩)) ∧
      read (.noByte :: rest) = (.ok (), ⟨tape, rest, sink⟩) ∧
      (∀ fault, read (.fault fault :: rest) = (.error (.io fault), ⟨tape, rest, sink⟩)) ∧
      read [] = (.ok (), ⟨tape, [], sink⟩) := by
  refine ⟨fun fuel result tape' sink' => ?_, fun hp count rest => ?_⟩
  · have hrel := engine.run_lessInterrupted fuel p (m := ⟨tape, input, sink⟩) ⟨input', h, rfl⟩
    rw [Machine.withInput] at hrel
    generalize engine.run fuel p ⟨tape, input, sink⟩ = answer at hrel
    generalize engine.run fuel p ⟨tape, input', sink⟩ = answer' at hrel
    cases hrel with
    | none => simp
    | some hsame => simpa using hsame.exists_rest_iff result tape' sink'
  · simp only [Machine.read, Tape.index_of_inBounds hp, readByte_interrupted, readByte,
      implies_true, and_self]

/-- The input is interrupted before a byte, before an end, twice before a fault and at last.
One interruption is left in. -/
theorem run_iff_of_dropsInterrupted_everywhere :
    let p : Program := [.command .read, .loop 0 [.command .print, .command .read]]
    let gone : ReadEvent := .fault (.other "gone")
    let input : List ReadEvent :=
      [.interrupted, .byte 65, .interrupted, .noByte, .interrupted, .interrupted, gone,
        .interrupted]
    let input' : List ReadEvent := [.byte 65, .interrupted, .noByte, gone]
    let blank : Tape := ⟨#[0], 0⟩
    let fails (input : List ReadEvent) : Prop :=
      ∃ rest, Engine.tree.run 7 p ⟨blank, input, {}⟩ =
        some (.error (.io (.other "gone")), ⟨⟨#[65], 0⟩, rest, { written := #[65, 65] }⟩)
    DropsInterrupted input input' ∧ fails input ∧ fails input' ∧ blank.InBounds ∧
      Machine.read ⟨blank, [.interrupted, .interrupted, .byte 65, gone], {}⟩ =
        (.ok (), ⟨⟨#[65], 0⟩, [gone], {}⟩) := by
  intro p gone input input' blank fails
  have hdrops : DropsInterrupted input input' :=
    .drop (.keep _ (.keep _ (.keep _ (.drop (.drop (.keep _ (.drop .nil)))))))
  have hp : blank.InBounds := ⟨by decide, by decide⟩
  have hfails : fails input := ⟨[.interrupted], by decide +kernel⟩
  obtain ⟨hruns, hreads⟩ := run_iff_of_dropsInterrupted .tree p blank {} hdrops
  exact ⟨hdrops, hfails, (hruns ..).mp hfails, hp, (hreads hp 2 [gone]).1 65⟩

end Engine

end TapeCompiler
