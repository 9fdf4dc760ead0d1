import TapeCompiler.Proofs.StreamUse
import TapeCompiler.Proofs.CodeSimulation
import TapeCompiler.Compilation.Notice

/-!
# Programs that are run in turn on one machine

`Program.execute` blanks the tape before it runs a program, and keeps the streams. So a
machine that serves one program after the other is as good as a new machine for each of
them, whatever the programs before it have left on the tape and however they ended. A
`Session` is such a row of runs, with what each of them did, and `session_executes_iff`
compares the two kinds of sessions.
-/

namespace TapeCompiler

/-- What a program did that was run in a session. -/
structure Service where
  result : Except GenerationFault Unit
  /-- The bytes that came to the output. -/
  added : List UInt8
  /-- The events that were taken from the input. -/
  consumed : List ReadEvent
deriving DecidableEq, Repr, Inhabited

/-- What a run on a machine did, read off its outcome. -/
def Service.ofOutcome (before : Machine) : Outcome Unit → Service
  | (result, after) =>
      { result := result.mapError .runtime
        added := after.sink.written.toList.drop before.sink.written.size
        consumed := before.input.take (before.input.length - after.input.length) }

theorem Service.ofOutcome_added {m : Machine} {outcome : Outcome Unit}
    (h : m.Follows outcome.2) :
    outcome.2.sink.written.toList = m.sink.written.toList ++ (ofOutcome m outcome).added := by
  have hwritten := List.prefix_iff_eq_append.mp h.written_prefix
  rw [Array.length_toList] at hwritten
  exact hwritten.symm

theorem Service.ofOutcome_consumed {m : Machine} {outcome : Outcome Unit}
    (h : m.Follows outcome.2) :
    m.input = (ofOutcome m outcome).consumed ++ outcome.2.input :=
  (List.suffix_iff_eq_append.mp h.input_suffix).symm

/-- Programs are run in turn, the first one on the machine `m` and every other one on the
machine that was left by the one before it. At the end this is `final`. -/
inductive Session (runs : Program → Machine → Outcome Unit → Prop) :
    Machine → List Program → List Service → Machine → Prop
  | done (m : Machine) : Session runs m [] [] m
  | next {p : Program} {rest : List Program} {m final : Machine} {outcome : Outcome Unit}
      {services : List Service} (hrun : runs p m outcome)
      (hrest : Session runs outcome.2 rest services final) :
      Session runs m (p :: rest) (.ofOutcome m outcome :: services) final

namespace Session

variable {runs runs' : Program → Machine → Outcome Unit → Prop} {m final : Machine}
  {programs : List Program} {services : List Service}

/-- A session goes on in another way of running programs, if every run does that starts
on a machine like the first one. -/
theorem imp (Alike : Machine → Prop) (hm : Alike m)
    (hruns : ∀ p ∈ programs, ∀ before outcome, Alike before → runs p before outcome →
      runs' p before outcome ∧ Alike outcome.2)
    (h : Session runs m programs services final) : Session runs' m programs services final := by
  induction h with
  | done => exact .done _
  | next hrun _ ih =>
      obtain ⟨hrun', hafter⟩ := hruns _ List.mem_cons_self _ _ hm hrun
      exact .next hrun' (ih hafter fun p hp => hruns p (List.mem_cons_of_mem _ hp))

/-- The services of a session make up all that came to the output, and all that was taken
from the input. -/
theorem streams_eq
    (hruns : ∀ p before outcome, runs p before outcome → before.Follows outcome.2)
    (h : Session runs m programs services final) :
    final.sink.written.toList = m.sink.written.toList ++ services.flatMap Service.added ∧
      m.input = services.flatMap Service.consumed ++ final.input := by
  induction h with
  | done => simp
  | next hrun _ ih =>
      have hfollows := hruns _ _ _ hrun
      rw [List.flatMap_cons, List.flatMap_cons, List.append_assoc, ← ih.2, ← List.append_assoc,
        ← Service.ofOutcome_added hfollows, ← Service.ofOutcome_consumed hfollows]
      exact ⟨ih.1, rfl⟩

end Session

namespace Program

/-- The program, executed on the machine `m`, ends with `outcome`. -/
def Executes (p : Program) (m : Machine) (outcome : Outcome Unit) : Prop :=
  ∃ fuel, p.execute fuel m = some outcome

/-- On a new machine of the length `length`, with the streams of `m`, the walk along the
program ends with `outcome`. -/
def EndsAnew (length : Nat) (p : Program) (m : Machine) (outcome : Outcome Unit) : Prop :=
  p.Ends (Machine.start length m.input m.sink) outcome

/-- A machine that is reset is a new one with the old streams. -/
theorem executes_iff_endsAnew {p : Program} (hsize : p.code.length < UInt64.size)
    (m : Machine) (outcome : Outcome Unit) :
    p.Executes m outcome ↔ p.EndsAnew m.tape.cells.size m outcome := by
  constructor
  · rintro ⟨fuel, hrun⟩
    exact ⟨fuel, (run_eq_runCode hsize fuel m.reset).trans hrun⟩
  · rintro ⟨fuel, hrun⟩
    exact ⟨fuel, (run_eq_runCode hsize fuel m.reset).symm.trans hrun⟩

theorem Executes.follows {p : Program} {m : Machine} {outcome : Outcome Unit}
    (h : p.Executes m outcome) : m.Follows outcome.2 := by
  have hreset : m.Follows m.reset :=
    ⟨Array.size_replicate, List.suffix_rfl, List.prefix_rfl⟩
  have hrun : Engine.code.Ends p m.reset outcome := h
  exact hreset.trans hrun.follows

end Program

/-- A machine that serves programs in turn does for each of them what a new machine of its
length would do that gets the streams as they are by then: the results, the bytes that are
added and the events that are consumed are the same, and so is the machine at the end. -/
theorem session_executes_iff {programs : List Program}
    (hsize : ∀ p ∈ programs, p.code.length < UInt64.size) (m : Machine)
    (services : List Service) (final : Machine) :
    (Session Program.Executes m programs services final ↔
      Session (Program.EndsAnew m.tape.cells.size) m programs services final) ∧
    (Session Program.Executes m programs services final →
      final.sink.written.toList = m.sink.written.toList ++ services.flatMap Service.added ∧
        m.input = services.flatMap Service.consumed ++ final.input) := by
  -- All runs keep the length of the tape, so a reset gives a new machine of that length.
  let Alike (before : Machine) : Prop := before.tape.cells.size = m.tape.cells.size
  have hiff (p : Program) (hp : p ∈ programs) (before : Machine) (outcome : Outcome Unit)
      (hbefore : Alike before) :
      p.Executes before outcome ↔ p.EndsAnew m.tape.cells.size before outcome :=
    hbefore ▸ Program.executes_iff_endsAnew (hsize p hp) before outcome
  have hkept (p : Program) (before : Machine) (outcome : Outcome Unit) (hbefore : Alike before)
      (h : p.Executes before outcome) : Alike outcome.2 :=
    h.follows.size_eq.trans hbefore
  refine ⟨⟨?_, ?_⟩, Session.streams_eq fun _ _ _ => Program.Executes.follows⟩
  · refine Session.imp Alike rfl fun p hp before outcome hbefore hrun => ?_
    exact ⟨(hiff p hp before outcome hbefore).mp hrun, hkept p before outcome hbefore hrun⟩
  · refine Session.imp Alike rfl fun p hp before outcome hbefore hrun => ?_
    have hexecutes := (hiff p hp before outcome hbefore).mpr hrun
    exact ⟨hexecutes, hkept p before outcome hbefore hexecutes⟩

/-- On a used machine the first program leaves the tape, the second one meets a fault of
the input, and the third one finds a blank tape and what is left of the input. -/
theorem session_executes_iff_after_faults :
    let programs : List Program :=
      [[.command (.add 3), .command .print, .command (.move (-1)), .command .print],
        [.command .read, .command .print, .command .read],
        [.loop 0 [.command .print], .command .read, .command .print]]
    let m : Machine :=
      { tape := ⟨#[7, 9], 1⟩, input := [.byte 65, .fault (.other "no input"), .byte 66] }
    let services : List Service :=
      [⟨.error (.runtime (.outOfBounds (-1) 2)), [3], []⟩,
        ⟨.error (.runtime (.io (.other "no input"))), [65],
          [.byte 65, .fault (.other "no input")]⟩,
        ⟨.ok (), [66], [.byte 66]⟩]
    (∀ p ∈ programs, p.code.length < UInt64.size) ∧
      ∃ final, Session Program.Executes m programs services final ∧
        final.sink.written.toList = [3, 65, 66] := by
  intro programs m services
  have hsize : ∀ p ∈ programs, p.code.length < UInt64.size := by
    simp [programs, Program.code_cons, Node.code_loop, loopCode, UInt64.size]
  let offTape : Machine := ⟨⟨#[3, 0], -1⟩, m.input, { written := #[3] }⟩
  let starved : Machine := ⟨⟨#[65, 0], 0⟩, [.byte 66], { written := #[3, 65] }⟩
  let final : Machine := ⟨⟨#[66, 0], 0⟩, [], { written := #[3, 65, 66], flushes := 1 }⟩
  have hfirst : Program.EndsAnew 2 programs[0] m (.error (.outOfBounds (-1) 2), offTape) :=
    ⟨5, by decide +kernel⟩
  have hsecond : Program.EndsAnew 2 programs[1] offTape
      (.error (.io (.other "no input")), starved) := ⟨4, by decide +kernel⟩
  have hthird : Program.EndsAnew 2 programs[2] starved (.ok (), final) :=
    ⟨4, by decide +kernel⟩
  have hanew : Session (Program.EndsAnew 2) m programs services final :=
    .next hfirst (.next hsecond (.next hthird (.done _)))
  obtain ⟨hiff, hstreams⟩ := session_executes_iff hsize m services final
  have hexecutes := hiff.mpr hanew
  exact ⟨hsize, final, hexecutes, (hstreams hexecutes).1⟩

end TapeCompiler
