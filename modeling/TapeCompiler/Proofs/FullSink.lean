import TapeCompiler.Proofs.StreamUse

/-!
# Runs against a sink that gets full

A sink with room for only so many bytes answers like one that takes everything until it
is full. So both runs are in the same place until a byte is written that has no room, and
there the run against the full sink stops (`Demand.run_withCapacity`). What it has
written by then is the start of what the other one writes (`Engine.ends_withCapacity`).
-/

namespace TapeCompiler

namespace Machine

/-- The machine with room for only `capacity` bytes in its sink. -/
def withCapacity (m : Machine) (capacity : Nat) (refusal : Refusal) : Machine :=
  { m with sink := { m.sink with capacity := some capacity, refusal } }

section Capacity

variable {m : Machine} {capacity : Nat} {refusal : Refusal}

theorem isZero_withCapacity (m : Machine) (capacity : Nat) (refusal : Refusal) :
    (m.withCapacity capacity refusal).isZero = m.isZero := by
  simp only [isZero, withCapacity]
  cases m.tape.index <;> rfl

theorem flush_withCapacity (m : Machine) (capacity : Nat) (refusal : Refusal) :
    (m.withCapacity capacity refusal).flush =
      (m.flush.1, m.flush.2.withCapacity capacity refusal) := by
  simp only [flush, Sink.flush, withCapacity]
  cases m.sink.flushFault <;> rfl

theorem change_withCapacity (f : UInt8 → UInt8) :
    (m.withCapacity capacity refusal).change f =
      ((m.change f).1, (m.change f).2.withCapacity capacity refusal) := by
  simp only [change, withCapacity]
  cases m.tape.index <;> rfl

theorem read_withCapacity :
    (m.withCapacity capacity refusal).read =
      (m.read.1, m.read.2.withCapacity capacity refusal) := by
  simp only [read, withCapacity]
  cases m.tape.index with
  | error fault => rfl
  | ok i => rcases readByte m.input with ⟨fault | _ | value, rest⟩ <;> rfl

/-- An action runs into the full sink: it would write a byte for which there is no
room. -/
structure Overflows (m : Machine) (capacity : Nat) (refusal : Refusal) (action : Action) :
    Prop where
  full : m.sink.written.size = capacity
  overfull : capacity < (m.act action).2.sink.written.size
  refused : (m.withCapacity capacity refusal).act action =
    (.error (.io refusal.fault), m.withCapacity capacity refusal)

theorem write_withCapacity (hcapacity : m.sink.capacity = none)
    (hroom : m.sink.written.size ≤ capacity) :
    (m.withCapacity capacity refusal).write =
        (m.write.1, m.write.2.withCapacity capacity refusal) ∧
      m.write.2.sink.written.size ≤ capacity ∨
    m.Overflows capacity refusal .write := by
  cases h : m.tape.index with
  | error fault =>
      have h' : (m.withCapacity capacity refusal).tape.index = .error fault := h
      rw [write_of_index_error h, write_of_index_error h']
      exact .inl ⟨rfl, hroom⟩
  | ok i =>
      have h' : (m.withCapacity capacity refusal).tape.index = .ok i := h
      have hwrite := write_of_room h (by simp [Sink.isFull, hcapacity])
      rcases Nat.lt_or_eq_of_le hroom with hlt | heq
      · have hopen : (m.withCapacity capacity refusal).sink.isFull = false :=
          decide_eq_false (Nat.not_le.mpr hlt)
        rw [hwrite, write_of_room h' hopen]
        exact .inl ⟨rfl, by simpa using Nat.succ_le_of_lt hlt⟩
      · have hfull : (m.withCapacity capacity refusal).sink.isFull = true := by
          simp [Sink.isFull, withCapacity, heq]
        exact .inr ⟨heq, by simp [act, hwrite, heq], write_of_full h' hfull⟩

/-- An action does on a sink with little room what it does on one with any, unless it
writes a byte for which there is no room. -/
theorem act_withCapacity (refusal : Refusal) (hcapacity : m.sink.capacity = none)
    (hroom : m.sink.written.size ≤ capacity) (action : Action) :
    (m.withCapacity capacity refusal).act action =
        ((m.act action).1, (m.act action).2.withCapacity capacity refusal) ∧
      (m.act action).2.sink.written.size ≤ capacity ∨
    m.Overflows capacity refusal action := by
  have hkept {after : Machine} (hsink : after.sink = m.sink) :
      after.sink.written.size ≤ capacity := by rwa [hsink]
  cases action with
  | shift amount => exact .inl ⟨rfl, hroom⟩
  | add value => exact .inl ⟨change_withCapacity _, hkept (sink_of_change _)⟩
  | clear => exact .inl ⟨change_withCapacity _, hkept (sink_of_change _)⟩
  | read => exact .inl ⟨read_withCapacity, hkept sink_of_read⟩
  | write => exact write_withCapacity hcapacity hroom

end Capacity

end Machine

namespace Demand

variable {κ : Type} {demand : κ → Demand κ} {fuel : Nat} {k : κ} {m : Machine}
  {capacity : Nat}

/-- The machine at which a run has stopped on its way to `final`, because the sink was
full. -/
structure CutShort (m final : Machine) (capacity : Nat) (stopped : Machine) : Prop where
  full : stopped.sink.written.size = capacity
  written_prefix : stopped.sink.written.toList <+: final.sink.written.toList
  flushes_eq : stopped.sink.flushes = m.sink.flushes

/-- If all that a run writes has room, it does not notice how much room there is.
Otherwise it stops when the sink is full. -/
theorem run_withCapacity (refusal : Refusal) (hcapacity : m.sink.capacity = none)
    (hroom : m.sink.written.size ≤ capacity) {result : Except RuntimeFault Unit}
    {final : Machine} (h : Transition.run (step demand) fuel (k, m) = some (result, final)) :
    (final.sink.written.size ≤ capacity ∧
      Transition.run (step demand) fuel (k, m.withCapacity capacity refusal) =
        some (result, final.withCapacity capacity refusal)) ∨
    (capacity < final.sink.written.size ∧ ∃ stopped, CutShort m final capacity stopped ∧
      Transition.run (step demand) fuel (k, m.withCapacity capacity refusal) =
        some (.error (.io refusal.fault), stopped.withCapacity capacity refusal)) := by
  induction fuel generalizing k m with
  | zero => simp at h
  | succ fuel ih =>
      have hfollows := follows_of_run h
      rw [Transition.run_succ, step] at h ⊢
      generalize demand k = asked at h ⊢
      cases asked with
      | finish =>
          obtain ⟨rfl, rfl⟩ := Prod.mk.inj (Option.some.inj h)
          rw [answer, Machine.flush_withCapacity]
          exact .inl ⟨m.written_flush ▸ hroom, rfl⟩
      | test next =>
          rw [answer] at h ⊢
          rw [Machine.isZero_withCapacity]
          rcases hzero : m.isZero with fault | zero <;> rw [hzero] at h
          · obtain ⟨rfl, rfl⟩ := Prod.mk.inj (Option.some.inj h)
            exact .inl ⟨hroom, rfl⟩
          · exact ih hcapacity hroom h
      | act action next =>
          obtain ⟨hcapacity', hflushes⟩ := m.flags_of_act action
          rw [answer] at h ⊢
          rcases Machine.act_withCapacity refusal hcapacity hroom action with
            ⟨hsame, hroom'⟩ | hover
          · -- Both runs make the same step.
            rw [hsame]
            rcases hact : m.act action with ⟨fault | ⟨⟩, m'⟩ <;>
              rw [hact] at h hroom' hcapacity' hflushes
            · obtain ⟨rfl, rfl⟩ := Prod.mk.inj (Option.some.inj h)
              exact .inl ⟨hroom', rfl⟩
            · rcases ih (hcapacity'.trans hcapacity) hroom' h with
                hroomy | ⟨hlt, stopped, hcut, hrun⟩
              · exact .inl hroomy
              · exact .inr ⟨hlt, stopped, ⟨hcut.full, hcut.written_prefix,
                  hcut.flushes_eq.trans hflushes⟩, hrun⟩
          · -- The run against the full sink stops here, before the byte that is too much.
            have hlt : capacity < final.sink.written.size := by
              have hover' := hover.overfull
              rcases hact : m.act action with ⟨fault | ⟨⟩, m'⟩ <;> rw [hact] at h hover'
              · obtain ⟨rfl, rfl⟩ := Prod.mk.inj (Option.some.inj h)
                exact hover'
              · exact Nat.lt_of_lt_of_le hover' (follows_of_run h).written_size_le
            rw [hover.refused]
            exact .inr ⟨hlt, m, ⟨hover.full, hfollows.written_prefix, rfl⟩, rfl⟩

end Demand

namespace Engine

/-- A run with an output is compared with the same run against a sink that stops taking
bytes at some number of them. If the output has room there, nothing is different. If it
has not, the run ends with the fault of the sink, which holds the start of the output then
and was not flushed. -/
theorem ends_withCapacity (engine : Engine) (p : Program) (length : Nat)
    (input : List ReadEvent) (flushFault : Option IoFault) (capacity : Nat)
    (refusal : Refusal) {result : Except RuntimeFault Unit} {final : Machine}
    (h : engine.Ends p (Machine.start length input { flushFault }) (result, final)) :
    let limited := Machine.start length input { capacity := some capacity, refusal, flushFault }
    (final.sink.written.size ≤ capacity → engine.Ends p limited
      (result, { final with sink := { final.sink with capacity := some capacity, refusal } })) ∧
    (capacity < final.sink.written.size → ∃ stopped : Machine,
      engine.Ends p limited (.error (.io refusal.fault), stopped) ∧
        stopped.sink.written.toList = final.sink.written.toList.take capacity ∧
        stopped.sink.flushes = 0) := by
  intro limited
  obtain ⟨fuel, hrun⟩ := h
  obtain ⟨κ, demand, start, hengine⟩ := engine.run_engine p
  rw [hengine] at hrun
  have hlimited := Demand.run_withCapacity refusal rfl (Nat.zero_le capacity) hrun
  constructor
  · intro hle
    rcases hlimited with ⟨-, hsame⟩ | ⟨hlt, -⟩
    · exact ⟨fuel, (hengine fuel limited).trans hsame⟩
    · exact absurd hle (Nat.not_le.mpr hlt)
  · intro hlt
    rcases hlimited with ⟨hle, -⟩ | ⟨-, stopped, hcut, hstopped⟩
    · exact absurd hle (Nat.not_le.mpr hlt)
    · refine ⟨_, ⟨fuel, (hengine fuel limited).trans hstopped⟩, ?_, hcut.flushes_eq⟩
      have htake := List.prefix_iff_eq_take.mp hcut.written_prefix
      rwa [Array.length_toList, hcut.full] at htake

/-- Three bytes come out of a loop. There is room for them, or for two of them. -/
theorem ends_withCapacity_countdown :
    let p : Program :=
      [.command (.add 3), .loop 0 [.command .print, .command (.add (-1))]]
    let start (capacity : Option Nat) : Machine :=
      Machine.start 1 [] { capacity, flushFault := some (.other "no flush") }
    ∃ result final, Engine.code.Ends p (start none) (result, final) ∧
      final.sink.written = #[3, 2, 1] ∧
      (∃ same, Engine.code.Ends p (start (some 3)) (result, same)) ∧
      ∃ stopped : Machine,
        Engine.code.Ends p (start (some 2)) (.error (.io .nothingWritten), stopped) ∧
        stopped.sink.written.toList = [3, 2] := by
  intro p start
  have hcode : p.code = [.act (.add 3), .jumpForward 4, .act .write, .act (.add 255),
      .jumpBack 2] := by
    have hup : stepByte 3 = 3 := rfl
    have hdown : stepByte (-1) = 255 := rfl
    simp [p, Program.code_cons, Node.code_loop, loopCode, Command.action, hup, hdown]
  have hends : Engine.code.Ends p (start none) (.error (.io (.other "no flush")),
      ⟨⟨#[0], 0⟩, [], ⟨#[3, 2, 1], none, .takesNothing, some (.other "no flush"), 1⟩⟩) := by
    refine ⟨12, ?_⟩
    rw [Engine.run, hcode]
    decide +kernel
  obtain ⟨hsame, -⟩ := ends_withCapacity .code p 1 [] _ 3 .takesNothing hends
  obtain ⟨-, hcut⟩ := ends_withCapacity .code p 1 [] _ 2 .takesNothing hends
  obtain ⟨stopped, hstopped, hwritten, -⟩ := hcut (by decide)
  exact ⟨_, _, hends, rfl, ⟨_, hsame (by decide)⟩, stopped, hstopped, hwritten⟩

end Engine

end TapeCompiler
