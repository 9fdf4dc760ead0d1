import TapeCompiler.Proofs.Engines

/-!
# What runs leave behind

What a run writes is put behind what was written before, what it reads is taken off the
front of the input, and the tape keeps its length. `Machine.Follows` is this relation
between two machines. Every action is in it (`Machine.follows_act`), so every run is, of
either engine (`Engine.Ends.follows`).
-/

namespace TapeCompiler

theorem readByte_suffix (input : List ReadEvent) : (readByte input).2 <:+ input := by
  induction input with
  | nil => exact List.suffix_rfl
  | cons event rest ih =>
      cases event with
      | interrupted => exact ih.trans (List.suffix_cons _ rest)
      | _ => exact List.suffix_cons _ rest

namespace Machine

section Actions

variable {m : Machine}

theorem sink_of_change (f : UInt8 → UInt8) : (m.change f).2.sink = m.sink := by
  rw [change]
  split <;> rfl

theorem sink_of_read : m.read.2.sink = m.sink := by
  rw [read]
  split
  · rfl
  · split <;> rfl

theorem write_of_index_error {fault : RuntimeFault} (h : m.tape.index = .error fault) :
    m.write = (.error fault, m) := by
  rw [write, h]

theorem write_of_full {i : Fin m.tape.cells.size} (h : m.tape.index = .ok i)
    (hfull : m.sink.isFull = true) : m.write = (.error (.io m.sink.refusal.fault), m) := by
  simp [write, h, Sink.write, hfull]

theorem write_of_room {i : Fin m.tape.cells.size} (h : m.tape.index = .ok i)
    (hroom : m.sink.isFull = false) :
    m.write = (.ok (), { m with
      sink := { m.sink with
        written := m.sink.written.push (getElem m.tape.cells i i.isLt) } }) := by
  simp [write, h, Sink.write, hroom]

/-- A write leaves all as it is, or puts one byte into the sink. -/
theorem write_cases (m : Machine) :
    (∃ fault, m.write = (.error fault, m)) ∨
      ∃ value, m.write =
        (.ok (), { m with sink := { m.sink with written := m.sink.written.push value } }) := by
  cases h : m.tape.index with
  | error fault => exact .inl ⟨fault, write_of_index_error h⟩
  | ok i =>
      cases hfull : m.sink.isFull with
      | true => exact .inl ⟨_, write_of_full h hfull⟩
      | false => exact .inr ⟨_, write_of_room h hfull⟩

/-- No action makes room in the sink or flushes it. -/
theorem flags_of_act (m : Machine) (action : Action) :
    (m.act action).2.sink.capacity = m.sink.capacity ∧
      (m.act action).2.sink.flushes = m.sink.flushes := by
  cases action with
  | shift amount => exact ⟨rfl, rfl⟩
  | add value => exact ⟨congrArg _ (sink_of_change _), congrArg _ (sink_of_change _)⟩
  | clear => exact ⟨congrArg _ (sink_of_change _), congrArg _ (sink_of_change _)⟩
  | read => exact ⟨congrArg _ sink_of_read, congrArg _ sink_of_read⟩
  | write => rcases m.write_cases with ⟨_, h⟩ | ⟨_, h⟩ <;> rw [act, h] <;> exact ⟨rfl, rfl⟩

end Actions

/-- A machine can come after another one in a run. -/
structure Follows (m m' : Machine) : Prop where
  size_eq : m'.tape.cells.size = m.tape.cells.size
  input_suffix : m'.input <:+ m.input
  written_prefix : m.sink.written.toList <+: m'.sink.written.toList

namespace Follows

variable {m m' m'' : Machine}

theorem refl (m : Machine) : Follows m m :=
  ⟨rfl, List.suffix_rfl, List.prefix_rfl⟩

theorem trans (h : Follows m m') (h' : Follows m' m'') : Follows m m'' :=
  ⟨h'.size_eq.trans h.size_eq, h'.input_suffix.trans h.input_suffix,
    h.written_prefix.trans h'.written_prefix⟩

theorem written_size_le (h : Follows m m') : m.sink.written.size ≤ m'.sink.written.size := by
  simpa using h.written_prefix.length_le

end Follows

theorem follows_change (m : Machine) (f : UInt8 → UInt8) : Follows m (m.change f).2 := by
  rw [change]
  split
  · exact .refl m
  · exact ⟨by simp [Tape.change], List.suffix_rfl, List.prefix_rfl⟩

theorem follows_read (m : Machine) : Follows m m.read.2 := by
  have hsuffix := readByte_suffix m.input
  rw [read]
  split
  · exact .refl m
  · rcases hread : readByte m.input with ⟨fault | _ | value, rest⟩ <;> rw [hread] at hsuffix
    · exact ⟨rfl, hsuffix, List.prefix_rfl⟩
    · exact ⟨rfl, hsuffix, List.prefix_rfl⟩
    · exact ⟨by simp [Tape.change], hsuffix, List.prefix_rfl⟩

theorem follows_act (m : Machine) (action : Action) : Follows m (m.act action).2 := by
  cases action with
  | shift amount => exact ⟨rfl, List.suffix_rfl, List.prefix_rfl⟩
  | add value => exact m.follows_change _
  | clear => exact m.follows_change _
  | read => exact m.follows_read
  | write =>
      rcases m.write_cases with ⟨fault, h⟩ | ⟨value, h⟩ <;> rw [act, h]
      · exact .refl m
      · exact ⟨rfl, List.suffix_rfl, by simp⟩

theorem written_flush (m : Machine) : m.flush.2.sink.written = m.sink.written := by
  rw [flush, Sink.flush]
  cases m.sink.flushFault <;> rfl

theorem follows_flush (m : Machine) : Follows m m.flush.2 := by
  rw [flush, Sink.flush]
  cases m.sink.flushFault <;> exact ⟨rfl, List.suffix_rfl, List.prefix_rfl⟩

end Machine

theorem Demand.follows_of_run {κ : Type} {demand : κ → Demand κ} {fuel : Nat} {k : κ}
    {m : Machine} {outcome : Outcome Unit}
    (h : Transition.run (step demand) fuel (k, m) = some outcome) : m.Follows outcome.2 :=
  related_of_run .refl .trans Machine.follows_act Machine.follows_flush h

theorem Engine.Ends.follows {engine : Engine} {p : Program} {m : Machine}
    {outcome : Outcome Unit} (h : engine.Ends p m outcome) : m.Follows outcome.2 := by
  obtain ⟨fuel, hrun⟩ := h
  obtain ⟨κ, demand, start, hengine⟩ := engine.run_engine p
  rw [hengine] at hrun
  exact Demand.follows_of_run hrun

end TapeCompiler
