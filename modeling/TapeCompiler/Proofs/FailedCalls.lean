import TapeCompiler.Proofs.Actions
import TapeCompiler.Proofs.StreamUse

/-!
# Calls that fail

Every action asks for the place of its cell before it does anything, and a sink keeps what
it holds when it refuses a byte. So an action that fails leaves the machine as it was,
except that a read which meets a fault has used up the events up to it
(`Machine.act_cases`). Of a flush that fails only the attempt is remembered. A call that
fails in any other way than a read on its input might as well not have been made:
`Machine.callAll_without_refused`.
-/

namespace TapeCompiler

/-- A call that was answered, and the answer. -/
structure Answered where
  call : Call
  result : Except RuntimeFault (Option Bool)
deriving DecidableEq, Repr, Inhabited

/-- There was no cell for the call, or the sink refused a write or a flush. -/
def Answered.isRefused : Answered → Bool
  | ⟨_, .error (.outOfBounds _ _)⟩ => true
  | ⟨.act .write, .error (.io _)⟩ => true
  | ⟨.flush, .error (.io _)⟩ => true
  | _ => false

namespace Machine

/-- Answers calls one behind the other. -/
def callAll (m : Machine) : List Call → List Answered × Machine
  | [] => ([], m)
  | call :: calls =>
      let answer := m.call call
      let rest := answer.2.callAll calls
      (⟨call, answer.1⟩ :: rest.1, rest.2)

theorem callAll_cons (m : Machine) (call : Call) (calls : List Call) :
    m.callAll (call :: calls) =
      (⟨call, (m.call call).1⟩ :: ((m.call call).2.callAll calls).1,
        ((m.call call).2.callAll calls).2) := rfl

/-- The machine with another count of flushes. -/
def withFlushes (m : Machine) (flushes : Nat) : Machine :=
  { m with sink := { m.sink with flushes } }

@[simp] theorem withFlushes_withFlushes (m : Machine) (flushes flushes' : Nat) :
    (m.withFlushes flushes).withFlushes flushes' = m.withFlushes flushes' := rfl

section Faults

variable {m : Machine}

theorem change_cases (m : Machine) (f : UInt8 → UInt8) :
    (∃ m', m.change f = (.ok (), m')) ∨ ∃ fault, m.change f = (.error fault, m) := by
  by_cases hp : m.tape.InBounds
  · exact .inl ⟨_, change_of_inBounds hp f⟩
  · exact .inr ⟨_, change_of_not_inBounds hp f⟩

theorem read_cases (m : Machine) :
    (∃ m', m.read = (.ok (), m')) ∨ (∃ pointer length,
      m.read = (.error (.outOfBounds pointer length), m)) ∨
    ∃ fault rest, m.read = (.error (.io fault), { m with input := rest }) := by
  by_cases hp : m.tape.InBounds
  · rw [read, Tape.index_of_inBounds hp]
    rcases readByte m.input with ⟨fault | _ | value, rest⟩
    · exact .inr (.inr ⟨fault, rest, rfl⟩)
    · exact .inl ⟨_, rfl⟩
    · exact .inl ⟨_, rfl⟩
  · rw [read, Tape.index_of_not_inBounds hp]
    exact .inr (.inl ⟨_, _, rfl⟩)

/-- An action that fails leaves all as it was, unless it is a read that met a fault. -/
theorem act_cases (m : Machine) (action : Action) :
    (∃ m', m.act action = (.ok (), m')) ∨ (∃ fault, m.act action = (.error fault, m)) ∨
    (action = .read ∧
      ∃ fault rest, m.act action = (.error (.io fault), { m with input := rest })) := by
  cases action with
  | shift amount => exact .inl ⟨_, rfl⟩
  | add value => exact (m.change_cases _).imp_right .inl
  | clear => exact (m.change_cases _).imp_right .inl
  | read =>
      rcases m.read_cases with hok | ⟨_, _, hfault⟩ | hio
      · exact .inl hok
      · exact .inr (.inl ⟨_, hfault⟩)
      · exact .inr (.inr ⟨rfl, hio⟩)
  | write =>
      rcases m.write_cases with ⟨fault, hfault⟩ | ⟨value, hok⟩
      · exact .inr (.inl ⟨fault, hfault⟩)
      · exact .inl ⟨_, hok⟩

theorem flush_eq (m : Machine) :
    ∃ result, m.flush = (result, m.withFlushes (m.sink.flushes + 1)) := by
  obtain ⟨tape, input, ⟨written, capacity, refusal, _ | fault, flushes⟩⟩ := m
  · exact ⟨.ok (), rfl⟩
  · exact ⟨.error (.io fault), rfl⟩

/-- A call that is refused is at most remembered as an attempt to flush. -/
theorem call_of_isRefused {call : Call}
    (h : Answered.isRefused ⟨call, (m.call call).1⟩ = true) :
    ∃ flushes, (m.call call).2 = m.withFlushes flushes := by
  cases call with
  | act action =>
      rcases m.act_cases action with ⟨m', hact⟩ | ⟨fault, hact⟩ | ⟨rfl, fault, rest, hact⟩ <;>
        rw [Machine.call, hact] at h ⊢
      · cases h
      · exact ⟨m.sink.flushes, rfl⟩
      · cases h
  | flush =>
      obtain ⟨result, hflush⟩ := m.flush_eq
      rw [Machine.call, hflush]
      exact ⟨_, rfl⟩
  | reset => cases h
  | isZero => exact ⟨m.sink.flushes, rfl⟩

end Faults

section Flushes

variable (m : Machine) (flushes : Nat)

theorem isZero_withFlushes : (m.withFlushes flushes).isZero = m.isZero := by
  simp only [isZero, withFlushes]
  cases m.tape.index <;> rfl

theorem change_withFlushes (f : UInt8 → UInt8) :
    (m.withFlushes flushes).change f =
      ((m.change f).1, (m.change f).2.withFlushes flushes) := by
  simp only [change, withFlushes]
  cases m.tape.index <;> rfl

theorem read_withFlushes :
    (m.withFlushes flushes).read = (m.read.1, m.read.2.withFlushes flushes) := by
  simp only [read, withFlushes]
  cases m.tape.index with
  | error fault => rfl
  | ok i => rcases readByte m.input with ⟨fault | _ | value, rest⟩ <;> rfl

theorem write_withFlushes :
    (m.withFlushes flushes).write = (m.write.1, m.write.2.withFlushes flushes) := by
  cases h : m.tape.index with
  | error fault =>
      have h' : (m.withFlushes flushes).tape.index = .error fault := h
      rw [write_of_index_error h, write_of_index_error h']
  | ok i =>
      have h' : (m.withFlushes flushes).tape.index = .ok i := h
      cases hfull : m.sink.isFull with
      | true =>
          have hfull' : (m.withFlushes flushes).sink.isFull = true := hfull
          rw [write_of_full h hfull, write_of_full h' hfull']
          rfl
      | false =>
          have hfull' : (m.withFlushes flushes).sink.isFull = false := hfull
          rw [write_of_room h hfull, write_of_room h' hfull']
          rfl

theorem act_withFlushes (action : Action) :
    (m.withFlushes flushes).act action =
      ((m.act action).1, (m.act action).2.withFlushes flushes) := by
  cases action with
  | shift amount => rfl
  | add value => exact m.change_withFlushes flushes _
  | clear => exact m.change_withFlushes flushes _
  | read => exact m.read_withFlushes flushes
  | write => exact m.write_withFlushes flushes

/-- No call asks how often the sink was flushed. -/
theorem call_withFlushes (call : Call) :
    ∃ flushes', (m.withFlushes flushes).call call =
      ((m.call call).1, (m.call call).2.withFlushes flushes') := by
  cases call with
  | act action =>
      refine ⟨flushes, ?_⟩
      rw [Machine.call, Machine.call, act_withFlushes]
  | flush =>
      refine ⟨flushes + 1, ?_⟩
      simp only [Machine.call, Machine.flush, Sink.flush, withFlushes]
      cases m.sink.flushFault <;> rfl
  | reset => exact ⟨flushes, rfl⟩
  | isZero =>
      refine ⟨flushes, ?_⟩
      rw [Machine.call, Machine.call, isZero_withFlushes]

end Flushes

/-- Calls that are refused can be left out, also on a machine that was flushed more or less
often before. -/
theorem exists_callAll_withFlushes (m : Machine) (flushes : Nat) (calls : List Call) :
    let kept := (m.callAll calls).1.filter (!·.isRefused)
    ∃ flushes', (m.withFlushes flushes).callAll (kept.map Answered.call) =
      (kept, (m.callAll calls).2.withFlushes flushes') := by
  induction calls generalizing m flushes with
  | nil => exact ⟨flushes, rfl⟩
  | cons call calls ih =>
      rw [callAll_cons, List.filter_cons]
      cases hrefused : Answered.isRefused ⟨call, (m.call call).1⟩ with
      | true =>
          obtain ⟨flushes', hafter⟩ := call_of_isRefused hrefused
          have hrest := ih (m.withFlushes flushes') flushes
          rw [withFlushes_withFlushes] at hrest
          simpa [hafter] using hrest
      | false =>
          obtain ⟨flushes', hcall⟩ := m.call_withFlushes flushes call
          obtain ⟨flushes'', hrest⟩ := ih (m.call call).2 flushes'
          refine ⟨flushes'', ?_⟩
          simp [callAll_cons, hcall, hrest]

/-- Without the calls that are refused, all others are answered alike, and the machine at the
end is the same, up to the number of attempts to flush. A read that meets a fault of the input
changes neither the tape nor the sink. -/
theorem callAll_without_refused (m : Machine) (calls : List Call) :
    (let kept := (m.callAll calls).1.filter (!·.isRefused)
      ∃ flushes, m.callAll (kept.map Answered.call) =
        (kept, (m.callAll calls).2.withFlushes flushes)) ∧
    ∀ (before after : Machine) (fault : IoFault),
      before.call (.act .read) = (.error (.io fault), after) →
      after.tape = before.tape ∧ after.sink = before.sink := by
  refine ⟨m.exists_callAll_withFlushes m.sink.flushes calls, fun before after fault h => ?_⟩
  rw [Machine.call] at h
  rcases before.act_cases .read with ⟨m', hact⟩ | ⟨fault', hact⟩ | ⟨-, fault', rest, hact⟩ <;>
    rw [hact] at h
  · cases h
  · cases h
    exact ⟨rfl, rfl⟩
  · cases h
    exact ⟨rfl, rfl⟩

/-- The pointer leaves the tape and comes back, the sink has room for one byte and cannot be
flushed, and the input fails behind its first byte. -/
theorem callAll_without_refused_strained :
    let m : Machine := Machine.start 1 [.byte 65, .fault (.other "no input"), .byte 66]
      { capacity := some 1, flushFault := some (.other "no flush") }
    let calls : List Call :=
      [.act (.shift (-1)), .act .write, .act .read, .isZero, .act (.shift 1), .act .read,
        .act .write, .act .write, .flush, .act .read, .isZero, .reset, .isZero]
    let kept : List Answered :=
      [⟨.act (.shift (-1)), .ok none⟩, ⟨.act (.shift 1), .ok none⟩, ⟨.act .read, .ok none⟩,
        ⟨.act .write, .ok none⟩, ⟨.act .read, .error (.io (.other "no input"))⟩,
        ⟨.isZero, .ok (some false)⟩, ⟨.reset, .ok none⟩, ⟨.isZero, .ok (some true)⟩]
    (m.callAll calls).1.filter (!·.isRefused) = kept ∧
      (∃ flushes, m.callAll (kept.map Answered.call) =
        (kept, (m.callAll calls).2.withFlushes flushes)) ∧
      let before : Machine := ⟨⟨#[7], 0⟩, [.fault (.other "no input")], {}⟩
      ∃ after, before.call (.act .read) = (.error (.io (.other "no input")), after) ∧
        after.tape = before.tape ∧ after.sink = before.sink := by
  intro m calls kept
  have hkept : (m.callAll calls).1.filter (!·.isRefused) = kept := by decide +kernel
  obtain ⟨hcalls, hread⟩ := callAll_without_refused m calls
  rw [hkept] at hcalls
  have hfails : Machine.call ⟨⟨#[7], 0⟩, [.fault (.other "no input")], {}⟩ (.act .read) =
      (.error (.io (.other "no input")), ⟨⟨#[7], 0⟩, [], {}⟩) := by decide +kernel
  exact ⟨hkept, hcalls, _, hfails, hread _ _ _ hfails⟩

end Machine

end TapeCompiler
