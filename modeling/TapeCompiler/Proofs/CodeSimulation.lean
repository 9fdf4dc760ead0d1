import TapeCompiler.Proofs.Ending
import TapeCompiler.Proofs.Flattening
import TapeCompiler.Code.Evaluation

/-!
# Flat code runs as its program

The two engines take the same number of steps: where a loop stands, the jump in front of
its body and the jump behind it both test the cell, as the walk along the tree does
before every turn of the loop. `run_eq_runCode` says so for every amount of fuel, ends
and faults included. Places are words that wrap. All code that fits into a memory with
such addresses has fewer than `UInt64.size` instructions, and then no jump wraps.
-/

namespace TapeCompiler

def CodeEnds (code : List Instruction) (m : Machine) (outcome : Outcome Unit) : Prop :=
  ∃ fuel, runCode fuel code m = some outcome

namespace Program

theorem toNat_add_ofNat {place : UInt64} {n : Nat} (h : place.toNat + n < UInt64.size) :
    (place + .ofNat n).toNat = place.toNat + n := by
  simp only [UInt64.size] at h
  rw [UInt64.toNat_add, UInt64.toNat_ofNat']
  omega

theorem toNat_add_one {place : UInt64} (h : place.toNat + 1 < UInt64.size) :
    (place + 1).toNat = place.toNat + 1 :=
  toNat_add_ofNat h

theorem toNat_sub_ofNat {place : UInt64} {n : Nat} (h : n ≤ place.toNat) :
    (place - .ofNat n).toNat = place.toNat - n := by
  have hlt := place.toNat_lt
  have hn : (UInt64.ofNat n).toNat = n := by
    rw [UInt64.toNat_ofNat']
    omega
  rw [UInt64.toNat_sub_of_le _ _ (UInt64.le_iff_toNat_le.mpr (by rw [hn]; exact h)), hn]

theorem code_loop_eq (id : Nat) (body : Program) :
    Node.code (.loop id body) =
      .jumpForward (.ofNat ((body.flatMap Node.code).length + 2)) ::
        body.flatMap Node.code ++ [.jumpBack (.ofNat (body.flatMap Node.code).length)] := by
  rw [Node.code_loop]
  rfl

theorem length_code_loop (id : Nat) (body : Program) :
    (Node.code (.loop id body)).length = (body.flatMap Node.code).length + 2 := by
  simp [code_loop_eq]

/-- The walk along the tree and the run of the code stand at the same point. -/
structure Corresponds (code : List Instruction) (walk : Walk) (run : CodeRun) : Prop where
  leads : Leads Node.code code code.length run.place.toNat walk.todo
  machine : walk.machine = run.machine

theorem Corresponds.step {code : List Instruction} (hsize : code.length < UInt64.size)
    {walk : Walk} {run : CodeRun} (h : Corresponds code walk run) :
    Transition.Agree (Corresponds code) Eq walk.step (run.step code.toArray) := by
  obtain ⟨todo, m⟩ := walk
  obtain ⟨place, m'⟩ := run
  obtain ⟨hleads, rfl⟩ := h
  generalize hplace : place.toNat = k at hleads
  cases hleads with
  | stop =>
      have hfetch : code.toArray[place.toNat]? = none := by simp [hplace]
      rw [CodeRun.step, hfetch]
      exact .stop rfl
  | @node _ n rest hat hrest =>
      have hle := hrest.le_last length_code_loop
      cases n with
      | command c =>
          rw [Node.code_command, List.length_singleton] at hrest hle
          rw [Node.code_command] at hat
          have hfetch : code.toArray[place.toNat]? = some (.act c.action) := by
            simpa [hplace] using getElem?_of_isPrefix_drop hat
          have hnext : (place + 1).toNat = k + 1 := by
            rw [← hplace]
            exact toNat_add_one (by omega)
          rw [Walk.step, CodeRun.step, hfetch]
          rcases hact : m.act c.action with ⟨fault | ⟨⟩, m'⟩ <;> simp only [hact]
          · exact .stop rfl
          · exact .next ⟨hnext ▸ hrest, rfl⟩
      | loop id body =>
          have hbody := Leads.body (code_loop_eq id body) hat hrest
          rw [length_code_loop] at hrest hle
          have hfetch : code.toArray[place.toNat]? =
              some (.jumpForward (.ofNat ((body.flatMap Node.code).length + 2))) := by
            rw [code_loop_eq] at hat
            simpa [hplace] using getElem?_of_isPrefix_drop hat
          have hnext : (place + 1).toNat = k + 1 := by
            rw [← hplace]
            exact toNat_add_one (by omega)
          have hskip : (place + .ofNat ((body.flatMap Node.code).length + 2)).toNat =
              k + ((body.flatMap Node.code).length + 2) := by
            rw [← hplace]
            exact toNat_add_ofNat (by omega)
          rw [Walk.step, CodeRun.step, hfetch]
          rcases hzero : m.isZero with fault | _ | _ <;> simp only
          · exact .stop rfl
          · exact .next ⟨hnext ▸ hbody, rfl⟩
          · exact .next ⟨hskip ▸ hrest, rfl⟩
  | @again start id body rest hat hrest =>
      have hle := hrest.le_last length_code_loop
      have hbody := Leads.body (code_loop_eq id body) hat hrest
      rw [length_code_loop] at hrest hle
      have hfetch : code.toArray[place.toNat]? =
          some (.jumpBack (.ofNat (body.flatMap Node.code).length)) := by
        rw [code_loop_eq] at hat
        have hlast := getElem?_of_isPrefix_drop (isPrefix_drop_of_append hat)
        rwa [List.length_cons, ← Nat.add_assoc, ← hplace, ← List.getElem?_toArray] at hlast
      have hnext : (place + 1).toNat = start + ((body.flatMap Node.code).length + 2) := by
        rw [toNat_add_one (by omega)]
        omega
      have hback : (place - .ofNat (body.flatMap Node.code).length).toNat = start + 1 := by
        rw [toNat_sub_ofNat (by omega)]
        omega
      rw [Walk.step, CodeRun.step, hfetch]
      rcases hzero : m.isZero with fault | _ | _ <;> simp only
      · exact .stop rfl
      · exact .next ⟨hback ▸ hbody, rfl⟩
      · exact .next ⟨hnext ▸ hrest, rfl⟩

/-- The walk along a program and the run of its code give the same answer for the same
fuel, and no answer for the same fuel. -/
theorem run_eq_runCode {p : Program} (hsize : p.code.length < UInt64.size) (fuel : Nat)
    (m : Machine) : p.run fuel m = runCode fuel p.code m := by
  have hstart : Corresponds p.code ⟨p, m⟩ ⟨0, m⟩ :=
    ⟨leads_of_isPrefix List.prefix_rfl, rfl⟩
  exact Transition.run_eq_of_lockstep (fun _ _ => Corresponds.step hsize) hstart fuel

/-- A program and its flat code end alike on every machine: the one ends exactly if the
other does, with the same result, tape, input left and sink. -/
theorem ends_iff_codeEnds (p : Program) (hsize : p.code.length < UInt64.size) (m : Machine)
    (outcome : Outcome Unit) : p.Ends m outcome ↔ CodeEnds p.code m outcome := by
  constructor
  · rintro ⟨fuel, hrun⟩
    exact ⟨fuel, (run_eq_runCode hsize fuel m).symm.trans hrun⟩
  · rintro ⟨fuel, hrun⟩
    exact ⟨fuel, (run_eq_runCode hsize fuel m).trans hrun⟩

/-- Two loops of one number, an empty body, and a pointer that leaves the tape. -/
theorem ends_iff_codeEnds_left_of_tape :
    let p : Program :=
      [.loop 0 [.command (.move (-1)), .loop 0 []], .command .print, .command (.move (-1)),
        .command .clear]
    let m : Machine := { tape := ⟨#[0, 1], 1⟩ }
    let outcome : Outcome Unit :=
      (.error (.outOfBounds (-1) 2), ⟨⟨#[0, 1], -1⟩, [], { written := #[0] }⟩)
    p.code.length < UInt64.size ∧ p.Ends m outcome ∧ CodeEnds p.code m outcome := by
  intro p m outcome
  have hsize : p.code.length < UInt64.size := by
    simp [p, Program.code, Node.code_loop, loopCode, UInt64.size]
  have hends : p.Ends m outcome := ⟨8, by decide +kernel⟩
  exact ⟨hsize, hends, (ends_iff_codeEnds p hsize m outcome).mp hends⟩

end Program

end TapeCompiler
