import TapeCompiler.Proofs.LoopIds

/-!
# What passes do to one loop

Where the loops of a program have ids of their own, a loop that passes leave can be told by
its id. It is still inside the same loops, and its body is what as many rounds of folding
make of the body on its own: `optimize_keeps_loops`.
-/

namespace TapeCompiler

namespace Program

variable {p : Program} {enclosing : List Nat} {l l' : NestedLoop}

/-- The loops around a loop are loops of the program, or are around the program. -/
theorem mem_of_mem_enclosing (h : l ∈ p.nestedLoops enclosing) {i : Nat}
    (hi : i ∈ l.enclosing) : i ∈ enclosing ∨ i ∈ p.loopIds := by
  induction p using Program.induction generalizing enclosing with
  | nil => cases h
  | command c rest ih =>
      rw [loopIds_cons, Node.loopIds_command]
      exact ih h
  | loop id body rest ihBody ih =>
      rw [loopIds_cons, Node.loopIds_loop, List.cons_append, List.mem_cons, List.mem_append]
      rcases List.mem_append.mp h with h | h
      · rcases List.mem_cons.mp h with rfl | h
        · exact .inl hi
        · rcases ihBody h with hmem | hmem
          · rcases List.mem_cons.mp hmem with rfl | hmem
            · exact .inr (.inl rfl)
            · exact .inl hmem
          · exact .inr (.inr (.inl hmem))
      · rcases ih h with hmem | hmem
        · exact .inl hmem
        · exact .inr (.inr (.inr hmem))

/-- Where the loops have ids of their own, the id tells the loop. -/
theorem eq_of_id_eq (hids : p.loopIds.Nodup) (h : l ∈ p.nestedLoops enclosing)
    (h' : l' ∈ p.nestedLoops enclosing) (heq : l.id = l'.id) : l = l' := by
  rw [loopIds_eq_map_nestedLoops p enclosing] at hids
  exact List.inj_on_of_nodup_map hids h h' heq

/-- Of a program whose loops have ids of their own, passes leave some loops, in their order.
A loop that is left stays inside the same loops, all of which are left. There is one loop of
the program with its id, and its body is that of this loop, folded as often as there are
passes, whatever is around it. -/
theorem optimize_keeps_loops (hids : p.loopIds.Nodup) (passes : Nat) :
    (p.optimize passes).loopIds.Sublist p.loopIds ∧
      ∀ left ∈ (p.optimize passes).nestedLoops [],
        (∀ i ∈ left.enclosing, i ∈ (p.optimize passes).loopIds) ∧
        ∃ before ∈ p.nestedLoops [], (∀ l ∈ p.nestedLoops [], l.id = left.id ↔ l = before) ∧
          left.enclosing = before.enclosing ∧
          left.body = Nat.repeat foldAll passes before.body := by
  refine ⟨loopIds_optimize_sublist p passes, fun left hleft => ⟨fun i hi => ?_, ?_⟩⟩
  · exact (mem_of_mem_enclosing hleft hi).resolve_left List.not_mem_nil
  · have hmem := (nestedLoops_optimize_sublist p passes []).subset hleft
    obtain ⟨before, hbefore, rfl⟩ := List.mem_map.mp hmem
    refine ⟨before, hbefore, fun l hl => ⟨eq_of_id_eq hids hl hbefore, ?_⟩, rfl, rfl⟩
    rintro rfl
    rfl

/-- A loop inside another one, between loops that are dropped. -/
theorem optimize_keeps_loops_inner :
    let p : Program :=
      [.loop 7 [.command .print], .command .read,
        .loop 0 [.command (.move 1), .loop 1 [.loop 2 [], .command (.add 1)]],
        .loop 3 [.loop 4 []]]
    let before : NestedLoop := ⟨[0], 1, [.loop 2 [], .command (.add 1)]⟩
    let left : NestedLoop := ⟨[0], 1, [.command (.add 1)]⟩
    p.loopIds.Nodup ∧ before ∈ p.nestedLoops [] ∧ left ∈ (p.optimize 2).nestedLoops [] ∧
      (p.optimize 2).loopIds.Sublist p.loopIds ∧ left.enclosing = before.enclosing ∧
      left.body = Nat.repeat foldAll 2 before.body := by
  intro p before left
  have hids : p.loopIds.Nodup := by
    rw [loopIds_eq_map_nestedLoops p []]
    decide
  have hbefore : before ∈ p.nestedLoops [] := by decide
  have hleft : left ∈ (p.optimize 2).nestedLoops [] := by decide +kernel
  obtain ⟨hsublist, hloops⟩ := optimize_keeps_loops hids 2
  obtain ⟨-, found, -, hfound, henclosing, hbody⟩ := hloops left hleft
  obtain rfl : before = found := (hfound before hbefore).mp rfl
  exact ⟨hids, hbefore, hleft, hsublist, henclosing, hbody⟩

end Program

end TapeCompiler
