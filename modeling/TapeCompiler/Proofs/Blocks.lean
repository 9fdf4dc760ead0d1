import TapeCompiler.Proofs.LoopIds

/-!
# The blocks of a program

`Program.loops` lists the loops of a program at every depth, each with its id and its
body. The blocks of a program are the program itself and these bodies, so what is asked
of every block is asked at every depth (`forall_mem_blocks`).

A pass makes no loop. Each loop that it leaves stood in the program before, with a body
that was not empty, and the pass folded that body: `exists_of_mem_loops_pass`.
-/

namespace TapeCompiler

mutual

def Node.loops : Node → List (Nat × Program)
  | .command _ => []
  | .loop id body => (id, body) :: Program.loops body

/-- The loops of a program at every depth, in the order in which they open. -/
def Program.loops : Program → List (Nat × Program)
  | [] => []
  | n :: rest => Node.loops n ++ Program.loops rest

end

namespace Program

/-- The program, and the bodies of its loops at every depth. -/
def blocks (p : Program) : List Program :=
  p :: p.loops.map Prod.snd

theorem loops_cons (n : Node) (rest : Program) :
    loops (n :: rest) = n.loops ++ loops rest := rfl

theorem loopIds_eq_map_loops (p : Program) : p.loopIds = p.loops.map Prod.fst := by
  induction p using Program.induction with
  | nil => rfl
  | command c rest ih => rw [loopIds_cons, ih, Node.loopIds_command, loops_cons]; rfl
  | loop id body rest ihBody ih =>
      rw [loopIds_cons, Node.loopIds_loop, ihBody, ih, loops_cons, List.map_append]
      rfl

variable {p q block : Program} {id : Nat} {body : Program}

/-- A loop of a program is a node of the program, or a loop in the body of such a node. -/
theorem mem_loops_iff :
    (id, body) ∈ p.loops ↔
      .loop id body ∈ p ∨
        ∃ (i : Nat) (outer : Program), .loop i outer ∈ p ∧ (id, body) ∈ outer.loops := by
  induction p with
  | nil => simp [loops]
  | cons n rest ih =>
      rw [loops_cons, List.mem_append, ih]
      cases n <;> simp only [Node.loops, List.mem_cons] <;> grind

theorem mem_blocks_self (p : Program) : p ∈ p.blocks :=
  List.mem_cons_self

theorem mem_blocks_of_mem_loops (h : (id, body) ∈ p.loops) : body ∈ p.blocks :=
  List.mem_cons_of_mem _ (List.mem_map_of_mem h)

theorem mem_blocks_iff :
    block ∈ p.blocks ↔
      block = p ∨ ∃ (id : Nat) (body : Program), .loop id body ∈ p ∧ block ∈ body.blocks := by
  constructor
  · intro h
    rcases List.mem_cons.mp h with rfl | h
    · exact .inl rfl
    · obtain ⟨⟨i, _⟩, hloop, rfl⟩ := List.mem_map.mp h
      rcases mem_loops_iff.mp hloop with hnode | ⟨j, outer, houter, hinner⟩
      · exact .inr ⟨i, _, hnode, mem_blocks_self _⟩
      · exact .inr ⟨j, outer, houter, mem_blocks_of_mem_loops hinner⟩
  · rintro (rfl | ⟨id, body, hbody, hblock⟩)
    · exact mem_blocks_self _
    · rcases List.mem_cons.mp hblock with rfl | hblock
      · exact mem_blocks_of_mem_loops (mem_loops_iff.mpr (.inl hbody))
      · obtain ⟨⟨i, _⟩, hinner, rfl⟩ := List.mem_map.mp hblock
        exact mem_blocks_of_mem_loops (mem_loops_iff.mpr (.inr ⟨id, body, hbody, hinner⟩))

/-- What is asked of every block of a program is asked of the program and of every block
of the bodies in it. -/
theorem forall_mem_blocks {P : Program → Prop} :
    (∀ block ∈ p.blocks, P block) ↔
      P p ∧ ∀ (id : Nat) (body : Program), .loop id body ∈ p → ∀ block ∈ body.blocks, P block := by
  constructor
  · intro h
    refine ⟨h p (mem_blocks_self p), fun id body hbody block hblock => ?_⟩
    exact h block (mem_blocks_iff.mpr (.inr ⟨id, body, hbody, hblock⟩))
  · rintro ⟨hp, hbodies⟩ block hblock
    rcases mem_blocks_iff.mp hblock with rfl | ⟨id, body, hbody, hblock⟩
    · exact hp
    · exact hbodies id body hbody block hblock

/-- The loops of a program are the loops among the nodes of its blocks. -/
theorem mem_loops_iff_mem_block :
    (id, body) ∈ p.loops ↔ ∃ block ∈ p.blocks, .loop id body ∈ block := by
  induction p using Program.induction_bodies with
  | block p ih =>
      rw [mem_loops_iff]
      constructor
      · rintro (h | ⟨i, outer, houter, h⟩)
        · exact ⟨p, mem_blocks_self p, h⟩
        · obtain ⟨block, hblock, h⟩ := (ih i outer houter).mp h
          exact ⟨block, mem_blocks_iff.mpr (.inr ⟨i, outer, houter, hblock⟩), h⟩
      · rintro ⟨block, hblock, h⟩
        rcases mem_blocks_iff.mp hblock with rfl | ⟨i, outer, houter, hblock⟩
        · exact .inl h
        · exact .inr ⟨i, outer, houter, (ih i outer houter).mpr ⟨block, hblock, h⟩⟩

/-- Where the loops of a program have ids of their own, the id tells the body. -/
theorem body_eq_of_mem_loops (hnodup : p.loopIds.Nodup) {body' : Program}
    (h : (id, body) ∈ p.loops) (h' : (id, body') ∈ p.loops) : body = body' := by
  rw [loopIds_eq_map_loops] at hnodup
  exact congrArg Prod.snd (List.inj_on_of_nodup_map hnodup h h' rfl)

theorem loop_mem_map_foldBody :
    .loop id body ∈ block.map Node.foldBody ↔
      ∃ before : Program, .loop id before ∈ block ∧ body = before.foldAll := by
  rw [List.mem_map]
  constructor
  · rintro ⟨_ | ⟨i, before⟩, hn, heq⟩
    · cases heq
    · cases heq
      exact ⟨before, hn, rfl⟩
  · rintro ⟨before, hn, rfl⟩
    exact ⟨.loop id before, hn, rfl⟩

/-- Folding at every depth makes no loop. -/
theorem exists_of_mem_loops_foldAll (h : (id, body) ∈ p.foldAll.loops) :
    ∃ before : Program, (id, before) ∈ p.loops ∧ before ≠ [] ∧ body = before.foldAll := by
  induction p using Program.induction_bodies with
  | block p ih =>
      rw [foldAll_eq] at h
      rcases mem_loops_iff.mp h with h | ⟨i, outer, houter, hbody⟩
      · obtain ⟨before, hbefore, rfl⟩ := loop_mem_map_foldBody.mp h
        have hmem := mem_loops_iff.mpr (.inl (mem_of_loop_mem_fold hbefore))
        have heffective := (List.mem_filter.mp hbefore).2
        refine ⟨before, hmem, ?_, rfl⟩
        simpa [Node.isEffective] using heffective
      · obtain ⟨inner, hinner, rfl⟩ := loop_mem_map_foldBody.mp houter
        have hmem := mem_of_loop_mem_fold hinner
        obtain ⟨before, hbefore, hempty, rfl⟩ := ih i inner hmem hbody
        exact ⟨before, mem_loops_iff.mpr (.inr ⟨i, inner, hmem, hbefore⟩), hempty, rfl⟩

/-- A loop that a pass leaves is a loop of the program whose body was not empty, and it
has the body that folding gives. -/
theorem exists_of_mem_loops_pass (h : (id, body) ∈ p.pass.loops) :
    ∃ before : Program, (id, before) ∈ p.loops ∧ before ≠ [] ∧ body = before.foldAll := by
  have hsubset := (dropUnreachable_sublist p.foldAll).subset
  apply exists_of_mem_loops_foldAll
  rcases mem_loops_iff.mp h with h | ⟨i, outer, houter, hbody⟩
  · exact mem_loops_iff.mpr (.inl (hsubset h))
  · exact mem_loops_iff.mpr (.inr ⟨i, outer, hsubset houter, hbody⟩)

end Program

end TapeCompiler
