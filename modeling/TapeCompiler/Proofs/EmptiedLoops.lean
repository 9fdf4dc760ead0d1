import TapeCompiler.Proofs.FixedPoints
import TapeCompiler.Proofs.Settling
import TapeCompiler.Program.Parser

/-!
# Loops that a pass empties

No pass leaves an amount of zero, at any depth. An empty loop it may leave: a pass folds a
block before it folds the bodies of the loops in it, so a loop that is emptied is dropped
by the next pass and not by this one. `optimize_leaves_emptied_loops` says that there are
no others, and that as many passes as there are nodes leave none.
-/

namespace TapeCompiler

namespace Program

variable {p block : Program} {c : Command} {id : Nat}

theorem isEffective_of_mem_foldAll (h : .command c ∈ block.foldAll) :
    (Node.command c).isEffective = true := by
  rw [foldAll_eq] at h
  obtain ⟨n, hn, heq⟩ := List.mem_map.mp h
  cases n with
  | command d =>
      cases heq
      exact (List.mem_filter.mp hn).2
  | loop id body => cases heq

/-- Every block that a pass leaves is one that was folded, or what is left of one. -/
theorem exists_subset_foldAll (h : block ∈ p.pass.blocks) :
    ∃ before : Program, block ⊆ before.foldAll := by
  rcases List.mem_cons.mp h with rfl | h
  · exact ⟨p, (dropUnreachable_sublist p.foldAll).subset⟩
  · obtain ⟨⟨id, body⟩, hloop, rfl⟩ := List.mem_map.mp h
    obtain ⟨before, -, -, rfl⟩ := exists_of_mem_loops_pass hloop
    exact ⟨before, List.Subset.refl _⟩

theorem isEffective_of_mem_pass (hblock : block ∈ p.pass.blocks) (h : .command c ∈ block) :
    (Node.command c).isEffective = true := by
  obtain ⟨before, hsubset⟩ := exists_subset_foldAll hblock
  exact isEffective_of_mem_foldAll (hsubset h)

theorem foldAll_eq_nil_iff : block.foldAll = [] ↔ block.fold = [] := by
  rw [foldAll_eq, List.map_eq_nil_iff]

/-- The empty loops that a pass leaves are those that it empties. -/
theorem mem_loops_pass_nil_iff (hnodup : p.loopIds.Nodup) :
    (id, []) ∈ p.pass.loops ↔
      id ∈ p.pass.loopIds ∧
        ∃ body : Program, (id, body) ∈ p.loops ∧ body ≠ [] ∧ body.fold = [] := by
  rw [loopIds_eq_map_loops]
  constructor
  · intro h
    obtain ⟨before, hbefore, hempty, hfolded⟩ := exists_of_mem_loops_pass h
    exact ⟨List.mem_map_of_mem h, before, hbefore, hempty,
      foldAll_eq_nil_iff.mp hfolded.symm⟩
  · rintro ⟨hid, body, hbody, -, hfold⟩
    obtain ⟨⟨_, left⟩, hleft, rfl⟩ := List.mem_map.mp hid
    obtain ⟨before, hbefore, -, rfl⟩ := exists_of_mem_loops_pass hleft
    obtain rfl := body_eq_of_mem_loops hnodup hbody hbefore
    rwa [foldAll_eq_nil_iff.mpr hfold] at hleft

/-- As many passes as there are nodes leave nothing to do for another one. -/
theorem pass_optimize_of_nodeCount_le {passes : Nat} (h : p.nodeCount ≤ passes) :
    (p.optimize passes).pass = p.optimize passes := by
  by_contra hchanges
  have hfirst (i : Nat) (hi : i < passes + 1) : p.PassChanges i := by
    by_contra hstands
    exact not_passChanges_of_le hstands (Nat.le_of_lt_succ hi) hchanges
  have hle := nodeCount_optimize_add_le hfirst
  omega

theorem not_mem_loops_nil_of_pass_eq_self (h : p.pass = p) : (id, []) ∉ p.loops := by
  intro hloop
  obtain ⟨block, hblock, hmem⟩ := mem_loops_iff_mem_block.mp hloop
  have hcompact := foldAll_eq_self_iff.mp (foldAll_eq_self h) block hblock
  exact hcompact.bodies id hmem

/-- Passes leave no amount of zero, at any depth. A loop that is left has an empty body
exactly if the last pass emptied it, and none has after as many passes as there are
nodes. -/
theorem optimize_leaves_emptied_loops {source : String} {p : Program}
    (hp : ofSource source = .ok p) (passes : Nat) :
    let before := p.optimize passes
    let after := p.optimize (passes + 1)
    (∀ block ∈ after.blocks, .command (.move 0) ∉ block ∧ .command (.add 0) ∉ block) ∧
      (∀ id, (id, []) ∈ after.loops ↔
        id ∈ after.loopIds ∧
          ∃ body : Program, (id, body) ∈ before.loops ∧ body ≠ [] ∧ body.fold = []) ∧
      (p.nodeCount ≤ passes + 1 → ∀ id, (id, []) ∉ after.loops) := by
  intro before after
  refine ⟨fun block hblock => ⟨fun h => ?_, fun h => ?_⟩, fun id => ?_, fun hle id => ?_⟩
  · exact absurd (isEffective_of_mem_pass hblock h) (by decide)
  · exact absurd (isEffective_of_mem_pass hblock h) (by decide)
  · exact mem_loops_pass_nil_iff (nodup_loopIds_optimize hp passes)
  · exact not_mem_loops_nil_of_pass_eq_self (pass_optimize_of_nodeCount_le hle)

/-- The first pass empties the outer loop, and the third one is the last that could change
anything. -/
theorem optimize_leaves_emptied_loops_nested :
    let p : Program := [.command .read, .loop 0 [.loop 1 []]]
    ofSource ",[[]]" = .ok p ∧ (0, []) ∈ (p.optimize 1).loops ∧
      p.nodeCount ≤ 3 ∧ ∀ id, (id, []) ∉ (p.optimize 3).loops := by
  intro p
  have hread : ofSource ",[[]]" = .ok p := by decide +kernel
  have hcount : p.nodeCount ≤ 3 := by decide
  obtain ⟨-, hemptied, -⟩ := optimize_leaves_emptied_loops hread 0
  obtain ⟨-, -, hsettled⟩ := optimize_leaves_emptied_loops hread 2
  have hleft : 0 ∈ (p.optimize 1).loopIds := by
    rw [loopIds_eq_map_loops]
    decide +kernel
  refine ⟨hread, (hemptied 0).mpr ⟨hleft, [.loop 1 []], ?_⟩, hcount, hsettled hcount⟩
  decide

/-- One pass over a source with an empty loop in a loop leaves the outer one, and it is
empty then. -/
theorem optimize_one_leaves_empty_loop :
    ∃ p, ofSource ",[[]]" = .ok p ∧ p.optimize 1 = [.command .read, .loop 0 []] ∧
      (0, []) ∈ (p.optimize 1).loops :=
  ⟨[.command .read, .loop 0 [.loop 1 []]], by decide +kernel⟩

end Program

end TapeCompiler
