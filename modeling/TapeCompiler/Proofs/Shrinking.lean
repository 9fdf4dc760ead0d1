import TapeCompiler.Program.Optimizer

/-!
# Passes make programs smaller

`Shrinks q p` says that `q` is `p` or has fewer nodes, where nodes count at every depth.
Every part of a pass shrinks what it is given. So passes come to an end, and a program
that a pass leaves alone is left alone by every part of it (`foldAll_eq_self`,
`fold_eq_self`).
-/

namespace TapeCompiler

mutual

def Node.nodeCount : Node → Nat
  | .command _ => 1
  | .loop _ body => Program.nodeCount body + 1

/-- How many nodes a program is made of, at every depth. -/
def Program.nodeCount : Program → Nat
  | [] => 0
  | n :: rest => Node.nodeCount n + Program.nodeCount rest

end

theorem Node.nodeCount_pos (n : Node) : 0 < n.nodeCount := by
  cases n <;> simp [nodeCount]

namespace Program

theorem nodeCount_cons (n : Node) (rest : Program) :
    nodeCount (n :: rest) = n.nodeCount + nodeCount rest := rfl

theorem eq_nil_of_nodeCount {p : Program} (h : p.nodeCount = 0) : p = [] := by
  cases p with
  | nil => rfl
  | cons n rest =>
      have hpos := n.nodeCount_pos
      rw [nodeCount_cons] at h
      omega

/-- A program is another one or has fewer nodes. -/
def Shrinks (q p : Program) : Prop :=
  q = p ∨ q.nodeCount < p.nodeCount

namespace Shrinks

variable {p q r body body' rest rest' : Program}

theorem refl (p : Program) : Shrinks p p :=
  .inl rfl

theorem nodeCount_le (h : Shrinks q p) : q.nodeCount ≤ p.nodeCount := by
  rcases h with rfl | h
  · exact Nat.le_refl _
  · exact Nat.le_of_lt h

theorem nodeCount_lt (h : Shrinks q p) (hne : q ≠ p) : q.nodeCount < p.nodeCount :=
  h.resolve_left hne

theorem trans (h : Shrinks r q) (h' : Shrinks q p) : Shrinks r p := by
  rcases h with rfl | h
  · exact h'
  · exact .inr (Nat.lt_of_lt_of_le h h'.nodeCount_le)

theorem antisymm (h : Shrinks q p) (h' : Shrinks p q) : q = p := by
  rcases h with rfl | h
  · rfl
  · exact absurd h'.nodeCount_le (Nat.not_le.mpr h)

theorem cons (n : Node) (h : Shrinks q p) : Shrinks (n :: q) (n :: p) := by
  rcases h with rfl | h
  · exact .refl _
  · exact .inr (Nat.add_lt_add_left h n.nodeCount)

theorem loop (id : Nat) (hbody : Shrinks body' body) (hrest : Shrinks rest' rest) :
    Shrinks (.loop id body' :: rest') (.loop id body :: rest) := by
  rcases hbody with rfl | hbody
  · exact .cons _ hrest
  · have hle := hrest.nodeCount_le
    refine .inr ?_
    simp only [nodeCount_cons, Node.nodeCount]
    omega

theorem tail (n : Node) (rest : Program) : Shrinks rest (n :: rest) :=
  .inr (Nat.lt_add_of_pos_left n.nodeCount_pos)

end Shrinks

theorem mergeOnto_shrinks (n : Node) (rest : Program) :
    Shrinks (n.mergeOnto rest) (n :: rest) := by
  unfold Node.mergeOnto
  split
  next =>
    split
    next => exact .inr (by simp [nodeCount_cons, Node.nodeCount])
    next => exact .refl _
  next => exact .refl _

theorem mergeRuns_shrinks (block : Program) : Shrinks block.mergeRuns block := by
  induction block with
  | nil => exact .refl []
  | cons n rest ih => exact (mergeOnto_shrinks n (mergeRuns rest)).trans (.cons n ih)

theorem filter_shrinks (keep : Node → Bool) (block : Program) :
    Shrinks (block.filter keep) block := by
  induction block with
  | nil => exact .refl []
  | cons n rest ih =>
      rw [List.filter_cons]
      split
      next => exact .cons n ih
      next => exact ih.trans (.tail n rest)

theorem fold_shrinks (block : Program) : Shrinks block.fold block :=
  (filter_shrinks Node.isEffective block.mergeRuns).trans (mergeRuns_shrinks block)

theorem map_foldBody_shrinks {block : Program}
    (h : ∀ id body, .loop id body ∈ block → Shrinks (foldAll body) body) :
    Shrinks (block.map Node.foldBody) block := by
  induction block with
  | nil => exact .refl []
  | cons n rest ih =>
      have hrest := ih fun id body hmem => h id body (List.mem_cons_of_mem n hmem)
      cases n with
      | command c => exact .cons (.command c) hrest
      | loop id body => exact .loop id (h id body List.mem_cons_self) hrest

theorem foldAll_shrinks (p : Program) : Shrinks p.foldAll p := by
  induction p using Program.induction_bodies with
  | block p ih =>
      rw [foldAll_eq]
      refine (map_foldBody_shrinks ?_).trans (fold_shrinks p)
      exact fun id body hmem => ih id body (mem_of_loop_mem_fold hmem)

theorem dropUnreachable_shrinks (p : Program) : Shrinks p.dropUnreachable p := by
  induction p with
  | nil => exact .refl []
  | cons n rest ih =>
      rw [dropUnreachable_cons]
      split
      next => exact .refl _
      next =>
        split
        next => exact ih.trans (.tail n rest)
        next => exact .cons n ih

theorem pass_shrinks (p : Program) : Shrinks p.pass p :=
  (dropUnreachable_shrinks p.foldAll).trans (foldAll_shrinks p)

variable {p : Program}

theorem foldAll_eq_self (h : p.pass = p) : p.foldAll = p := by
  refine (foldAll_shrinks p).antisymm ?_
  have hdrop := dropUnreachable_shrinks p.foldAll
  rwa [← pass, h] at hdrop

theorem dropUnreachable_eq_self (h : p.pass = p) : p.dropUnreachable = p := by
  rwa [pass, foldAll_eq_self h] at h

theorem fold_eq_self (h : p.foldAll = p) : p.fold = p := by
  refine (fold_shrinks p).antisymm ?_
  have hbodies : Shrinks (p.fold.map Node.foldBody) p.fold :=
    map_foldBody_shrinks fun _ body _ => foldAll_shrinks body
  rwa [← foldAll_eq, h] at hbodies

theorem foldBody_eq_self (h : p.foldAll = p) {n : Node} (hn : n ∈ p) : n.foldBody = n := by
  have hfold := fold_eq_self h
  rw [foldAll_eq, hfold] at h
  exact List.map_inj_left.mp (h.trans (List.map_id p).symm) n hn

theorem mergeRuns_eq_self (h : p.fold = p) : p.mergeRuns = p := by
  refine (mergeRuns_shrinks p).antisymm ?_
  have hfilter := filter_shrinks Node.isEffective p.mergeRuns
  rwa [← fold, h] at hfilter

theorem isEffective_of_mem (h : p.fold = p) {n : Node} (hn : n ∈ p) :
    n.isEffective = true := by
  rw [← h] at hn
  exact (List.mem_filter.mp hn).2

/-- Where merging the neighbours changes nothing, it changes nothing behind the first
node either. -/
theorem mergeRuns_tail_eq_self {n : Node} {rest : Program}
    (h : mergeRuns (n :: rest) = n :: rest) : mergeRuns rest = rest := by
  have hmerge := mergeOnto_shrinks n (mergeRuns rest)
  rw [← mergeRuns_cons, h] at hmerge
  have hcons := (Shrinks.cons n (mergeRuns_shrinks rest)).antisymm hmerge
  exact (List.cons_eq_cons.mp hcons).2

end Program

end TapeCompiler
