import TapeCompiler.Program.Optimizer
import Mathlib.Data.List.Flatten

/-!
# Loops and the loops around them

`Program.nestedLoops` lists the loops of a program, a loop before the loops in it, each
with the ids of the loops around it and with its body. Merging keeps this list and dropping
leaves loops out of it, so a number of passes leaves some of the loops, in their order and
inside the same loops, and what becomes of a body does not depend on what is around it:
`nestedLoops_optimize_sublist`.
-/

namespace TapeCompiler

/-- A loop of a program. -/
structure NestedLoop where
  /-- The ids of the loops around the loop, the innermost first. -/
  enclosing : List Nat
  id : Nat
  body : Program
deriving DecidableEq, Repr, Inhabited

/-- The same loop with another body. -/
def NestedLoop.mapBody (f : Program → Program) (l : NestedLoop) : NestedLoop :=
  { l with body := f l.body }

theorem NestedLoop.id_comp_mapBody (f : Program → Program) : id ∘ mapBody f = id := rfl

mutual

def Node.nestedLoops (enclosing : List Nat) : Node → List NestedLoop
  | .command _ => []
  | .loop id body => ⟨enclosing, id, body⟩ :: Program.nestedLoops (id :: enclosing) body

/-- The loops of a program, in the order in which they open, where the loops in `enclosing`
are around the program. -/
def Program.nestedLoops (enclosing : List Nat) : Program → List NestedLoop
  | [] => []
  | n :: rest => Node.nestedLoops enclosing n ++ Program.nestedLoops enclosing rest

end

namespace Program

section Blocks

variable {β : Type} {g : Node → List β}

theorem flatMap_mergeOnto (hg : ∀ c, g (.command c) = []) (n : Node) (merged : Program) :
    (n.mergeOnto merged).flatMap g = g n ++ merged.flatMap g := by
  unfold Node.mergeOnto
  split
  next => split <;> simp [hg]
  next => rfl

/-- Merging keeps what is listed for the loops of a block. -/
theorem flatMap_mergeRuns (hg : ∀ c, g (.command c) = []) (block : Program) :
    block.mergeRuns.flatMap g = block.flatMap g := by
  induction block with
  | nil => rfl
  | cons n rest ih => rw [mergeRuns_cons, flatMap_mergeOnto hg, ih, List.flatMap_cons]

theorem flatMap_fold_sublist (hg : ∀ c, g (.command c) = []) (block : Program) :
    (block.fold.flatMap g).Sublist (block.flatMap g) := by
  rw [← flatMap_mergeRuns hg block]
  exact List.filter_sublist.flatMap g

theorem dropUnreachable_sublist (p : Program) : p.dropUnreachable.Sublist p := by
  induction p with
  | nil => exact .refl []
  | cons n rest ih =>
      rw [dropUnreachable_cons]
      split
      next => exact .refl _
      next =>
        split
        next => exact ih.cons n
        next => exact ih.cons_cons n

end Blocks

theorem nestedLoops_eq_flatMap (enclosing : List Nat) (p : Program) :
    p.nestedLoops enclosing = p.flatMap (Node.nestedLoops enclosing) := by
  induction p with
  | nil => rfl
  | cons n rest ih => rw [nestedLoops, ih, List.flatMap_cons]

/-- Folding a block and the bodies in it leaves loops out, and folds the bodies of the
others. -/
theorem nestedLoops_foldAll_sublist (p : Program) (enclosing : List Nat) :
    (p.foldAll.nestedLoops enclosing).Sublist
      ((p.nestedLoops enclosing).map (.mapBody foldAll)) := by
  induction p using Program.induction_bodies generalizing enclosing with
  | block p ih =>
      have hfold := flatMap_fold_sublist (g := Node.nestedLoops enclosing) (fun _ => rfl) p
      rw [nestedLoops_eq_flatMap, nestedLoops_eq_flatMap, foldAll_eq, List.flatMap_map]
      refine List.Sublist.trans ?_ (hfold.map _)
      rw [List.map_flatMap]
      refine List.Sublist.flatMap_right p.fold fun n hn => ?_
      cases n with
      | command c => exact .refl _
      | loop id body =>
          exact (ih id body (mem_of_loop_mem_fold hn) (id :: enclosing)).cons_cons _

theorem nestedLoops_pass_sublist (p : Program) (enclosing : List Nat) :
    (p.pass.nestedLoops enclosing).Sublist
      ((p.nestedLoops enclosing).map (.mapBody foldAll)) := by
  have hdrop := (dropUnreachable_sublist p.foldAll).flatMap (Node.nestedLoops enclosing)
  rw [← nestedLoops_eq_flatMap, ← nestedLoops_eq_flatMap] at hdrop
  exact hdrop.trans (nestedLoops_foldAll_sublist p enclosing)

/-- Passes leave loops out. The others stay in their order and inside the same loops, and
their bodies are folded as often as there are passes, whatever is around them. -/
theorem nestedLoops_optimize_sublist (p : Program) (passes : Nat) (enclosing : List Nat) :
    ((p.optimize passes).nestedLoops enclosing).Sublist
      ((p.nestedLoops enclosing).map (.mapBody (Nat.repeat foldAll passes))) := by
  induction passes with
  | zero =>
      have hsame : (p.nestedLoops enclosing).map (.mapBody (Nat.repeat foldAll 0)) =
          p.nestedLoops enclosing := List.map_id _
      rw [hsame]
      exact .refl _
  | succ passes ih =>
      have hpass := nestedLoops_pass_sublist (p.optimize passes) enclosing
      have hbodies := hpass.trans (ih.map (NestedLoop.mapBody foldAll))
      rwa [List.map_map] at hbodies

end Program

end TapeCompiler
