import TapeCompiler.Program.Folding

/-!
# Passes over a program

A pass folds the program, then the bodies of the loops that are left, and so on
inwards. After that it drops what cannot run at the start, where the tape is still
blank. One pass need not be enough, because folding inside a loop may empty the loop and
dropping a loop may bring two moves together. `Program.optimize` takes a number of
passes, and `Program.settle` takes passes until one changes nothing.
-/

namespace TapeCompiler

namespace Node

/-- Whether a node makes a cell of a blank tape differ from zero. -/
def touchesTape : Node → Bool
  | command (.add _) => true
  | command .read => true
  | _ => false

/-- Whether a node does nothing on a blank tape. -/
def isIdleOnBlank : Node → Bool
  | command .clear => true
  | loop _ _ => true
  | _ => false

end Node

namespace Program

/-- Drops the loops and clears before the first node that may change a cell. Only the
program itself starts on a blank tape, the body of a loop does not. -/
def dropUnreachable (p : Program) : Program :=
  (p.takeWhile (!·.touchesTape)).filter (!·.isIdleOnBlank) ++
    p.dropWhile (!·.touchesTape)

/-- Folds a block, and then the bodies of the loops that are left. -/
def foldAll (block : Program) : Program :=
  block.fold.attach.map fun
    | ⟨.command c, _⟩ => .command c
    | ⟨.loop id body, _⟩ => .loop id (foldAll body)
termination_by sizeOf block
decreasing_by
  rename_i h
  have hmem := List.sizeOf_lt_of_mem (mem_of_loop_mem_fold h)
  simp only [Node.loop.sizeOf_spec] at hmem
  omega

/-- One pass over a program. -/
def pass (p : Program) : Program :=
  p.foldAll.dropUnreachable

/-- A number of passes over a program. -/
def optimize (p : Program) (passes : Nat) : Program :=
  Nat.repeat pass passes p

/-- Takes passes until one changes nothing, but at most `limit` of them. `changed`
passes have changed something before. Gives the program and the number of all passes
that changed something. -/
def settleFrom (changed : Nat) (p : Program) : Nat → Program × Nat
  | 0 => (p, changed)
  | limit + 1 =>
      let next := p.pass
      if next == p then (p, changed) else settleFrom (changed + 1) next limit

/-- Takes passes until one changes nothing, but at most `limit` of them, and counts
those that changed something. -/
def settle (p : Program) (limit : Nat) : Program × Nat :=
  settleFrom 0 p limit

end Program

/-- Folds the body of a loop and of the loops in it. -/
def Node.foldBody : Node → Node
  | command c => command c
  | loop id body => loop id (Program.foldAll body)

namespace Program

theorem foldAll_eq (block : Program) : block.foldAll = block.fold.map Node.foldBody := by
  rw [foldAll, ← List.attach_map_val (f := Node.foldBody) (l := block.fold)]
  apply List.map_congr_left
  rintro ⟨n, h⟩ -
  cases n <;> rfl

@[simp] theorem dropUnreachable_nil : dropUnreachable [] = [] := rfl

theorem dropUnreachable_cons (n : Node) (rest : Program) :
    dropUnreachable (n :: rest) =
      if n.touchesTape then n :: rest
      else if n.isIdleOnBlank then dropUnreachable rest
      else n :: dropUnreachable rest := by
  cases htouches : n.touchesTape <;> cases hidle : n.isIdleOnBlank <;>
    simp [dropUnreachable, htouches, hidle]

@[simp] theorem optimize_zero (p : Program) : p.optimize 0 = p := rfl

theorem optimize_succ (p : Program) (passes : Nat) :
    p.optimize (passes + 1) = (p.optimize passes).pass := rfl

end Program

end TapeCompiler
