import TapeCompiler.Program

/-!
# Folding a block

`Program.fold` merges neighbours in one block and then drops what has no effect.
Neighbouring moves become one move, neighbouring adds one add, and neighbouring clears
one clear. An amount of zero has no effect, and neither has a loop without a body.
Folding does not look into the bodies of loops: `mem_of_loop_mem_fold` says that every
loop of the folded block is a loop of the block.
-/

namespace TapeCompiler

/-- The command that does what two neighbouring commands do, if they are of one kind. -/
def Command.merge? : Command → Command → Option Command
  | move a, move b => some (move (a + b))
  | add a, add b => some (add (a + b))
  | clear, clear => some clear
  | _, _ => none

namespace Node

/-- Puts a node in front of merged nodes. It merges with the first of them if it can. -/
def mergeOnto : Node → List Node → List Node
  | command c, command d :: rest =>
      match c.merge? d with
      | some merged => command merged :: rest
      | none => command c :: command d :: rest
  | n, rest => n :: rest

/-- Whether a node can change anything, read off its amount or its body. -/
def isEffective : Node → Bool
  | command (.move amount) => amount != 0
  | command (.add amount) => amount != 0
  | loop _ body => !body.isEmpty
  | _ => true

end Node

namespace Program

/-- Merges the neighbours of a block. -/
def mergeRuns (block : Program) : Program :=
  block.foldr Node.mergeOnto []

/-- Merges the neighbours of a block and drops the nodes that have no effect then. -/
def fold (block : Program) : Program :=
  block.mergeRuns.filter Node.isEffective

@[simp] theorem mergeRuns_nil : mergeRuns [] = [] := rfl

theorem mergeRuns_cons (n : Node) (rest : Program) :
    mergeRuns (n :: rest) = n.mergeOnto (mergeRuns rest) := rfl

theorem mem_of_loop_mem_mergeOnto {id : Nat} {body : Program} {n : Node}
    {merged : List Node} (h : .loop id body ∈ n.mergeOnto merged) :
    .loop id body = n ∨ .loop id body ∈ merged := by
  unfold Node.mergeOnto at h
  split at h
  · split at h <;> simp_all
  · simpa using h

/-- Merging makes no loop. -/
theorem mem_of_loop_mem_mergeRuns {id : Nat} {body block : Program}
    (h : .loop id body ∈ block.mergeRuns) : .loop id body ∈ block := by
  induction block with
  | nil => simp at h
  | cons n rest ih =>
      rw [mergeRuns_cons] at h
      rcases mem_of_loop_mem_mergeOnto h with rfl | h
      · exact List.mem_cons_self
      · exact List.mem_cons_of_mem _ (ih h)

/-- Folding makes no loop. -/
theorem mem_of_loop_mem_fold {id : Nat} {body block : Program}
    (h : .loop id body ∈ block.fold) : .loop id body ∈ block :=
  mem_of_loop_mem_mergeRuns (List.mem_filter.mp h).1

end Program

end TapeCompiler
