import TapeCompiler.Program.Folding

/-!
# The runs of a block

`Program.runs` cuts a block into runs: moves that are neighbours, adds that are neighbours
and clears that are neighbours, as far as they go, and every other node on its own. The
amounts of a run are summed from the left, starting from zero, and merging the block puts
one node in the place of each run (`mergeRuns_eq_map_runs`).
-/

namespace TapeCompiler

/-- Nodes of one kind next to each other, or a node that merges with no other. -/
inductive Run where
  | moves (amounts : List Int)
  | adds (amounts : List Int)
  | clears (count : Nat)
  | print
  | read
  | loop (id : Nat) (body : Program)
deriving Repr, Inhabited

/-- The run of a node on its own. -/
def Node.alone : Node → Run
  | command (.move amount) => .moves [amount]
  | command (.add amount) => .adds [amount]
  | command .clear => .clears 1
  | command .print => .print
  | command .read => .read
  | loop id body => .loop id body

/-- Puts a node in front of runs. It joins the first of them if that is of its kind. -/
def Node.joinRuns : Node → List Run → List Run
  | command (.move amount), .moves amounts :: runs => .moves (amount :: amounts) :: runs
  | command (.add amount), .adds amounts :: runs => .adds (amount :: amounts) :: runs
  | command .clear, .clears count :: runs => .clears (count + 1) :: runs
  | n, runs => n.alone :: runs

namespace Run

/-- The sum of the amounts, from the left. -/
def total (amounts : List Int) : Int :=
  amounts.foldl (· + ·) 0

/-- The node that takes the place of a run. -/
def node : Run → Node
  | moves amounts => .command (.move (total amounts))
  | adds amounts => .command (.add (total amounts))
  | clears _ => .command .clear
  | print => .command .print
  | read => .command .read
  | loop id body => .loop id body

/-- The values that the sum of a run takes, from zero to the total. -/
def sums : Run → List Int
  | moves amounts => amounts.scanl (· + ·) 0
  | adds amounts => amounts.scanl (· + ·) 0
  | _ => []

@[simp] theorem total_nil : total [] = 0 := rfl

theorem total_cons (amount : Int) (amounts : List Int) :
    total (amount :: amounts) = amount + total amounts := by
  rw [total, List.foldl_cons, Int.add_comm 0 amount, List.foldl_assoc, total]

end Run

namespace Program

/-- The runs of a block, in order. -/
def runs (block : Program) : List Run :=
  block.foldr Node.joinRuns []

theorem runs_cons (n : Node) (rest : Program) : runs (n :: rest) = n.joinRuns rest.runs := rfl

theorem map_node_joinRuns (n : Node) (runs : List Run) :
    (n.joinRuns runs).map Run.node = n.mergeOnto (runs.map Run.node) := by
  rcases n with (_ | _ | _ | _ | _) | _ <;> rcases runs with _ | ⟨_ | _ | _ | _ | _ | _, runs⟩ <;>
    simp [Node.joinRuns, Node.alone, Node.mergeOnto, Run.node, Command.merge?, Run.total_cons]

/-- Merging a block puts one node in the place of each run. -/
theorem mergeRuns_eq_map_runs (block : Program) :
    block.mergeRuns = block.runs.map Run.node := by
  induction block with
  | nil => rfl
  | cons n rest ih => rw [mergeRuns_cons, ih, runs_cons, map_node_joinRuns]

/-- The runs that are loops are the loops of the block. -/
theorem loop_mem_of_mem_runs {id : Nat} {body block : Program}
    (h : .loop id body ∈ block.runs) : Node.loop id body ∈ block := by
  have hmerged : Node.loop id body ∈ block.mergeRuns := by
    rw [mergeRuns_eq_map_runs]
    exact List.mem_map_of_mem (f := Run.node) h
  exact mem_of_loop_mem_mergeRuns hmerged

end Program

end TapeCompiler
