import TapeCompiler.Proofs.FixedPoints
import TapeCompiler.Proofs.Runs

/-!
# Runs go as far as they can

A block is cut into runs if the nodes of the runs, one run behind the other, are the block,
no run is without nodes, and no two neighbouring runs are of one kind
(`Program.CutInto`). There is exactly one way to cut a block, and `Program.runs` finds it:
`cutInto_iff_eq_runs`.
-/

namespace TapeCompiler

theorem Node.alike_comm (n m : Node) : n.Alike m ↔ m.Alike n := by
  rcases n with (_ | _ | _ | _ | _) | _ <;> rcases m with (_ | _ | _ | _ | _) | _ <;> rfl

namespace Run

/-- The nodes that a run stands for. -/
def nodes : Run → List Node
  | moves amounts => amounts.map fun amount => .command (.move amount)
  | adds amounts => amounts.map fun amount => .command (.add amount)
  | clears count => List.replicate count (.command .clear)
  | print => [.command .print]
  | read => [.command .read]
  | loop id body => [.loop id body]

/-- The nodes of a run are of the kind of the node that takes its place. -/
theorem alike_node_iff {r : Run} {n m : Node} (hn : n ∈ r.nodes) :
    r.node.Alike m ↔ n.Alike m := by
  cases r with
  | moves amounts =>
      obtain ⟨amount, -, rfl⟩ := List.mem_map.mp hn
      rcases m with (_ | _ | _ | _ | _) | _ <;> rfl
  | adds amounts =>
      obtain ⟨amount, -, rfl⟩ := List.mem_map.mp hn
      rcases m with (_ | _ | _ | _ | _) | _ <;> rfl
  | clears count =>
      obtain rfl := List.eq_of_mem_replicate hn
      rfl
  | _ =>
      obtain rfl := List.mem_singleton.mp hn
      rfl

/-- A run is a node on its own, or a node that joins the run of the others. -/
theorem eq_alone_or_join {r : Run} {n : Node} {others : List Node}
    (h : r.nodes = n :: others) :
    (others = [] ∧ r = n.alone) ∨
      ∃ shorter : Run, shorter.nodes = others ∧ others ≠ [] ∧
        ∀ runs, n.joinRuns (shorter :: runs) = r :: runs := by
  match r, h with
  | moves [_], rfl => exact .inl ⟨rfl, rfl⟩
  | moves (_ :: amount :: amounts), rfl =>
      exact .inr ⟨moves (amount :: amounts), rfl, List.cons_ne_nil _ _, fun _ => rfl⟩
  | adds [_], rfl => exact .inl ⟨rfl, rfl⟩
  | adds (_ :: amount :: amounts), rfl =>
      exact .inr ⟨adds (amount :: amounts), rfl, List.cons_ne_nil _ _, fun _ => rfl⟩
  | clears 1, rfl => exact .inl ⟨rfl, rfl⟩
  | clears (count + 2), rfl =>
      exact .inr ⟨clears (count + 1), rfl, List.cons_ne_nil _ _, fun _ => rfl⟩
  | print, rfl => exact .inl ⟨rfl, rfl⟩
  | read, rfl => exact .inl ⟨rfl, rfl⟩
  | loop id body, rfl => exact .inl ⟨rfl, rfl⟩

end Run

namespace Node

variable {n : Node} {runs : List Run}

/-- A node joins the first run, or it is a run of its own and the first run is of another
kind. -/
theorem joinRuns_cases (n : Node) (runs : List Run) :
    (∃ r rest joined, runs = r :: rest ∧ n.joinRuns runs = joined :: rest ∧
        joined.nodes = n :: r.nodes ∧ n.Alike r.node) ∨
      (n.joinRuns runs = n.alone :: runs ∧ ∀ r ∈ runs.head?, ¬n.Alike r.node) := by
  unfold joinRuns
  split
  next amount amounts rest => exact .inl ⟨.moves amounts, rest, _, rfl, rfl, rfl, trivial⟩
  next amount amounts rest => exact .inl ⟨.adds amounts, rest, _, rfl, rfl, rfl, trivial⟩
  next count rest => exact .inl ⟨.clears count, rest, _, rfl, rfl, rfl, trivial⟩
  next hmoves hadds hclears =>
    refine .inr ⟨rfl, fun r hr halike => ?_⟩
    obtain ⟨rest, rfl⟩ := List.head?_eq_some_iff.mp hr
    rw [alike_comm] at halike
    match r, n, halike with
    | .moves amounts, .command (.move amount), _ => exact hmoves amount amounts rest rfl rfl
    | .adds amounts, .command (.add amount), _ => exact hadds amount amounts rest rfl rfl
    | .clears count, .command .clear, _ => exact hclears count rest rfl rfl

theorem nodes_alone (n : Node) : n.alone.nodes = [n] := by
  rcases n with (_ | _ | _ | _ | _) | _ <;> rfl

theorem flatMap_nodes_joinRuns (n : Node) (runs : List Run) :
    (n.joinRuns runs).flatMap Run.nodes = n :: runs.flatMap Run.nodes := by
  rcases joinRuns_cases n runs with ⟨r, rest, joined, rfl, hjoin, hnodes, -⟩ | ⟨halone, -⟩
  · rw [hjoin, List.flatMap_cons, List.flatMap_cons, hnodes, List.cons_append]
  · rw [halone, List.flatMap_cons, nodes_alone, List.singleton_append]

theorem nodes_ne_nil_of_mem_joinRuns (h : ∀ r ∈ runs, r.nodes ≠ []) :
    ∀ r ∈ n.joinRuns runs, r.nodes ≠ [] := by
  rcases joinRuns_cases n runs with ⟨r, rest, joined, rfl, hjoin, hnodes, -⟩ | ⟨halone, -⟩
  · rw [hjoin]
    refine List.forall_mem_cons.mpr ⟨?_, (List.forall_mem_cons.mp h).2⟩
    exact hnodes ▸ List.cons_ne_nil n r.nodes
  · rw [halone]
    exact List.forall_mem_cons.mpr ⟨nodes_alone n ▸ List.cons_ne_nil n [], h⟩

/-- A node is a run of its own in front of runs that do not start with its kind. -/
theorem joinRuns_of_apart (h : ∀ s ∈ runs.head?, ¬n.Alike s.node) :
    n.joinRuns runs = n.alone :: runs := by
  rcases joinRuns_cases n runs with ⟨r, rest, joined, rfl, -, -, halike⟩ | ⟨halone, -⟩
  · exact absurd halike (h r rfl)
  · exact halone

end Node

namespace Program

theorem isChain_mergeOnto {merged : Program} (n : Node)
    (h : merged.IsChain fun n m => ¬n.Alike m) :
    (n.mergeOnto merged).IsChain fun n m => ¬n.Alike m := by
  have hcons {n : Node} {rest : Program} (hn : n.Apart rest)
      (hrest : rest.IsChain fun n m => ¬n.Alike m) :
      (n :: rest).IsChain fun n m => ¬n.Alike m :=
    List.isChain_cons.mpr ⟨Node.apart_iff.mp hn, hrest⟩
  cases n with
  | loop id body =>
      rw [Node.apart_loop]
      exact hcons (Node.apart_loop id body merged) h
  | command c =>
      rcases Node.apart_or_merge? c merged with hc | ⟨d, others, e, rfl, hmerge⟩
      · rw [hc]
        exact hcons hc h
      · obtain ⟨hd, hothers⟩ := List.isChain_cons.mp h
        rw [Node.mergeOnto_of_merge? hmerge]
        exact hcons (Node.Apart.of_merge? hmerge (Node.apart_iff.mpr hd)).2 hothers

/-- Merging leaves no two neighbours of one kind. -/
theorem isChain_mergeRuns (block : Program) :
    block.mergeRuns.IsChain fun n m => ¬n.Alike m := by
  induction block with
  | nil => exact .nil
  | cons n rest ih => exact isChain_mergeOnto n ih

/-- The runs are the whole block, and each goes as far as it can. -/
structure CutInto (block : Program) (runs : List Run) : Prop where
  flatMap_nodes : runs.flatMap Run.nodes = block
  nonempty : ∀ r ∈ runs, r.nodes ≠ []
  apart : runs.IsChain fun r s => ¬r.node.Alike s.node

theorem cutInto_runs (block : Program) : block.CutInto block.runs where
  flatMap_nodes := by
    induction block with
    | nil => rfl
    | cons n rest ih => rw [runs_cons, Node.flatMap_nodes_joinRuns, ih]
  nonempty := by
    induction block with
    | nil => simp [runs]
    | cons n rest ih => exact Node.nodes_ne_nil_of_mem_joinRuns ih
  apart := by
    have hmerged := isChain_mergeRuns block
    rw [mergeRuns_eq_map_runs, List.isChain_map] at hmerged
    exact hmerged

/-- A run in front of a block is its first run if the block does not go on with its
kind. -/
theorem runs_append {r : Run} {rest : Program} (hnonempty : r.nodes ≠ [])
    (hapart : ∀ s ∈ rest.runs.head?, ¬r.node.Alike s.node) :
    runs (r.nodes ++ rest) = r :: rest.runs := by
  induction hnodes : r.nodes generalizing r with
  | nil => exact absurd hnodes hnonempty
  | cons n others ih =>
      rcases Run.eq_alone_or_join hnodes with ⟨rfl, rfl⟩ | ⟨shorter, hshorter, hothers, hjoin⟩
      · refine Node.joinRuns_of_apart fun s hs halike => hapart s hs ?_
        exact (Run.alike_node_iff (hnodes ▸ List.mem_cons_self)).mpr halike
      · -- The shorter run is of the same kind, because the two share a node.
        obtain ⟨m, hm⟩ := List.exists_mem_of_ne_nil others hothers
        have hkind (s : Run) : shorter.node.Alike s.node ↔ r.node.Alike s.node :=
          (Run.alike_node_iff (hshorter ▸ hm)).trans
            (Run.alike_node_iff (hnodes ▸ List.mem_cons_of_mem n hm)).symm
        have hrest := ih (hshorter ▸ hothers) (fun s hs => mt (hkind s).mp (hapart s hs)) hshorter
        rw [List.cons_append, runs_cons, hrest, hjoin]

variable {block : Program} {rs : List Run}

theorem CutInto.eq_runs (h : block.CutInto rs) : rs = block.runs := by
  induction rs generalizing block with
  | nil =>
      obtain rfl := h.flatMap_nodes
      rfl
  | cons r rs ih =>
      obtain ⟨rfl, hnonempty, hchain⟩ := h
      obtain ⟨hr, hnonempty⟩ := List.forall_mem_cons.mp hnonempty
      obtain ⟨hhead, hchain⟩ := List.isChain_cons.mp hchain
      have hrest := ih ⟨rfl, hnonempty, hchain⟩
      rw [List.flatMap_cons, runs_append hr (hrest ▸ hhead), ← hrest]

/-- There is one way to cut a block. -/
theorem cutInto_iff_eq_runs : block.CutInto rs ↔ rs = block.runs :=
  ⟨CutInto.eq_runs, fun h => h ▸ cutInto_runs block⟩

end Program

end TapeCompiler
