import TapeCompiler.Proofs.AmountRange
import TapeCompiler.Proofs.Assembly
import TapeCompiler.Proofs.MaximalRuns

/-!
# Folding a block in place

`FoldLoop` folds a block in place, with one index into it. At a move or an add, the loop
sums the amounts from there on, as long as the nodes are of that kind, takes out all nodes
of the run but the first, puts the sum in its place, and goes back behind it. At a clear it
takes out the clears that follow. At the end it drops what has no effect. An index or a
range that is not in the block would be a fault, and so is a sum that a checked build stops
at.

`FoldLoop.ends_scan` is the invariant of the loop: what stands before the index are the
nodes of the runs that are done, and what stands from the index on are the runs to come. So
the loop always ends, it never leaves the block, and what it gives is what folding gives
(`foldsInPlace_maximal_runs`).
-/

namespace TapeCompiler

/-- What stops the loop before its end. -/
inductive FoldFault where
  /-- An index or a range is not in the block. -/
  | outOfRange
  /-- A sum has more than 32 bits, in a checked build. -/
  | overflow
deriving DecidableEq, Repr, Inhabited

namespace FoldLoop

section Access

/-- The node at an index. -/
def nodeAt (nodes : List Node) (place : Nat) : Except FoldFault Node :=
  match nodes[place]? with
  | some n => .ok n
  | none => .error .outOfRange

/-- The nodes from an index on. -/
def suffixFrom (nodes : List Node) (first : Nat) : Except FoldFault (List Node) :=
  if first ≤ nodes.length then .ok (nodes.drop first) else .error .outOfRange

/-- Takes out the nodes from `first` to before `last`. -/
def drain (nodes : List Node) (first last : Nat) : Except FoldFault (List Node) :=
  if first ≤ last ∧ last ≤ nodes.length then .ok (nodes.take first ++ nodes.drop last)
  else .error .outOfRange

/-- Puts a node in the place of another. -/
def replace (nodes : List Node) (place : Nat) (n : Node) : Except FoldFault (List Node) :=
  if place < nodes.length then .ok (nodes.set place n) else .error .outOfRange

variable {nodes rest : List Node} {place : Nat}

theorem nodeAt_of_drop {n : Node} (h : nodes.drop place = n :: rest) :
    nodeAt nodes place = .ok n := by
  rw [nodeAt, ← List.head?_drop, h]
  rfl

theorem lt_length_of_drop {n : Node} (h : nodes.drop place = n :: rest) :
    place < nodes.length := by
  have hlength := congrArg List.length h
  rw [List.length_drop, List.length_cons] at hlength
  omega

theorem drain_append (done part rest : List Node) :
    drain (done ++ (part ++ rest)) done.length (done.length + part.length) =
      .ok (done ++ rest) := by
  have hrange : done.length ≤ done.length + part.length ∧
      done.length + part.length ≤ (done ++ (part ++ rest)).length := by
    simp only [List.length_append]
    omega
  rw [drain, if_pos hrange, List.take_left, ← List.append_assoc, ← List.length_append,
    List.drop_left]

theorem replace_append (done rest : List Node) (n m : Node) :
    replace (done ++ n :: rest) done.length m = .ok (done ++ m :: rest) := by
  have hplace : done.length < (done ++ n :: rest).length := by simp
  rw [replace, if_pos hplace, List.set_append_right _ _ (Nat.le_refl _), Nat.sub_self,
    List.set_cons_zero]

end Access

/-- The two kinds of commands whose amounts are summed. -/
inductive Kind where
  | moves
  | adds
deriving DecidableEq, Repr, Inhabited

namespace Kind

def node : Kind → Int → Node
  | moves, amount => .command (.move amount)
  | adds, amount => .command (.add amount)

/-- The amount of a node, if the node is of the kind. -/
def amount? : Kind → Node → Option Int
  | moves, .command (.move amount) => some amount
  | adds, .command (.add amount) => some amount
  | _, _ => none

def run : Kind → List Int → Run
  | moves, amounts => .moves amounts
  | adds, amounts => .adds amounts

end Kind

inductive Phase where
  /-- Looks at the node at the index. -/
  | scan
  /-- Sums the amounts of a run that starts at `start`. -/
  | sum (kind : Kind) (start : Nat) (acc : Int)
deriving DecidableEq, Repr, Inhabited

structure State where
  nodes : List Node
  place : Nat := 0
  phase : Phase := .scan
deriving Repr, Inhabited

namespace State

/-- Looks at the node at the index, and goes on behind it or starts a sum. -/
def scan (s : State) : Except FoldFault State := do
  match ← nodeAt s.nodes s.place with
  | .command (.move _) => return { s with phase := .sum .moves s.place 0 }
  | .command (.add _) => return { s with phase := .sum .adds s.place 0 }
  | .command .clear =>
      let run := (← suffixFrom s.nodes s.place).takeWhile (· == .command .clear)
      let nodes ← drain s.nodes (s.place + 1) (s.place + run.length)
      return { s with nodes, place := s.place + 1 }
  | _ => return { s with place := s.place + 1 }

/-- Puts the sum in the place of a run that ends before the index. -/
def finish (s : State) (kind : Kind) (start : Nat) (acc : Int) : Except FoldFault State := do
  let drained ← drain s.nodes (start + 1) s.place
  let nodes ← replace drained start (kind.node acc)
  return { nodes, place := start + 1 }

/-- Adds the amount at the index to the sum, or comes to the end of the run. -/
def sum (build : Build) (s : State) (kind : Kind) (start : Nat) (acc : Int) :
    Except FoldFault State := do
  if s.place < s.nodes.length then
    match kind.amount? (← nodeAt s.nodes s.place) with
    | some amount =>
        match build.sum? acc amount with
        | some acc => return { s with place := s.place + 1, phase := .sum kind start acc }
        | none => throw .overflow
    | none => s.finish kind start acc
  else s.finish kind start acc

end State

def goOn : Except FoldFault State → Transition State (Except FoldFault Program)
  | .ok s => .next s
  | .error fault => .stop (.error fault)

/-- One turn of the loop, or of the loop in it that sums a run. -/
def step (build : Build) (s : State) : Transition State (Except FoldFault Program) :=
  match s.phase with
  | .scan =>
      if s.place < s.nodes.length then goOn s.scan
      else .stop (.ok (s.nodes.filter Node.isEffective))
  | .sum kind start acc => goOn (s.sum build kind start acc)

end FoldLoop

open FoldLoop in
/-- Folding a block in place comes to a folded block or to a fault. -/
def Program.FoldsInPlace (build : Build) (block : Program)
    (result : Except FoldFault Program) : Prop :=
  Transition.Ends (step build) { nodes := block } result

namespace FoldLoop

open Transition (Reaches Ends)

variable {build : Build} {done rest nodes : List Node} {place : Nat}

section Sums

variable {kind : Kind} {amounts : List Int} {start : Nat} {acc total : Int} {phase : Phase}

@[simp] theorem Kind.amount?_node (kind : Kind) (amount : Int) :
    kind.amount? (kind.node amount) = some amount := by
  cases kind <;> rfl

theorem step_scan_node (amount : Int) (h : nodes.drop place = kind.node amount :: rest) :
    step build ⟨nodes, place, .scan⟩ = .next ⟨nodes, place, .sum kind place 0⟩ := by
  simp only [step, if_pos (lt_length_of_drop h), State.scan, nodeAt_of_drop h]
  cases kind <;> rfl

theorem step_sum_node {amount : Int} (h : nodes.drop place = kind.node amount :: rest) :
    step build ⟨nodes, place, .sum kind start acc⟩ =
      match build.sum? acc amount with
      | some acc => .next ⟨nodes, place + 1, .sum kind start acc⟩
      | none => .stop (.error .overflow) := by
  simp only [step, State.sum, if_pos (lt_length_of_drop h), nodeAt_of_drop h, bind, Except.bind,
    Kind.amount?_node]
  cases build.sum? acc amount <;> rfl

/-- The loop that sums a run goes through it. -/
theorem reaches_sum (start : Nat) (h : nodes.drop place = amounts.map kind.node ++ rest)
    (hsum : amounts.foldlM build.sum? acc = some total) :
    Reaches (step build) ⟨nodes, place, .sum kind start acc⟩
      ⟨nodes, place + amounts.length, .sum kind start total⟩ := by
  induction amounts generalizing place acc with
  | nil =>
      obtain rfl := Option.some.inj hsum
      exact .refl
  | cons amount amounts ih =>
      rw [List.foldlM_cons] at hsum
      obtain ⟨next, hnext, hsum⟩ := Option.bind_eq_some_iff.mp hsum
      have hdrop : nodes.drop (place + 1) = amounts.map kind.node ++ rest := by
        rw [← List.tail_drop, h]
        rfl
      have hreaches := ih hdrop hsum
      rw [Nat.add_assoc, Nat.add_comm 1, ← List.length_cons (a := amount)] at hreaches
      refine .head ?_ hreaches
      rw [step_sum_node h, hnext]

/-- A sum that a build stops at is a fault. -/
theorem ends_overflow (start : Nat) (h : nodes.drop place = amounts.map kind.node ++ rest)
    (hsum : amounts.foldlM build.sum? acc = none) :
    Ends (step build) ⟨nodes, place, .sum kind start acc⟩ (.error .overflow) := by
  induction amounts generalizing place acc with
  | nil => cases hsum
  | cons amount amounts ih =>
      rw [List.foldlM_cons] at hsum
      rw [Transition.ends_iff_of_step, step_sum_node h]
      cases hnext : build.sum? acc amount with
      | none => rfl
      | some next =>
          have hdrop : nodes.drop (place + 1) = amounts.map kind.node ++ rest := by
            rw [← List.tail_drop, h]
            rfl
          exact ih hdrop (by simpa [hnext] using hsum)

/-- The first node of a run is replaced and the others are taken out. -/
theorem finish_append (first : Node) (others : List Node) :
    State.finish ⟨done ++ (first :: others ++ rest), done.length + (first :: others).length, phase⟩
        kind done.length total =
      .ok ⟨done ++ kind.node total :: rest, done.length + 1, .scan⟩ := by
  have hdrain := drain_append (done ++ [first]) others rest
  simp only [List.length_append, List.length_singleton, List.append_assoc, List.singleton_append,
    Nat.add_assoc, Nat.add_comm 1] at hdrain
  simp only [State.finish, List.cons_append, List.length_cons, hdrain, replace_append, bind,
    Except.bind]
  rfl

/-- Behind a run its sum is put in its place. -/
theorem step_sum_end (first : Node) (others : List Node)
    (hrest : ∀ m ∈ rest.head?, kind.amount? m = none) :
    step build ⟨done ++ (first :: others ++ rest), done.length + (first :: others).length,
        .sum kind done.length total⟩ =
      .next ⟨done ++ kind.node total :: rest, done.length + 1, .scan⟩ := by
  have hdrop : (done ++ (first :: others ++ rest)).drop
      (done.length + (first :: others).length) = rest := by
    rw [← List.append_assoc, ← List.length_append, List.drop_left]
  simp only [step, State.sum, finish_append]
  cases rest with
  | nil =>
      have hend : ¬ done.length + (first :: others).length <
          (done ++ (first :: others ++ [])).length := by simp
      rw [if_neg hend]
      rfl
  | cons m rest =>
      simp only [if_pos (lt_length_of_drop hdrop), nodeAt_of_drop hdrop, bind, Except.bind,
        hrest m rfl]
      rfl

end Sums

section Runs

variable {r : Run} {n : Node}

theorem nodeBy_run (kind : Kind) (amounts : List Int) :
    (kind.run amounts).nodeBy build = (amounts.foldlM build.sum? 0).map kind.node := by
  cases kind <;> rfl

theorem nodes_run (kind : Kind) (amounts : List Int) :
    (kind.run amounts).nodes = amounts.map kind.node := by
  cases kind <;> rfl

theorem amount?_eq_none {kind : Kind} {amounts : List Int} {m : Node}
    (h : ¬(kind.run amounts).node.Alike m) : kind.amount? m = none := by
  unfold Kind.amount?
  split
  next => exact absurd trivial h
  next => exact absurd trivial h
  next => rfl

/-- A run of amounts is replaced by its sum. -/
theorem reaches_sums (kind : Kind) {amounts : List Int}
    (hnonempty : (kind.run amounts).nodes ≠ [])
    (hnode : (kind.run amounts).nodeBy build = some n)
    (hrest : ∀ m ∈ rest.head?, ¬(kind.run amounts).node.Alike m) :
    Reaches (step build) ⟨done ++ ((kind.run amounts).nodes ++ rest), done.length, .scan⟩
      ⟨done ++ n :: rest, done.length + 1, .scan⟩ := by
  rw [nodeBy_run] at hnode
  obtain ⟨total, hsum, rfl⟩ := Option.map_eq_some_iff.mp hnode
  rw [nodes_run] at hnonempty ⊢
  have hdrop : (done ++ (amounts.map kind.node ++ rest)).drop done.length =
      amounts.map kind.node ++ rest := List.drop_left
  have hreaches := reaches_sum done.length hdrop hsum
  rw [← List.length_map kind.node] at hreaches
  obtain ⟨amount, amounts, rfl⟩ := List.exists_cons_of_ne_nil (mt (congrArg _) hnonempty)
  refine .head (step_scan_node amount hdrop) (hreaches.tail ?_)
  exact step_sum_end (kind.node amount) (amounts.map kind.node) fun m hm =>
    amount?_eq_none (hrest m hm)

/-- Of neighbouring clears the first is left. -/
theorem step_scan_clears (count : Nat) (hrest : ∀ m ∈ rest.head?, m ≠ .command .clear) :
    step build
        ⟨done ++ (List.replicate (count + 1) (.command .clear) ++ rest), done.length, .scan⟩ =
      .next ⟨done ++ .command .clear :: rest, done.length + 1, .scan⟩ := by
  have hdrop : (done ++ (List.replicate (count + 1) (Node.command .clear) ++ rest)).drop
      done.length = List.replicate (count + 1) (.command .clear) ++ rest := List.drop_left
  have hplace := lt_length_of_drop hdrop
  have hrun : (List.replicate (count + 1) (Node.command .clear) ++ rest).takeWhile
      (· == .command .clear) = List.replicate (count + 1) (.command .clear) := by
    rw [List.takeWhile_append_of_pos (by simp)]
    cases rest with
    | nil => simp
    | cons m rest => simp [hrest m rfl]
  have hdrain := drain_append (done ++ [.command .clear])
    (List.replicate count (.command .clear)) rest
  simp only [List.length_append, List.length_singleton, List.append_assoc, List.singleton_append,
    Nat.add_assoc, Nat.add_comm 1, List.length_replicate, ← List.cons_append,
    ← List.replicate_succ] at hdrain
  simp only [step, State.scan, if_pos hplace, nodeAt_of_drop hdrop, suffixFrom,
    if_pos (Nat.le_of_lt hplace), hdrop, hrun, hdrain, List.length_replicate, bind, Except.bind]
  rfl

/-- A node that is neither summed nor a clear is left. -/
theorem step_scan_other (hamount : ∀ kind : Kind, kind.amount? n = none)
    (hclear : n ≠ .command .clear) :
    step build ⟨done ++ n :: rest, done.length, .scan⟩ =
      .next ⟨done ++ n :: rest, done.length + 1, .scan⟩ := by
  have hdrop : (done ++ n :: rest).drop done.length = n :: rest := List.drop_left
  simp only [step, State.scan, if_pos (lt_length_of_drop hdrop), nodeAt_of_drop hdrop, bind,
    Except.bind]
  match n with
  | .command (.move amount) => cases hamount .moves
  | .command (.add amount) => cases hamount .adds
  | .command .clear => exact absurd rfl hclear
  | .command .print => rfl
  | .command .read => rfl
  | .loop id body => rfl

/-- The loop puts one node in the place of a run. -/
theorem reaches_run (hnonempty : r.nodes ≠ []) (hnode : r.nodeBy build = some n)
    (hrest : ∀ m ∈ rest.head?, ¬r.node.Alike m) :
    Reaches (step build) ⟨done ++ (r.nodes ++ rest), done.length, .scan⟩
      ⟨done ++ n :: rest, done.length + 1, .scan⟩ := by
  match r with
  | .moves amounts => exact reaches_sums .moves hnonempty hnode hrest
  | .adds amounts => exact reaches_sums .adds hnonempty hnode hrest
  | .clears 0 => exact absurd rfl hnonempty
  | .clears (count + 1) =>
      obtain rfl := Option.some.inj hnode
      refine .single (step_scan_clears count fun m hm heq => hrest m hm ?_)
      rw [heq]
      trivial
  | .print | .read | .loop _ _ =>
      obtain rfl := Option.some.inj hnode
      refine .single (step_scan_other (fun kind => ?_) nofun)
      cases kind <;> rfl

theorem ends_sums_overflow (kind : Kind) {amounts : List Int}
    (hnode : (kind.run amounts).nodeBy build = none) :
    Ends (step build) ⟨done ++ ((kind.run amounts).nodes ++ rest), done.length, .scan⟩
      (.error .overflow) := by
  rw [nodeBy_run, Option.map_eq_none_iff] at hnode
  rw [nodes_run]
  have hdrop : (done ++ (amounts.map kind.node ++ rest)).drop done.length =
      amounts.map kind.node ++ rest := List.drop_left
  have hends := ends_overflow done.length hdrop hnode
  cases amounts with
  | nil => cases hnode
  | cons amount amounts =>
      rw [Transition.ends_iff_of_step, step_scan_node amount hdrop]
      exact hends

/-- A run whose sum a build stops at stops the loop. -/
theorem ends_run_overflow (hnode : r.nodeBy build = none) :
    Ends (step build) ⟨done ++ (r.nodes ++ rest), done.length, .scan⟩ (.error .overflow) := by
  match r with
  | .moves amounts => exact ends_sums_overflow .moves hnode
  | .adds amounts => exact ends_sums_overflow .adds hnode
  | .clears _ | .print | .read | .loop _ _ => cases hnode

/-- The first node behind a run is not of its kind. -/
theorem not_alike_head {runs : List Run} (hnonempty : ∀ s ∈ runs, s.nodes ≠ [])
    (hhead : ∀ s ∈ runs.head?, ¬r.node.Alike s.node) :
    ∀ m ∈ (runs.flatMap Run.nodes).head?, ¬r.node.Alike m := by
  cases runs with
  | nil => simp
  | cons s runs =>
      obtain ⟨first, others, hnodes⟩ := List.exists_cons_of_ne_nil (hnonempty s List.mem_cons_self)
      intro m hm halike
      rw [List.flatMap_cons, hnodes] at hm
      obtain rfl : first = m := by simpa using hm
      have hfirst : s.node.Alike r.node ↔ first.Alike r.node :=
        Run.alike_node_iff (hnodes ▸ List.mem_cons_self)
      rw [Node.alike_comm, ← hfirst, Node.alike_comm] at halike
      exact hhead s rfl halike

/-- From an index behind nodes that are done, the loop puts one node in the place of each run
to come. -/
theorem ends_scan (build : Build) (done : List Node) {runs : List Run}
    (hnonempty : ∀ s ∈ runs, s.nodes ≠ [])
    (hapart : runs.IsChain fun r s => ¬r.node.Alike s.node) :
    Ends (step build) ⟨done ++ runs.flatMap Run.nodes, done.length, .scan⟩
      ((runs.mapM (Run.nodeBy build)).elim (.error .overflow)
        fun nodes => .ok ((done ++ nodes).filter Node.isEffective)) := by
  -- Induction on the runs to come: those before them stay as they are.
  induction runs generalizing done with
  | nil =>
      rw [Transition.ends_iff_of_step]
      simp [step]
  | cons r runs ih =>
      obtain ⟨hr, hnonempty⟩ := List.forall_mem_cons.mp hnonempty
      obtain ⟨hhead, hapart⟩ := List.isChain_cons.mp hapart
      rw [List.flatMap_cons, List.mapM_cons]
      cases hnode : r.nodeBy build with
      | none => exact ends_run_overflow hnode
      | some n =>
          have hrest := not_alike_head hnonempty hhead
          refine Transition.ends_of_reaches (reaches_run hr hnode hrest) ?_
          have hends := ih (done ++ [n]) hnonempty hapart
          simp only [List.append_assoc, List.singleton_append, List.length_append,
            List.length_singleton] at hends
          cases hnodes : runs.mapM (Run.nodeBy build) with
          | none => rwa [hnodes] at hends
          | some nodes => rwa [hnodes] at hends

end Runs

end FoldLoop

namespace Program

/-- Folding in place does what folding does in either build, and stops only where a sum
does. -/
theorem foldsInPlace_foldBy (build : Build) (block : Program) :
    block.FoldsInPlace build ((block.foldBy build).elim (.error .overflow) .ok) := by
  obtain ⟨hnodes, hnonempty, hapart⟩ := cutInto_runs block
  have hends := FoldLoop.ends_scan build [] hnonempty hapart
  rw [List.nil_append, hnodes] at hends
  rw [foldBy, Option.elim_map]
  exact hends

/-- Folding in place always ends, and no index or range is out of the block. A block can be
cut into runs in one way, and where no sum of a run has more than 32 bits, what folding
gives is one node in the place of each run, but for those that have no effect. -/
theorem foldsInPlace_maximal_runs (block : Program) :
    (∀ build, ∃ result, block.FoldsInPlace build result ∧ result ≠ .error .outOfRange) ∧
      ∃ runs, (∀ runs', block.CutInto runs' ↔ runs' = runs) ∧
        block.fold = (runs.map Run.node).filter Node.isEffective ∧
        ∀ build, (∀ r ∈ runs, ∀ sum ∈ r.sums, FitsInt32 sum) →
          block.FoldsInPlace build (.ok ((runs.map Run.node).filter Node.isEffective)) := by
  refine ⟨fun build => ⟨_, foldsInPlace_foldBy build block, ?_⟩, block.runs,
    fun _ => cutInto_iff_eq_runs, ?_, fun build hfits => ?_⟩
  · cases block.foldBy build <;> nofun
  · rw [fold, mergeRuns_eq_map_runs]
  · have hsums : ∀ sum ∈ block.sums, FitsInt32 sum := by
      intro sum hsum
      obtain ⟨r, hr, hsum⟩ := List.mem_flatMap.mp hsum
      exact hfits r hr sum hsum
    have hends := foldsInPlace_foldBy build block
    rwa [foldBy_eq build hsums, Option.elim_some, fold, mergeRuns_eq_map_runs] at hends

/-- Runs of all kinds next to each other, a sum as large as 32 bits allow, and an empty
loop. -/
theorem foldsInPlace_maximal_runs_neighbours :
    let block : Program :=
      [.command (.move 2147483647), .command (.move (-2147483647)), .command (.add 1),
        .command .clear, .command .clear, .command .clear, .command (.add (-1)),
        .command (.add 1), .loop 3 [], .loop 4 [.command (.add 0)], .command (.move 1)]
    let runs : List Run :=
      [.moves [2147483647, -2147483647], .adds [1], .clears 3, .adds [-1, 1], .loop 3 [],
        .loop 4 [.command (.add 0)], .moves [1]]
    block.CutInto runs ∧ (∀ r ∈ runs, ∀ sum ∈ r.sums, FitsInt32 sum) ∧
      ∀ build, block.FoldsInPlace build
        (.ok [.command (.add 1), .command .clear, .loop 4 [.command (.add 0)],
          .command (.move 1)]) := by
  intro block runs
  obtain ⟨-, found, hcut, -, hbuilds⟩ := foldsInPlace_maximal_runs block
  have hruns : block.CutInto runs := cutInto_runs block
  obtain rfl := (hcut runs).mp hruns
  have hfits : ∀ r ∈ runs, ∀ sum ∈ r.sums, FitsInt32 sum := by decide
  exact ⟨hruns, hfits, fun build => hbuilds build hfits⟩

end Program

end TapeCompiler
