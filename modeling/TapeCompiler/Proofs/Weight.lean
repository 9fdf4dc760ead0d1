import TapeCompiler.Proofs.Blocks
import TapeCompiler.Proofs.BracketFaults
import TapeCompiler.Proofs.Runs

/-!
# The weight of a program

The weight of a program is the sum of the magnitudes of its amounts, at every depth. A
program that was read weighs no more than its source has symbols, and no part of a pass
adds weight: where two amounts are summed, their magnitudes bound that of the sum. So
every sum that folding forms, in whatever pass, is bounded by the number of symbols
(`natAbs_le_weight_of_mem_sums`, `weight_optimize_le`).
-/

namespace TapeCompiler

/-- The magnitude of the amount of a command, zero if it has none. -/
def Command.weight : Command → Nat
  | move amount => amount.natAbs
  | add amount => amount.natAbs
  | _ => 0

mutual

def Node.weight : Node → Nat
  | .command c => c.weight
  | .loop _ body => Program.weight body

/-- The sum of the magnitudes of all amounts, at every depth. -/
def Program.weight : Program → Nat
  | [] => 0
  | n :: rest => Node.weight n + Program.weight rest

end

theorem Command.weight_of_merge? {c d e : Command} (h : c.merge? d = some e) :
    e.weight ≤ c.weight + d.weight := by
  cases c <;> cases d <;> cases h
  · exact Int.natAbs_add_le _ _
  · exact Int.natAbs_add_le _ _
  · exact Nat.zero_le _

namespace Run

/-- The sum of the magnitudes of amounts. -/
def magnitude : List Int → Nat
  | [] => 0
  | amount :: amounts => amount.natAbs + magnitude amounts

def weight : Run → Nat
  | moves amounts => magnitude amounts
  | adds amounts => magnitude amounts
  | _ => 0

/-- No value that a sum takes from the left is larger than the magnitudes together. -/
theorem natAbs_le_of_mem_scanl {amounts : List Int} {start sum : Int}
    (h : sum ∈ amounts.scanl (· + ·) start) :
    sum.natAbs ≤ start.natAbs + magnitude amounts := by
  induction amounts generalizing start with
  | nil =>
      obtain rfl : sum = start := by simpa using h
      exact Nat.le_add_right _ _
  | cons amount amounts ih =>
      rw [List.scanl_cons] at h
      rcases List.mem_cons.mp h with rfl | h
      · exact Nat.le_add_right _ _
      · have hle := ih h
        have hstart := Int.natAbs_add_le start amount
        rw [magnitude]
        omega

theorem natAbs_le_weight {r : Run} {sum : Int} (h : sum ∈ r.sums) : sum.natAbs ≤ r.weight := by
  have hscanl {amounts : List Int} (h : sum ∈ amounts.scanl (· + ·) 0) :
      sum.natAbs ≤ magnitude amounts := by
    simpa using natAbs_le_of_mem_scanl h
  cases r with
  | moves amounts => exact hscanl h
  | adds amounts => exact hscanl h
  | _ => cases h

theorem weight_alone_le (n : Node) : n.alone.weight ≤ n.weight := by
  rcases n with (_ | _ | _ | _ | _) | _ <;>
    simp [Node.alone, weight, magnitude, Node.weight, Command.weight]

/-- A run weighs no more than the node that was put in front and the run it joined. -/
theorem weight_le_of_mem_joinRuns {n : Node} {runs : List Run} {bound : Nat}
    (hruns : ∀ r ∈ runs, r.weight ≤ bound) {r : Run} (hr : r ∈ n.joinRuns runs) :
    r.weight ≤ n.weight + bound := by
  have hold : ∀ r ∈ runs, r.weight ≤ n.weight + bound :=
    fun r hr => Nat.le_trans (hruns r hr) (Nat.le_add_left bound _)
  unfold Node.joinRuns at hr
  split at hr <;> rcases List.mem_cons.mp hr with rfl | hr
  case h_1.inl amount amounts runs =>
    exact Nat.add_le_add_left (hruns (.moves amounts) List.mem_cons_self) amount.natAbs
  case h_2.inl amount amounts runs =>
    exact Nat.add_le_add_left (hruns (.adds amounts) List.mem_cons_self) amount.natAbs
  case h_3.inl => exact Nat.zero_le _
  case h_4.inl => exact Nat.le_trans (weight_alone_le n) (Nat.le_add_right _ bound)
  case h_4.inr => exact hold r hr
  all_goals exact hold r (List.mem_cons_of_mem _ hr)

end Run

namespace Program

variable {p q block : Program}

theorem weight_cons (n : Node) (rest : Program) :
    weight (n :: rest) = n.weight + weight rest := rfl

theorem weight_le_of_sublist (h : q.Sublist p) : q.weight ≤ p.weight := by
  induction h with
  | slnil => exact Nat.le_refl _
  | cons n _ ih => exact Nat.le_trans ih (Nat.le_add_left _ _)
  | cons_cons n _ ih => exact Nat.add_le_add_left ih n.weight

theorem weight_le_of_mem {n : Node} (h : n ∈ p) : n.weight ≤ p.weight := by
  have hle := weight_le_of_sublist (List.singleton_sublist.mpr h)
  simpa [weight] using hle

theorem weight_le_of_mem_blocks (h : block ∈ p.blocks) : block.weight ≤ p.weight := by
  induction p using Program.induction_bodies with
  | block p ih =>
      rcases mem_blocks_iff.mp h with rfl | ⟨id, body, hbody, hblock⟩
      · exact Nat.le_refl _
      · exact Nat.le_trans (ih id body hbody hblock) (weight_le_of_mem hbody)

section Sums

/-- The values that the sums of the runs of a block take. -/
def sums (block : Program) : List Int :=
  block.runs.flatMap Run.sums

theorem weight_le_of_mem_runs {r : Run} (h : r ∈ block.runs) : r.weight ≤ block.weight := by
  induction block generalizing r with
  | nil => cases h
  | cons n rest ih =>
      rw [weight_cons]
      exact Run.weight_le_of_mem_joinRuns (fun r hr => ih hr) h

/-- Every sum that is formed in a block is bounded by the weight of the block. -/
theorem natAbs_le_weight_of_mem_sums {sum : Int} (h : sum ∈ block.sums) :
    sum.natAbs ≤ block.weight := by
  obtain ⟨r, hr, hsum⟩ := List.mem_flatMap.mp h
  exact Nat.le_trans (Run.natAbs_le_weight hsum) (weight_le_of_mem_runs hr)

end Sums

section Passes

theorem weight_mergeOnto_le (n : Node) (rest : Program) :
    weight (n.mergeOnto rest) ≤ n.weight + weight rest := by
  unfold Node.mergeOnto
  split
  next c d rest =>
    split
    next e h =>
      have hle := Command.weight_of_merge? h
      simp only [weight_cons, Node.weight]
      omega
    next => exact Nat.le_refl _
  next => exact Nat.le_refl _

theorem weight_mergeRuns_le (block : Program) : block.mergeRuns.weight ≤ block.weight := by
  induction block with
  | nil => exact Nat.le_refl _
  | cons n rest ih =>
      rw [mergeRuns_cons]
      exact Nat.le_trans (weight_mergeOnto_le n _) (Nat.add_le_add_left ih n.weight)

theorem weight_fold_le (block : Program) : block.fold.weight ≤ block.weight :=
  Nat.le_trans (weight_le_of_sublist List.filter_sublist) (weight_mergeRuns_le block)

theorem weight_map_foldBody_le
    (h : ∀ (id : Nat) (body : Program), .loop id body ∈ block →
      body.foldAll.weight ≤ body.weight) :
    weight (block.map Node.foldBody) ≤ block.weight := by
  induction block with
  | nil => exact Nat.le_refl _
  | cons n rest ih =>
      have hrest := ih fun id body hmem => h id body (List.mem_cons_of_mem n hmem)
      cases n with
      | command c => exact Nat.add_le_add_left hrest c.weight
      | loop id body => exact Nat.add_le_add (h id body List.mem_cons_self) hrest

theorem weight_foldAll_le (p : Program) : p.foldAll.weight ≤ p.weight := by
  induction p using Program.induction_bodies with
  | block p ih =>
      rw [foldAll_eq]
      refine Nat.le_trans (weight_map_foldBody_le ?_) (weight_fold_le p)
      exact fun id body hmem => ih id body (mem_of_loop_mem_fold hmem)

theorem weight_pass_le (p : Program) : p.pass.weight ≤ p.weight :=
  Nat.le_trans (weight_le_of_sublist (dropUnreachable_sublist _)) (weight_foldAll_le p)

/-- No number of passes adds weight. -/
theorem weight_optimize_le (p : Program) (passes : Nat) :
    (p.optimize passes).weight ≤ p.weight := by
  induction passes with
  | zero => exact Nat.le_refl _
  | succ passes ih =>
      rw [optimize_succ]
      exact Nat.le_trans (weight_pass_le _) ih

end Passes

section Sources

theorem weight_withClears_le (p : Program) : p.withClears.weight ≤ p.weight := by
  induction p using Program.induction with
  | nil => exact Nat.le_refl _
  | command c rest ih =>
      rw [withClears_cons, Node.withClears_command]
      exact Nat.add_le_add_left ih c.weight
  | loop id body rest ihBody ih =>
      rw [withClears_cons, Node.withClears_loop]
      refine Nat.add_le_add ?_ ih
      unfold Node.ofBody
      split
      next => exact Nat.zero_le _
      next => exact ihBody

theorem weight_le_length_symbols (p : Program) : p.weight ≤ p.symbols.length := by
  induction p using Program.induction with
  | nil => exact Nat.le_refl _
  | command c rest ih =>
      have hc : c.weight ≤ c.symbols.length := by
        cases c <;> simp [Command.weight, Command.symbols]
      rw [symbols, List.flatMap_cons, List.length_append, Node.symbols_command]
      exact Nat.add_le_add hc ih
  | loop id body rest ihBody ih =>
      rw [symbols, List.flatMap_cons, List.length_append, Node.symbols_loop]
      refine Nat.add_le_add (Nat.le_trans ihBody ?_) ih
      rw [List.length_append, List.length_cons]
      omega

/-- A program that was read weighs no more than its source has symbols. -/
theorem weight_ofSource_le {source : String} (h : ofSource source = .ok p) :
    p.weight ≤ (sourceSymbols source).length := by
  obtain ⟨q, -, hspelled, hread⟩ := ofTokens_of_bracketsMatch (bracketsMatch_of_ofTokens h)
  obtain rfl : q.withClears = p := Except.ok.inj (hread.symm.trans h)
  rw [← symbols_scan, ← hspelled]
  exact Nat.le_trans (weight_withClears_le q) (weight_le_length_symbols q)

end Sources

end Program

end TapeCompiler
