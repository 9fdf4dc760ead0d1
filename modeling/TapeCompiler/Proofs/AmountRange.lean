import TapeCompiler.Proofs.Weight

/-!
# Amounts of 32 bits

A build of the optimizer that keeps amounts in 32 bits may do two things with a sum that
does not fit: it wraps, or it stops. `Program.optimizeBy` is the optimizer of either
build; it sums the amounts of each run from the left, as `Program.fold` does not have to.

Where no sum is larger than 32 bits, both builds do what the optimizer does on exact
numbers, pass by pass (`optimizeBy_eq`). Of a program that was read from a source of at
most 2147483647 symbols this is so, whatever the number of passes: no sum is larger than
the weight of the program, and passes add no weight (`optimize_fits_int32`).
-/

namespace TapeCompiler

/-- A number that 32 bits with a sign can hold. -/
def FitsInt32 (value : Int) : Prop :=
  Int32.minValue.toInt ≤ value ∧ value ≤ Int32.maxValue.toInt

instance (value : Int) : Decidable (FitsInt32 value) :=
  inferInstanceAs (Decidable (_ ∧ _))

theorem fitsInt32_iff {value : Int} :
    FitsInt32 value ↔ -2147483648 ≤ value ∧ value ≤ 2147483647 := by
  have hmin : Int32.minValue.toInt = -2147483648 := by decide
  have hmax : Int32.maxValue.toInt = 2147483647 := by decide
  rw [FitsInt32, hmin, hmax]

/-- What the amounts of a program may weigh together, so that every sum of them fits. -/
def maxWeight : Nat := 2147483647

theorem fitsInt32_of_natAbs_le {value : Int} (h : value.natAbs ≤ maxWeight) :
    FitsInt32 value := by
  rw [maxWeight] at h
  rw [fitsInt32_iff]
  omega

/-- What a build does with a sum that has more than 32 bits. -/
inductive Build where
  | wrapping
  | checked
deriving DecidableEq, Repr, Inhabited

namespace Build

/-- The sum of two amounts. There is none where a checked build stops. -/
def sum? : Build → Int → Int → Option Int
  | wrapping, a, b => some (Int32.ofInt (a + b)).toInt
  | checked, a, b => if FitsInt32 (a + b) then some (a + b) else none

variable (build : Build)

theorem sum?_eq {a b : Int} (h : FitsInt32 (a + b)) : build.sum? a b = some (a + b) := by
  cases build with
  | checked => exact if_pos h
  | wrapping =>
      have hfits : (Int32.ofInt (a + b)).toInt = a + b :=
        Int32.toInt_ofInt_of_le h.1 (Int.lt_add_one_of_le h.2)
      rw [sum?, hfits]

theorem foldlM_sum? {amounts : List Int} {start : Int}
    (h : ∀ sum ∈ amounts.scanl (· + ·) start, FitsInt32 sum) :
    amounts.foldlM build.sum? start = some (amounts.foldl (· + ·) start) := by
  induction amounts generalizing start with
  | nil => rfl
  | cons amount amounts ih =>
      rw [List.scanl_cons] at h
      have hrest := (List.forall_mem_cons.mp h).2
      have hfirst : start + amount ∈ amounts.scanl (· + ·) (start + amount) := by
        cases amounts <;> simp
      rw [List.foldlM_cons, build.sum?_eq (hrest _ hfirst), List.foldl_cons]
      exact ih hrest

end Build

namespace Run

variable (build : Build)

/-- The node that a build puts in the place of a run. -/
def nodeBy : Run → Option Node
  | moves amounts => (amounts.foldlM build.sum? 0).map fun sum => .command (.move sum)
  | adds amounts => (amounts.foldlM build.sum? 0).map fun sum => .command (.add sum)
  | r => some r.node

theorem nodeBy_eq {r : Run} (h : ∀ sum ∈ r.sums, FitsInt32 sum) :
    r.nodeBy build = some r.node := by
  cases r with
  | moves amounts => rw [nodeBy, build.foldlM_sum? h]; rfl
  | adds amounts => rw [nodeBy, build.foldlM_sum? h]; rfl
  | _ => rfl

variable {build}

theorem eq_loop_of_nodeBy {r : Run} {id : Nat} {body : Program}
    (h : r.nodeBy build = some (.loop id body)) : r = .loop id body := by
  cases r <;> simp_all [nodeBy, node]

end Run

section Traversal

variable {α β : Type} {f : α → Option β}

theorem mapM_eq_some_map {g : α → β} {items : List α} (h : ∀ item ∈ items, f item = some (g item)) :
    items.mapM f = some (items.map g) := by
  induction items with
  | nil => rfl
  | cons item items ih =>
      obtain ⟨hitem, hitems⟩ := List.forall_mem_cons.mp h
      simp [List.mapM_cons, hitem, ih hitems]

theorem exists_of_mem_mapM {items : List α} {results : List β} (h : items.mapM f = some results)
    {result : β} (hresult : result ∈ results) : ∃ item ∈ items, f item = some result := by
  induction items generalizing results with
  | nil =>
      obtain rfl : results = [] := by simpa using h
      cases hresult
  | cons item items ih =>
      rw [List.mapM_cons] at h
      obtain ⟨first, hfirst, h⟩ := Option.bind_eq_some_iff.mp h
      obtain ⟨others, hothers, h⟩ := Option.bind_eq_some_iff.mp h
      obtain rfl : first :: others = results := Option.some.inj h
      rcases List.mem_cons.mp hresult with rfl | hresult
      · exact ⟨item, List.mem_cons_self, hfirst⟩
      · obtain ⟨i, hi, hf⟩ := ih hothers hresult
        exact ⟨i, List.mem_cons_of_mem item hi, hf⟩

end Traversal

namespace Program

variable (build : Build)

/-- Folds a block as a build does. -/
def foldBy (block : Program) : Option Program :=
  (block.runs.mapM (Run.nodeBy build)).map (List.filter Node.isEffective)

variable {build}

theorem loop_mem_of_mem_foldBy {id : Nat} {body block folded : Program}
    (h : block.foldBy build = some folded) (hmem : .loop id body ∈ folded) :
    .loop id body ∈ block := by
  obtain ⟨nodes, hnodes, rfl⟩ := Option.map_eq_some_iff.mp h
  obtain ⟨r, hr, hnode⟩ := exists_of_mem_mapM hnodes (List.mem_filter.mp hmem).1
  obtain rfl := Run.eq_loop_of_nodeBy hnode
  exact loop_mem_of_mem_runs hr

variable (build)

/-- Folds a block as a build does, and then the bodies of the loops that are left. -/
def foldAllBy (block : Program) : Option Program :=
  (block.foldBy build).pbind fun folded _ => folded.attach.mapM fun
    | ⟨.command c, _⟩ => some (.command c)
    | ⟨.loop id body, _⟩ => (foldAllBy body).map (.loop id)
termination_by sizeOf block
decreasing_by
  rename_i hfold hmem
  have hlt := List.sizeOf_lt_of_mem (loop_mem_of_mem_foldBy hfold hmem)
  simp only [Node.loop.sizeOf_spec] at hlt
  omega

/-- Folds the body of a loop and of the loops in it as a build does. -/
def foldBodyBy : Node → Option Node
  | .command c => some (.command c)
  | .loop id body => (foldAllBy build body).map (.loop id)

theorem foldAllBy_unfold (block : Program) :
    block.foldAllBy build =
      (block.foldBy build).bind fun folded => folded.mapM (foldBodyBy build) := by
  have hbodies (folded : Program) :
      (folded.attach.mapM fun
        | ⟨.command c, _⟩ => some (.command c)
        | ⟨.loop id body, _⟩ => (foldAllBy build body).map (.loop id)) =
        folded.mapM (foldBodyBy build) := by
    conv_rhs => rw [← List.attach_map_subtype_val folded, List.mapM_map]
    congr 1
    funext ⟨n, hn⟩
    cases n <;> rfl
  rw [foldAllBy, ← Option.pbind_eq_bind]
  congr 1
  funext folded hfolded
  exact hbodies folded

/-- One pass of a build over a program. -/
def passBy (p : Program) : Option Program :=
  (p.foldAllBy build).map dropUnreachable

/-- A number of passes of a build over a program. -/
def optimizeBy (p : Program) : Nat → Option Program
  | 0 => some p
  | passes + 1 => (p.optimizeBy passes).bind (passBy build)

variable {p block : Program}

theorem foldBy_eq (h : ∀ sum ∈ block.sums, FitsInt32 sum) :
    block.foldBy build = some block.fold := by
  have hnodes : block.runs.mapM (Run.nodeBy build) = some (block.runs.map Run.node) :=
    mapM_eq_some_map fun r hr => r.nodeBy_eq build fun sum hsum =>
      h sum (List.mem_flatMap.mpr ⟨r, hr, hsum⟩)
  rw [foldBy, hnodes, ← mergeRuns_eq_map_runs, Option.map_some, fold]

theorem fitsInt32_of_mem_sums (h : block.weight ≤ maxWeight) :
    ∀ sum ∈ block.sums, FitsInt32 sum :=
  fun _ hsum => fitsInt32_of_natAbs_le (Nat.le_trans (natAbs_le_weight_of_mem_sums hsum) h)

theorem foldAllBy_eq (h : p.weight ≤ maxWeight) : p.foldAllBy build = some p.foldAll := by
  induction p using Program.induction_bodies with
  | block p ih =>
      rw [foldAllBy_unfold, foldBy_eq build (fitsInt32_of_mem_sums h), Option.bind_some,
        foldAll_eq]
      refine mapM_eq_some_map fun n hn => ?_
      cases n with
      | command c => rfl
      | loop id body =>
          have hmem := mem_of_loop_mem_fold hn
          have hbody := ih id body hmem (Nat.le_trans (weight_le_of_mem hmem) h)
          rw [foldBodyBy, hbody]
          rfl

theorem passBy_eq (h : p.weight ≤ maxWeight) : p.passBy build = some p.pass := by
  rw [passBy, foldAllBy_eq build h, Option.map_some, pass]

/-- Where no amounts weigh too much, both builds do what the optimizer does. -/
theorem optimizeBy_eq (h : p.weight ≤ maxWeight) (passes : Nat) :
    p.optimizeBy build passes = some (p.optimize passes) := by
  induction passes with
  | zero => rfl
  | succ passes ih =>
      have hle := Nat.le_trans (weight_optimize_le p passes) h
      rw [optimizeBy, ih, Option.bind_some, passBy_eq build hle, optimize_succ]

section Sums

/-- The values that sums take in one pass. Every block is folded, but for the bodies of
loops that are dropped before; these are empty, and nothing is summed in them. -/
def passSums (p : Program) : List Int :=
  p.blocks.flatMap sums

/-- The values that sums take in a number of passes. -/
def optimizeSums (p : Program) (passes : Nat) : List Int :=
  (List.range passes).flatMap fun i => (p.optimize i).passSums

theorem natAbs_le_weight_of_mem_passSums {sum : Int} (h : sum ∈ p.passSums) :
    sum.natAbs ≤ p.weight := by
  obtain ⟨block, hblock, hsum⟩ := List.mem_flatMap.mp h
  exact Nat.le_trans (natAbs_le_weight_of_mem_sums hsum) (weight_le_of_mem_blocks hblock)

theorem natAbs_le_weight_of_mem_optimizeSums {passes : Nat} {sum : Int}
    (h : sum ∈ p.optimizeSums passes) : sum.natAbs ≤ p.weight := by
  obtain ⟨i, -, hsum⟩ := List.mem_flatMap.mp h
  exact Nat.le_trans (natAbs_le_weight_of_mem_passSums hsum) (weight_optimize_le p i)

theorem weight_command_le {c : Command} (hblock : block ∈ p.blocks) (hc : .command c ∈ block) :
    c.weight ≤ p.weight :=
  Nat.le_trans (weight_le_of_mem hc) (weight_le_of_mem_blocks hblock)

end Sums

/-- Of a program that was read from at most 2147483647 symbols, no sum that passes form
and no amount that they leave has more than 32 bits. So builds that wrap and builds that
stop do the same, and what they do is what the optimizer does on exact numbers. -/
theorem optimize_fits_int32 {source : String} (hp : ofSource source = .ok p)
    (hsize : (sourceSymbols source).length ≤ 2147483647) (passes : Nat) :
    (∀ sum ∈ p.optimizeSums passes, FitsInt32 sum) ∧
      (∀ block ∈ (p.optimize passes).blocks, ∀ amount,
        .command (.move amount) ∈ block ∨ .command (.add amount) ∈ block → FitsInt32 amount) ∧
      ∀ build, p.optimizeBy build passes = some (p.optimize passes) := by
  have hweight : p.weight ≤ maxWeight := Nat.le_trans (weight_ofSource_le hp) hsize
  have hpasses := Nat.le_trans (weight_optimize_le p passes) hweight
  refine ⟨fun sum hsum => ?_, fun block hblock amount hamount => ?_, fun build => ?_⟩
  · have hle := natAbs_le_weight_of_mem_optimizeSums hsum
    exact fitsInt32_of_natAbs_le (Nat.le_trans hle hweight)
  · have hle : amount.natAbs ≤ (p.optimize passes).weight := by
      rcases hamount with h | h
      · exact weight_command_le hblock h
      · exact weight_command_le hblock h
    exact fitsInt32_of_natAbs_le (Nat.le_trans hle hpasses)
  · exact optimizeBy_eq build hweight passes

/-- Moves that meet only after the first pass, and sums in a loop. -/
theorem optimize_fits_int32_cancelled_adds :
    let source := ">>+-<,[--->++<]"
    let p : Program :=
      [.command (.move 1), .command (.move 1), .command (.add 1), .command (.add (-1)),
        .command (.move (-1)), .command .read,
        .loop 0 [.command (.add (-1)), .command (.add (-1)), .command (.add (-1)),
          .command (.move 1), .command (.add 1), .command (.add 1), .command (.move (-1))]]
    let sums : List Int :=
      [0, 1, 2, 0, 1, 0, 0, -1, 0, -1, -2, -3, 0, 1, 0, 1, 2, 0, -1,
        0, 2, 1, 0, -3, 0, 1, 0, 2, 0, -1]
    let q : Program :=
      [.command (.move 1), .command .read,
        .loop 0 [.command (.add (-3)), .command (.move 1), .command (.add 2),
          .command (.move (-1))]]
    ofSource source = .ok p ∧ (sourceSymbols source).length ≤ 2147483647 ∧
      p.optimizeSums 2 = sums ∧ (∀ sum ∈ sums, FitsInt32 sum) ∧
      ∀ build, p.optimizeBy build 2 = some q := by
  intro source p sums q
  have hread : ofSource source = .ok p := by decide +kernel
  have hsize : (sourceSymbols source).length ≤ 2147483647 := by decide +kernel
  have hsums : p.optimizeSums 2 = sums := by decide +kernel
  have hq : p.optimize 2 = q := by decide +kernel
  obtain ⟨hfits, -, hbuilds⟩ := optimize_fits_int32 hread hsize 2
  rw [hsums] at hfits
  rw [hq] at hbuilds
  exact ⟨hread, hsize, hsums, hfits, hbuilds⟩

end Program

end TapeCompiler
