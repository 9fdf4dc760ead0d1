import TapeCompiler.Proofs.Blocks
import TapeCompiler.Proofs.Reduction
import TapeCompiler.Proofs.Shrinking
import Mathlib.Data.List.Chain

/-!
# What a pass leaves alone

A pass leaves a program alone exactly if it has nothing to do there. In every block
nothing merges and nothing is without an effect (`Program.Compact`), and nothing stands at
the start that a blank tape skips (`Program.NoIdleStart`).

Each part of a pass has its own equivalence. They are put together along the blocks,
because a pass that changes nothing changes nothing in any part
(`optimize_one_eq_self_iff`).
-/

namespace TapeCompiler

namespace Node

/-- Two moves, two adds, or two clears. -/
def Alike : Node → Node → Prop
  | command (.move _), command (.move _) => True
  | command (.add _), command (.add _) => True
  | command .clear, command .clear => True
  | _, _ => False

variable {n : Node} {rest : Program}

/-- A node merges with what follows if the two are of one kind. -/
theorem apart_iff : n.Apart rest ↔ ∀ m ∈ rest.head?, ¬n.Alike m := by
  cases n with
  | loop id body => simp [apart_loop, Alike]
  | command c =>
      rw [apart_command_iff]
      match rest with
      | [] => simp
      | .loop id body :: others => simp [Alike]
      | .command d :: others => cases c <;> cases d <;> simp [Command.merge?, Alike]

theorem isEffective_iff :
    n.isEffective = true ↔
      n ≠ .command (.move 0) ∧ n ≠ .command (.add 0) ∧ ∀ id, n ≠ .loop id [] := by
  match n with
  | .command c => cases c <;> simp [isEffective]
  | .loop id body => cases body <;> simp [isEffective]

theorem isIdleOnBlank_iff :
    n.isIdleOnBlank = true ↔ n = .command .clear ∨ ∃ id body, n = .loop id body := by
  match n with
  | .command c => cases c <;> simp [isIdleOnBlank]
  | .loop id body => simp [isIdleOnBlank]

theorem touchesTape_iff :
    n.touchesTape = true ↔ n = .command .read ∨ ∃ amount, n = .command (.add amount) := by
  match n with
  | .command c => cases c <;> simp [touchesTape]
  | .loop id body => simp [touchesTape]

theorem isIdleOnBlank_of_touchesTape (h : n.touchesTape = true) :
    n.isIdleOnBlank = false := by
  rcases touchesTape_iff.mp h with rfl | ⟨amount, rfl⟩ <;> rfl

end Node

namespace Program

/-- A block in which no two neighbours are of one kind, no amount is zero and no loop is
empty. -/
structure Compact (block : Program) : Prop where
  apart : block.IsChain fun n m => ¬n.Alike m
  amounts : .command (.move 0) ∉ block ∧ .command (.add 0) ∉ block
  bodies : ∀ id, .loop id [] ∉ block

/-- Before the first add or read of a program stands no loop and no clear. -/
def NoIdleStart (p : Program) : Prop :=
  ∀ before n after, p = before ++ n :: after →
    (n = .command .clear ∨ ∃ id body, n = .loop id body) →
      ∃ m ∈ before, m = .command .read ∨ ∃ amount, m = .command (.add amount)

variable {p block rest : Program} {n : Node}

theorem mergeRuns_eq_self_iff :
    block.mergeRuns = block ↔ block.IsChain fun n m => ¬n.Alike m := by
  induction block with
  | nil => simp
  | cons n rest ih =>
      rw [List.isChain_cons, ← ih, ← Node.apart_iff, mergeRuns_cons]
      constructor
      · intro h
        have hrest := mergeRuns_tail_eq_self h
        rw [hrest] at h
        exact ⟨h, hrest⟩
      · rintro ⟨hapart, hrest⟩
        rw [hrest]
        exact hapart

theorem forall_isEffective_iff :
    (∀ n ∈ block, n.isEffective = true) ↔
      (.command (.move 0) ∉ block ∧ .command (.add 0) ∉ block) ∧
        ∀ id, .loop id [] ∉ block := by
  simp only [Node.isEffective_iff]
  constructor
  · intro h
    exact ⟨⟨fun hmem => (h _ hmem).1 rfl, fun hmem => (h _ hmem).2.1 rfl⟩,
      fun id hmem => (h _ hmem).2.2 id rfl⟩
  · rintro ⟨⟨hmove, hadd⟩, hloop⟩ n hn
    exact ⟨fun heq => hmove (heq ▸ hn), fun heq => hadd (heq ▸ hn),
      fun id heq => hloop id (heq ▸ hn)⟩

theorem fold_eq_self_iff : block.fold = block ↔ block.Compact := by
  have hcompact : block.Compact ↔
      block.mergeRuns = block ∧ ∀ n ∈ block, n.isEffective = true := by
    rw [mergeRuns_eq_self_iff, forall_isEffective_iff]
    exact ⟨fun h => ⟨h.apart, h.amounts, h.bodies⟩, fun ⟨ha, hm, hb⟩ => ⟨ha, hm, hb⟩⟩
  rw [hcompact]
  constructor
  · exact fun h => ⟨mergeRuns_eq_self h, fun n => isEffective_of_mem h⟩
  · rintro ⟨hmerge, heffective⟩
    rw [fold, hmerge]
    exact List.filter_eq_self.mpr heffective

theorem foldAll_eq_self_iff : p.foldAll = p ↔ ∀ block ∈ p.blocks, block.Compact := by
  induction p using Program.induction_bodies with
  | block p ih =>
      rw [forall_mem_blocks, ← fold_eq_self_iff]
      constructor
      · intro h
        refine ⟨fold_eq_self h, fun id body hbody => (ih id body hbody).mp ?_⟩
        simpa [Node.foldBody] using foldBody_eq_self h hbody
      · rintro ⟨hfold, hbodies⟩
        rw [foldAll_eq, hfold]
        refine (List.map_congr_left fun n hn => ?_).trans (List.map_id p)
        cases n with
        | command c => rfl
        | loop id body =>
            exact congrArg (Node.loop id) ((ih id body hn).mpr (hbodies id body hn))

theorem noIdleStart_cons :
    NoIdleStart (n :: rest) ↔
      n.touchesTape = true ∨ n.isIdleOnBlank = false ∧ NoIdleStart rest := by
  simp only [NoIdleStart, ← Node.isIdleOnBlank_iff, ← Node.touchesTape_iff]
  constructor
  · intro h
    cases htouches : n.touchesTape with
    | true => exact .inl rfl
    | false =>
        refine .inr ⟨?_, fun before m after heq hidle => ?_⟩
        · by_contra hidle
          obtain ⟨m, hm, -⟩ := h [] n rest rfl (by simpa using hidle)
          cases hm
        · obtain ⟨m', hm', ht⟩ := h (n :: before) m after (by rw [heq]; rfl) hidle
          rcases List.mem_cons.mp hm' with rfl | hm'
          · rw [htouches] at ht
            cases ht
          · exact ⟨m', hm', ht⟩
  · intro h before m after heq hidle
    cases before with
    | nil =>
        obtain ⟨rfl, rfl⟩ := List.cons.inj heq
        rcases h with htouches | ⟨hn, -⟩
        · rw [Node.isIdleOnBlank_of_touchesTape htouches] at hidle
          cases hidle
        · rw [hn] at hidle
          cases hidle
    | cons first before =>
        obtain ⟨rfl, rfl⟩ := List.cons.inj heq
        rcases h with htouches | ⟨-, hrest⟩
        · exact ⟨n, List.mem_cons_self, htouches⟩
        · obtain ⟨m', hm', ht⟩ := hrest before m after rfl hidle
          exact ⟨m', List.mem_cons_of_mem n hm', ht⟩

theorem dropUnreachable_ne_cons (n : Node) (rest : Program) :
    dropUnreachable rest ≠ n :: rest := by
  intro heq
  have hle := (dropUnreachable_shrinks rest).nodeCount_le
  have hpos := n.nodeCount_pos
  rw [heq, nodeCount_cons] at hle
  omega

theorem dropUnreachable_eq_self_iff : p.dropUnreachable = p ↔ p.NoIdleStart := by
  induction p with
  | nil => simp [NoIdleStart]
  | cons n rest ih =>
      rw [noIdleStart_cons, ← ih, dropUnreachable_cons]
      cases htouches : n.touchesTape with
      | true => simp
      | false =>
          cases hidle : n.isIdleOnBlank with
          | true => simpa using dropUnreachable_ne_cons n rest
          | false => simp

/-- One pass leaves a program alone exactly if, in the program and in the body of every
loop at any depth, no two moves, adds or clears are neighbours, no amount is zero and no
loop is empty, and no loop or clear of the program itself stands before its first add or
read. -/
theorem optimize_one_eq_self_iff (p : Program) :
    p.optimize 1 = p ↔ (∀ block ∈ p.blocks, block.Compact) ∧ p.NoIdleStart := by
  rw [← foldAll_eq_self_iff, ← dropUnreachable_eq_self_iff, optimize_succ, optimize_zero]
  constructor
  · exact fun h => ⟨foldAll_eq_self h, dropUnreachable_eq_self h⟩
  · rintro ⟨hfold, hdrop⟩
    rw [pass, hfold, hdrop]

end Program

end TapeCompiler
