import TapeCompiler.Program.Parser
import TapeCompiler.Proofs.NestedLoops
import Mathlib.Data.List.Nodup

/-!
# The ids of loops

`Program.loopIds` lists the ids of the loops of a program, a loop before the loops in
it. The parser hands out every number at most once, also where a loop becomes a clear.
Passes only leave loops out. So the loops of a program that was read and optimized have
ids of their own: `nodup_loopIds_optimize`.
-/

namespace TapeCompiler

def Node.loopIds : Node → List Nat
  | command _ => []
  | loop id body => id :: body.flatMap loopIds

/-- The ids of the loops of a program, in the order in which the loops open. -/
def Program.loopIds (p : Program) : List Nat :=
  p.flatMap Node.loopIds

@[simp] theorem Node.loopIds_command (c : Command) : (command c).loopIds = [] := by
  rw [loopIds]

@[simp] theorem Node.loopIds_loop (id : Nat) (body : Program) :
    (loop id body).loopIds = id :: body.loopIds := by
  rw [loopIds, Program.loopIds]

namespace Program

@[simp] theorem loopIds_nil : loopIds [] = [] := rfl

@[simp] theorem loopIds_cons (n : Node) (rest : Program) :
    loopIds (n :: rest) = n.loopIds ++ loopIds rest := rfl

theorem count_loopIds_reverse (i : Nat) (p : Program) :
    (loopIds p.reverse).count i = p.loopIds.count i := by
  have hperm := (List.reverse_perm p).flatMap_right Node.loopIds
  exact hperm.count_eq i

end Program

theorem Node.count_loopIds_ofBody_le (i id : Nat) (body : Program) :
    (Node.ofBody id body).loopIds.count i ≤ (id :: body.loopIds).count i := by
  unfold Node.ofBody
  split
  next => simp
  next => exact Nat.le_of_eq (by rw [Node.loopIds_loop])

namespace Parser

/-- The numbers that were used so far: those of the open loops and of the loops before
them, and those in the block at hand. -/
def usedIds (loops : List OpenLoop) (block : Program) : List Nat :=
  block.loopIds ++ loops.flatMap fun loop => loop.id :: Program.loopIds loop.before

/-- Every number is used at most once, and only if it was handed out. -/
def Fresh (loops : List OpenLoop) (block : Program) (nextId : Nat) : Prop :=
  ∀ i, (usedIds loops block).count i ≤ if i < nextId then 1 else 0

variable {loops : List OpenLoop} {block : Program} {nextId : Nat}

theorem Fresh.open_loop (h : Fresh loops block nextId) :
    Fresh (⟨nextId, block⟩ :: loops) [] (nextId + 1) := by
  intro i
  have hi := h i
  simp only [usedIds, Program.loopIds_nil, List.nil_append, List.flatMap_cons,
    List.cons_append, List.count_cons, List.count_append, beq_iff_eq] at hi ⊢
  grind

theorem Fresh.close_loop {id : Nat} {before : Program}
    (h : Fresh (⟨id, before⟩ :: loops) block nextId) :
    Fresh loops (Node.ofBody id block.reverse :: before) nextId := by
  intro i
  have hi := h i
  have hbody := Node.count_loopIds_ofBody_le i id block.reverse
  rw [List.count_cons, Program.count_loopIds_reverse] at hbody
  simp only [usedIds, Program.loopIds_cons, List.flatMap_cons, List.cons_append,
    List.count_cons, List.count_append] at hi ⊢
  omega

theorem Fresh.command (h : Fresh loops block nextId) (commands : List Command) :
    Fresh loops (commands.map .command ++ block) nextId := by
  induction commands with
  | nil => exact h
  | cons c commands ih => simpa [Fresh, usedIds] using ih

theorem fresh_of_finish {line : Nat} {p : Program} (h : Fresh loops block nextId)
    (hp : finish line block loops = .ok p) : Fresh [] p nextId := by
  cases loops with
  | nil =>
      cases hp
      intro i
      simpa [usedIds, Program.count_loopIds_reverse] using h i
  | cons loop loops => cases hp

/-- Whatever is read uses every number at most once, and only numbers that were handed
out before the reading or in it. -/
theorem fresh_of_readBlock {line : Nat} {tokens : List Token} {p : Program}
    (h : Fresh loops block nextId)
    (hp : (readBlock block loops line nextId tokens).1 = .ok p) :
    Fresh [] p (readBlock block loops line nextId tokens).2.nextId := by
  induction tokens generalizing loops block line nextId with
  | nil => exact fresh_of_finish h hp
  | cons token rest ih =>
      obtain ⟨s | _, line'⟩ := token
      · cases s with
        | openLoop => exact ih h.open_loop hp
        | closeLoop =>
            cases loops with
            | nil => cases hp
            | cons loop loops => exact ih h.close_loop hp
        | _ => exact ih (h.command _) hp
      · exact fresh_of_finish h hp

theorem fresh_nil (nextId : Nat) : Fresh [] [] nextId := by
  simp [Fresh, usedIds]

theorem Fresh.nodup (h : Fresh [] block nextId) : block.loopIds.Nodup := by
  rw [List.nodup_iff_count_le_one]
  intro i
  have hi := h i
  simp only [usedIds, List.flatMap_nil, List.append_nil] at hi
  split at hi <;> omega

theorem Fresh.lt_of_mem (h : Fresh [] block nextId) {i : Nat} (hi : i ∈ block.loopIds) :
    i < nextId := by
  have hused := h i
  simp only [usedIds, List.flatMap_nil, List.append_nil] at hused
  have hcount := List.count_pos_iff.mpr hi
  split at hused <;> omega

end Parser

namespace Program

/-- Loops that were read have ids of their own. -/
theorem nodup_loopIds_ofTokens {tokens : List Token} {p : Program}
    (hp : ofTokens tokens = .ok p) : p.loopIds.Nodup :=
  (Parser.fresh_of_readBlock (Parser.fresh_nil 0) hp).nodup

theorem loopIds_eq_map_nestedLoops (p : Program) (enclosing : List Nat) :
    p.loopIds = (p.nestedLoops enclosing).map NestedLoop.id := by
  induction p using Program.induction generalizing enclosing with
  | nil => rfl
  | command c rest ih => rw [loopIds_cons, Node.loopIds_command, ih enclosing]; rfl
  | loop id body rest ihBody ih =>
      rw [loopIds_cons, Node.loopIds_loop, ihBody (id :: enclosing), ih enclosing, nestedLoops,
        List.map_append]
      rfl

/-- Passes leave loops out, and keep the ids and the order of the others. -/
theorem loopIds_optimize_sublist (p : Program) (passes : Nat) :
    (p.optimize passes).loopIds.Sublist p.loopIds := by
  have hloops := (nestedLoops_optimize_sublist p passes []).map NestedLoop.id
  rwa [List.map_map, ← loopIds_eq_map_nestedLoops, NestedLoop.id_comp_mapBody,
    ← loopIds_eq_map_nestedLoops] at hloops

/-- The loops of a program that was read and optimized have ids of their own. -/
theorem nodup_loopIds_optimize {source : String} {p : Program}
    (hp : ofSource source = .ok p) (passes : Nat) : (p.optimize passes).loopIds.Nodup :=
  (nodup_loopIds_ofTokens hp).sublist (loopIds_optimize_sublist p passes)

end Program

end TapeCompiler
