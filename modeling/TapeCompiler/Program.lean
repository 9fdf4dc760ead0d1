/-!
# Programs

A program is a list of nodes, and a node is a command or a loop around a list of nodes.
Amounts are exact integers. They are reduced only where something is done with them:
`stepByte` is the byte by which an `add` changes a cell.

`Program.induction` is the induction that proofs about programs use: a program is
empty, or it starts with a command, or it starts with a loop, and then the body of the
loop is a program as well. Where a block is looked at as a whole,
`Program.induction_bodies` goes from the bodies of its loops to the block. Equality of
nodes is decided by `Node.beq`, which walks along a list without growing the stack.
-/

namespace TapeCompiler

/-- What a program does in one step. -/
inductive Command where
  /-- Shift the pointer by `amount` cells. -/
  | move (amount : Int)
  /-- Change the cell at the pointer by `amount`. -/
  | add (amount : Int)
  | clear
  | print
  | read
deriving DecidableEq, Repr, Inhabited

/-- A command, or a loop that runs its body while the cell at the pointer is not zero.
The number `id` tells loops with equal bodies apart. -/
inductive Node where
  | command (c : Command)
  | loop (id : Nat) (body : List Node)
deriving Repr, Inhabited

/-- Nodes in the order in which they run. -/
abbrev Program := List Node

/-- The byte that a change by `amount` adds to a cell. Cells hold bytes, so amounts
count modulo 256. -/
def stepByte (amount : Int) : UInt8 :=
  UInt8.ofInt amount

/-- The same change as a signed number, for targets with signed bytes. -/
def signedStep (amount : Int) : Int :=
  amount.bmod 256

mutual

def Node.beq : Node → Node → Bool
  | .command c, .command d => c == d
  | .loop i body, .loop j body' => i == j && Node.beqAll body body'
  | _, _ => false

def Node.beqAll : List Node → List Node → Bool
  | [], [] => true
  | n :: rest, m :: rest' => Node.beq n m && Node.beqAll rest rest'
  | _, _ => false

end

instance : BEq Node := ⟨Node.beq⟩

/-- A property of programs holds if it holds of the empty program, is kept when a
command is put in front, and is kept when a loop around a program that has it is put in
front. -/
theorem Program.induction {motive : Program → Prop} (nil : motive [])
    (command : ∀ c rest, motive rest → motive (.command c :: rest))
    (loop : ∀ id body rest, motive body → motive rest → motive (.loop id body :: rest)) :
    ∀ p : Program, motive p
  | [] => nil
  | .command c :: rest => command c rest (induction nil command loop rest)
  | .loop id body :: rest =>
      loop id body rest (induction nil command loop body) (induction nil command loop rest)

/-- A property holds of every program if a program has it as soon as the bodies of all
its loops have it. -/
theorem Program.induction_bodies {motive : Program → Prop}
    (block : ∀ p : Program, (∀ id body, .loop id body ∈ p → motive body) → motive p)
    (p : Program) : motive p := by
  apply block
  induction p using Program.induction with
  | nil => simp
  | command c rest ih => simpa using ih
  | loop id body rest ihBody ih =>
      intro i inner h
      rcases List.mem_cons.mp h with heq | h
      · cases heq
        exact block body ihBody
      · exact ih i inner h

namespace Node

theorem beqAll_iff_eq (p q : Program) : beqAll p q = true ↔ p = q := by
  induction p using Program.induction generalizing q with
  | nil => cases q <;> simp [beqAll]
  | command c rest ih =>
      cases q with
      | nil => simp [beqAll]
      | cons m rest' => cases m <;> simp [beqAll, beq, ih]
  | loop id body rest ihBody ih =>
      cases q with
      | nil => simp [beqAll]
      | cons m rest' => cases m <;> simp [beqAll, beq, ih, ihBody]

theorem beq_iff_eq (n m : Node) : n.beq m = true ↔ n = m := by
  cases n <;> cases m <;> simp [beq, beqAll_iff_eq]

instance : LawfulBEq Node where
  eq_of_beq h := (beq_iff_eq _ _).mp h
  rfl := (beq_iff_eq _ _).mpr rfl

instance : DecidableEq Node := fun n m => decidable_of_iff _ (beq_iff_eq n m)

end Node

end TapeCompiler
