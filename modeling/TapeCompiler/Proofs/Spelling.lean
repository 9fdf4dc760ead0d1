import TapeCompiler.Proofs.Brackets
import TapeCompiler.Program.Parser

/-!
# How a program is spelled

`Program.symbols` spells a program in symbols. A program is plain if every command of it
stands for a single symbol; then the spelling determines it up to the numbers of its
loops. `Program.withClears` turns the loops of a plain program that step their cell to
zero into clears, at every depth. What the parser reads is a plain program with the clears
put in.
-/

namespace TapeCompiler

def Command.symbols : Command → List Symbol
  | move amount => List.replicate amount.natAbs (if amount < 0 then .left else .right)
  | add amount => List.replicate amount.natAbs (if amount < 0 then .minus else .plus)
  | clear => [.openLoop, .plus, .closeLoop]
  | print => [.dot]
  | read => [.comma]

def Node.symbols : Node → List Symbol
  | command c => c.symbols
  | loop _ body => .openLoop :: body.flatMap symbols ++ [.closeLoop]

def Node.IsPlain : Node → Prop
  | command c => ∃ s : Symbol, s.command? = some c
  | loop _ body => ∀ n ∈ body, n.IsPlain

def Node.withClears : Node → Node
  | command c => command c
  | loop id body => Node.ofBody id (body.map withClears)

theorem Command.symbols_of_command? {s : Symbol} {c : Command} (h : s.command? = some c) :
    c.symbols = [s] := by
  cases s <;> cases h <;> rfl

theorem Symbol.command?_eq_none_iff (s : Symbol) :
    s.command? = none ↔ s = .openLoop ∨ s = .closeLoop := by
  cases s <;> simp [Symbol.command?]

namespace Program

/-- The symbols that spell a program. -/
def symbols (p : Program) : List Symbol :=
  p.flatMap Node.symbols

@[simp] theorem symbols_nil : symbols [] = [] := rfl

/-- Every command of a program stands for a single symbol. -/
def IsPlain (p : Program) : Prop :=
  ∀ n ∈ p, n.IsPlain

/-- Turns the loops that step their cell to zero into clears, at every depth. -/
def withClears (p : Program) : Program :=
  p.map Node.withClears

theorem withClears_cons (n : Node) (rest : Program) :
    withClears (n :: rest) = n.withClears :: withClears rest :=
  List.map_cons

end Program

namespace Node

theorem symbols_command (c : Command) : (command c).symbols = c.symbols := by
  rw [symbols]

theorem symbols_loop (id : Nat) (body : Program) :
    (loop id body).symbols = .openLoop :: body.symbols ++ [.closeLoop] := by
  rw [symbols]
  rfl

theorem isPlain_command (c : Command) :
    (command c).IsPlain ↔ ∃ s : Symbol, s.command? = some c := by
  rw [IsPlain]

theorem isPlain_loop (id : Nat) (body : Program) : (loop id body).IsPlain ↔ body.IsPlain := by
  rw [IsPlain]
  rfl

theorem withClears_command (c : Command) : (command c).withClears = command c := by
  rw [withClears]

theorem withClears_loop (id : Nat) (body : Program) :
    (loop id body).withClears = ofBody id (Program.withClears body) := by
  rw [withClears]
  rfl

end Node

end TapeCompiler
