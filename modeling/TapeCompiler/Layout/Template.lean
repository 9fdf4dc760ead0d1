import TapeCompiler.Program

/-!
# Templates

Every text form of a program is made by a `Template`: it says what stands for a
command, and what stands before and after the body of a loop. A template is told the
place it writes at, which is the loops around it and the first number that is not yet in
use, so that it can make names that are used once.

`Template.write` goes through a program once, with what was written so far in hand. The
lemmas `write_nil`, `write_command` and `write_loop` say what that comes to without it.
-/

namespace TapeCompiler

/-- A place in a program, as far as templates look at it. -/
structure Place where
  /-- The ids of the loops around the place, the innermost first. -/
  enclosing : List Nat := []
  /-- The first number that is not yet in use. -/
  number : Nat := 0
deriving DecidableEq, Repr, Inhabited

namespace Place

def depth (place : Place) : Nat :=
  place.enclosing.length

/-- The place after `count` more numbers were used. -/
def skip (place : Place) (count : Nat) : Place :=
  { place with number := place.number + count }

def enter (place : Place) (id : Nat) : Place :=
  { place with enclosing := id :: place.enclosing }

end Place

/-- How a text form writes commands and loops, as lists of its items. -/
structure Template (ι : Type) where
  command : Place → Command → List ι
  /-- What stands before the body of a loop with an id. -/
  opening : Place → Nat → List ι
  /-- What stands after the body. The place is that of the opening. -/
  closing : Place → Nat → List ι
  /-- How many numbers a command uses. -/
  commandNumbers : Command → Nat := fun _ => 0
  /-- How many numbers a loop uses besides those of its body. -/
  loopNumbers : Nat := 0

/-- The items that were written so far, and the first number that is not in use. -/
structure Draft (ι : Type) where
  items : Array ι
  number : Nat
deriving DecidableEq, Repr, Inhabited

namespace Template

variable {ι : Type} (t : Template ι)

def writeNode (enclosing : List Nat) (draft : Draft ι) : Node → Draft ι
  | .command c =>
      ⟨draft.items ++ t.command ⟨enclosing, draft.number⟩ c,
        draft.number + t.commandNumbers c⟩
  | .loop id body =>
      let number := draft.number
      let opened : Draft ι :=
        ⟨draft.items ++ t.opening ⟨enclosing, number⟩ id, number + t.loopNumbers⟩
      let filled := body.foldl (writeNode (id :: enclosing)) opened
      ⟨filled.items ++ t.closing ⟨enclosing, number⟩ id, filled.number⟩

def write (place : Place) (p : Program) : List ι :=
  (p.foldl (t.writeNode place.enclosing) ⟨#[], place.number⟩).items.toList

def nodeNumbers : Node → Nat
  | .command c => t.commandNumbers c
  | .loop _ body => t.loopNumbers + body.foldr (nodeNumbers · + ·) 0

def numbers (p : Program) : Nat :=
  p.foldr (t.nodeNumbers · + ·) 0

@[simp] theorem numbers_nil : t.numbers [] = 0 := rfl

theorem numbers_command (c : Command) (rest : Program) :
    t.numbers (.command c :: rest) = t.commandNumbers c + t.numbers rest := by
  simp [numbers, nodeNumbers]

theorem numbers_loop (id : Nat) (body rest : Program) :
    t.numbers (.loop id body :: rest) =
      t.loopNumbers + t.numbers body + t.numbers rest := by
  simp [numbers, nodeNumbers]

/-- What is written behind a draft does not depend on the items of the draft. -/
theorem foldl_writeNode (p : Program) (enclosing : List Nat) (draft : Draft ι) :
    p.foldl (t.writeNode enclosing) draft =
      ⟨draft.items ++ t.write ⟨enclosing, draft.number⟩ p,
        draft.number + t.numbers p⟩ := by
  induction p using Program.induction generalizing enclosing draft with
  | nil => simp [write]
  | command c rest ih =>
      simp only [write, List.foldl_cons, writeNode]
      rw [ih, ih, numbers_command]
      simp only [Draft.mk.injEq, Nat.add_assoc, and_true]
      apply Array.ext'
      simp
  | loop id body rest ihBody ih =>
      simp only [write, List.foldl_cons, writeNode]
      rw [ih, ih, ihBody, ihBody, numbers_loop]
      simp only [Draft.mk.injEq, Nat.add_assoc, and_true]
      apply Array.ext'
      simp

@[simp] theorem write_nil (place : Place) : t.write place [] = [] := rfl

theorem write_command (place : Place) (c : Command) (rest : Program) :
    t.write place (.command c :: rest) =
      t.command place c ++ t.write (place.skip (t.commandNumbers c)) rest := by
  simp only [write, List.foldl_cons, writeNode]
  rw [foldl_writeNode]
  simp [Place.skip, write]

theorem write_loop (place : Place) (id : Nat) (body rest : Program) :
    t.write place (.loop id body :: rest) =
      t.opening place id ++ t.write ((place.skip t.loopNumbers).enter id) body ++
        t.closing place id ++
        t.write (place.skip (t.loopNumbers + t.numbers body)) rest := by
  simp only [write, List.foldl_cons, writeNode]
  rw [foldl_writeNode, foldl_writeNode]
  simp [Place.skip, Place.enter, write, Nat.add_assoc]

/-- The template of a form that writes the same at every place. -/
def uniform (command : Command → List ι) (opening closing : List ι) : Template ι where
  command := fun _ => command
  opening := fun _ _ => opening
  closing := fun _ _ => closing

theorem write_uniform (command : Command → List ι) (opening closing : List ι)
    (place place' : Place) (p : Program) :
    (uniform command opening closing).write place p =
      (uniform command opening closing).write place' p := by
  induction p using Program.induction generalizing place place' with
  | nil => rfl
  | command c rest ih =>
      rw [write_command, write_command, ih]
      rfl
  | loop id body rest ihBody ih =>
      rw [write_loop, write_loop, ih, ihBody]
      rfl

end Template

end TapeCompiler
