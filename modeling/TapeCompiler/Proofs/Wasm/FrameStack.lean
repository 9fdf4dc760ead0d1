import TapeCompiler.Target.Wasm

/-!
# A stack of open frames

The frames around a statement can be found without looking at the loops around it: a
`Composer` writes line by line and holds the frames that are open in a stack of its own.
A branch is looked up there, and fails if its aim is not open.

`composeBody?_eq` says that no branch of any program fails, that what is written are the
lines of the template, and that the stack is empty again behind the body.
-/

namespace TapeCompiler.Wasm

/-- The lines that were written so far, the current depth, and the frames that are open.
The innermost frame comes first. -/
structure Composer where
  lines : List (Line Statement)
  depth : Nat
  frames : List Frame := []
deriving DecidableEq, Repr, Inhabited

namespace Composer

def write (c : Composer) (lines : List (Line Statement)) : Composer :=
  { c with lines := c.lines ++ lines }

/-- Statements at the current depth. -/
def all (c : Composer) (statements : List Statement) : Composer :=
  c.write (linesAt c.depth statements)

/-- A branch to an aim that has to be open. -/
def branch? (c : Composer) (branch : Nat → Statement) (aim : Frame) : Option Composer :=
  (c.frames.idxOf? aim).map fun depth => c.all [branch depth]

def opened (c : Composer) (frame : Frame) : Composer :=
  { c.all [.enter frame] with depth := c.depth + 1, frames := frame :: c.frames }

def closed (c : Composer) : Composer :=
  { c with depth := c.depth - 1, frames := c.frames.tail }.all [.close]

/-- What `emit` writes, one level deeper and with `frame` open. -/
def within? (c : Composer) (frame : Frame) (emit : Composer → Option Composer) :
    Option Composer :=
  (emit (c.opened frame)).map closed

def node? : Composer → Node → Option Composer
  | c, .command command => some (c.all (commandStatements command))
  | c, .loop id body =>
      c.within? (.exit id) fun outer => outer.within? (.again id) fun inner => do
        let loaded := inner.all [.plain "(i32.load8_u (local.get $ptr))", .plain "i32.eqz"]
        let tested ← loaded.branch? .branchIf (.exit id)
        let filled ← body.foldlM node? tested
        filled.branch? .branch (.again id)

theorem write_write (c : Composer) (lines lines' : List (Line Statement)) :
    (c.write lines).write lines' = c.write (lines ++ lines') :=
  congrArg (Composer.mk · c.depth c.frames) (List.append_assoc _ _ _)

end Composer

theorem bodyDepth_enter (place : Place) (id : Nat) :
    bodyDepth (place.enter id) = bodyDepth place + 2 := by
  simp [bodyDepth, Place.enter, Place.depth, Nat.mul_add, Nat.add_assoc]

theorem frames_cons (id : Nat) (enclosing : List Nat) :
    frames (id :: enclosing) = .again id :: .exit id :: frames enclosing := rfl

/-- From inside a loop, a branch out of it crosses one frame. -/
theorem branchDepth_exit (id : Nat) (enclosing : List Nat) :
    branchDepth (id :: enclosing) (.exit id) = 1 := by
  rw [branchDepth, frames_cons, List.idxOf_cons, List.idxOf_cons_self]
  rfl

/-- From inside a loop, a branch back to it crosses no frame. -/
theorem branchDepth_again (id : Nat) (enclosing : List Nat) :
    branchDepth (id :: enclosing) (.again id) = 0 := by
  rw [branchDepth, frames_cons, List.idxOf_cons_self]

namespace Composer

/-- The composer writes at the depth of a place, and the frames around the place are open. -/
structure WritesAt (c : Composer) (place : Place) : Prop where
  depth_eq : c.depth = bodyDepth place
  frames_eq : c.frames = Wasm.frames place.enclosing

variable {c : Composer} {place : Place}

theorem WritesAt.write (h : c.WritesAt place) (lines : List (Line Statement)) :
    (c.write lines).WritesAt place :=
  ⟨h.depth_eq, h.frames_eq⟩

theorem WritesAt.all (h : c.WritesAt place) (statements : List Statement) :
    (c.all statements).WritesAt place :=
  h.write _

theorem WritesAt.skip (h : c.WritesAt place) (count : Nat) : c.WritesAt (place.skip count) :=
  ⟨h.depth_eq, h.frames_eq⟩

theorem WritesAt.enter (h : c.WritesAt place) (id : Nat) :
    ((c.opened (.exit id)).opened (.again id)).WritesAt (place.enter id) where
  depth_eq := by simp [opened, h.depth_eq, bodyDepth_enter]
  frames_eq := by simp [opened, h.frames_eq, Place.enter, frames_cons]

/-- Inside a loop its two branches are found, whatever is open around the loop. -/
theorem WritesAt.branch? {id : Nat} (h : c.WritesAt (place.enter id)) :
    c.branch? .branchIf (.exit id) =
        some (c.all [.branchIf (branchDepth (place.enter id).enclosing (.exit id))]) ∧
      c.branch? .branch (.again id) =
        some (c.all [.branch (branchDepth (place.enter id).enclosing (.again id))]) := by
  have hframes : c.frames = .again id :: .exit id :: Wasm.frames place.enclosing := h.frames_eq
  have hplace : (place.enter id).enclosing = id :: place.enclosing := rfl
  rw [hplace, branchDepth_exit, branchDepth_again]
  simp [Composer.branch?, hframes, List.idxOf?_cons]

/-- A loop is written around its body, and both branches are found. -/
theorem node?_loop {id : Nat} {body : Program} {lines : List (Line Statement)}
    (h : c.WritesAt place)
    (hbody : ∀ inner : Composer, inner.WritesAt (place.enter id) →
      body.foldlM node? inner = some (inner.write lines)) :
    node? c (.loop id body) =
      some (c.write (template.opening place id ++ lines ++ template.closing place id)) := by
  have hloaded := (h.enter id).all [.plain "(i32.load8_u (local.get $ptr))", .plain "i32.eqz"]
  have htested := hloaded.all [.branchIf (branchDepth (place.enter id).enclosing (.exit id))]
  have hfilled := htested.write lines
  simp only [node?, within?, hloaded.branch?.1, Option.bind_eq_bind, Option.bind_some,
    hbody _ htested, hfilled.branch?.2, Option.map_some]
  simp [closed, opened, all, Composer.write, linesAt, template, h.depth_eq, bodyDepth_enter]

/-- Behind a program a composer has written the lines of the template, and the same frames
are open as before it. -/
theorem foldlM_node? (p : Program) (h : c.WritesAt place) :
    p.foldlM node? c = some (c.write (template.write place p)) := by
  induction p using Program.induction generalizing c place with
  | nil => simp [Composer.write]
  | command command rest ih =>
      have hwritten : node? c (.command command) =
          some (c.write (template.command place command)) := by
        simp [node?, all, template, h.depth_eq]
      rw [List.foldlM_cons, hwritten, Option.bind_eq_bind, Option.bind_some, ih (h.write _),
        write_write, Template.write_command]
      rfl
  | loop id body rest ihBody ih =>
      have hwritten := node?_loop h fun inner (hinner : inner.WritesAt (place.enter id)) =>
        ihBody (hinner.skip template.loopNumbers)
      rw [List.foldlM_cons, hwritten, Option.bind_eq_bind, Option.bind_some,
        ih ((h.write _).skip (template.loopNumbers + template.numbers body)), write_write,
        Template.write_loop]
      rfl

end Composer

/-- The composer at the start of the function body. -/
def start : Composer :=
  { lines := prologue, depth := 2 }

/-- The lines up to the end of the body, if every branch finds its aim. -/
def composeBody? (p : Program) : Option Composer :=
  p.foldlM Composer.node? start

theorem composeBody?_eq (p : Program) :
    composeBody? p = some { start with lines := prologue ++ template.write {} p } :=
  Composer.foldlM_node? p ⟨rfl, rfl⟩

end TapeCompiler.Wasm
