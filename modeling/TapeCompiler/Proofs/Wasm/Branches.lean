import TapeCompiler.Proofs.Wasm.FrameStack
import TapeCompiler.Proofs.Wasm.Text

/-!
# Branches and what they aim at

A reader of a WebAssembly function keeps the blocks and loops that are open in a stack. An
`end` closes the one that was opened last, and a branch says how many of them lie between it
and its aim. `resolve` reads lines so, where blocks and loops are numbered as they are
opened, and fails if an `end` or a branch finds nothing or if something is left open.

`resolved_branches_artifact` says what comes of the artifact of a program: each loop becomes
a block and a loop of its own, and leaves the one and repeats the other, whatever the ids
of the loops around it are. The numbers tell loops with equal ids apart (`loops`).
-/

namespace TapeCompiler.Wasm

inductive Kind where
  | block
  | loop
deriving DecidableEq, Repr

/-- A line that opens, closes or branches. -/
inductive Control where
  /-- The words behind the name are a note. -/
  | enter (kind : Kind) (note : List String)
  | leave
  /-- A branch that is taken always, or if the word on the stack is not zero. -/
  | branch (conditional : Bool) (depth? : Option Nat)
deriving DecidableEq, Repr

def depth? : List String → Option Nat
  | [word] => number? word
  | _ => none

/-- What a line does, read from its words. -/
def Control.ofWords? : List String → Option Control
  | "block" :: note => some (.enter .block note)
  | "loop" :: note => some (.enter .loop note)
  | "end" :: _ => some .leave
  | "br" :: words => some (.branch false (depth? words))
  | "br_if" :: words => some (.branch true (depth? words))
  | _ => none

/-- A line with the number of what it opens, closes or aims at. -/
inductive Reference where
  | opens (number : Nat) (kind : Kind) (note : List String)
  | closes (number : Nat)
  | branches (conditional : Bool) (aim : Nat)
deriving DecidableEq, Repr

/-- What lines refer to, where `number` is the first number that is not in use, and `stack`
holds what is open, the innermost first. -/
def resolve (number : Nat) (stack : List Nat) : List Control → Option (List Reference)
  | [] => if stack = [] then some [] else none
  | .enter kind note :: rest =>
      (resolve (number + 1) (number :: stack) rest).map (.opens number kind note :: ·)
  | .leave :: rest =>
      match stack with
      | [] => none
      | innermost :: outer => (resolve number outer rest).map (.closes innermost :: ·)
  | .branch conditional depth? :: rest => do
      let aim ← depth?.bind (stack[·]?)
      (resolve number stack rest).map (.branches conditional aim :: ·)

/-- The lines of the function: those behind the line that starts it, up to its bracket. -/
def functionLines (text : String) : List (List String) :=
  linesWithin "(func" [")"] (textWords text)

/-- What the lines of the function refer to. -/
def references? (text : String) : Option (List Reference) :=
  resolve 0 [] ((functionLines text).filterMap Control.ofWords?)

/-- A loop is a block and a loop in it. The test leaves the block, and the end of the body
goes back to the loop. -/
def loops : Template Reference where
  command := fun _ _ => []
  opening := fun place id =>
    [.opens place.number .block [";;", "exit", toString id],
      .opens (place.number + 1) .loop [";;", "loop", toString id], .branches true place.number]
  closing := fun place _ =>
    [.branches false (place.number + 1), .closes (place.number + 1), .closes place.number]
  loopNumbers := 2

section Reading

def Statement.control? : Statement → Option Control
  | plain _ => none
  | enter (.exit id) => some (.enter .block [";;", "exit", toString id])
  | enter (.again id) => some (.enter .loop [";;", "loop", toString id])
  | close => some .leave
  | branch depth => some (.branch false (some depth))
  | branchIf depth => some (.branch true (some depth))

theorem ofWords?_eq_none {words : List String} (h : ∀ word ∈ words.head?, word ∉ controlWords) :
    Control.ofWords? words = none := by
  unfold Control.ofWords?
  split <;> simp_all [controlWords]

theorem ofWords?_words {i : Statement} (h : i.IsInner) :
    Control.ofWords? i.words = i.control? := by
  cases i with
  | plain text => exact ofWords?_eq_none h.head_notMem
  | enter frame => cases frame <;> rfl
  | close => rfl
  | branch depth => simp [Statement.words, Control.ofWords?, depth?, Statement.control?]
  | branchIf depth => simp [Statement.words, Control.ofWords?, depth?, Statement.control?]

theorem words_ne_last {i : Statement} (h : i.IsInner) : i.words ≠ [")"] := by
  cases i with
  | plain text => exact h.ne_last
  | enter frame => cases frame <;> simp [Statement.words]
  | _ => simp [Statement.words]

/-- The lines in front of the function. -/
def declarations : List Statement :=
  head.take 9

/-- The statements of the function. -/
def function (p : Program) : List Statement :=
  .plain "(i32.store (i32.const 30004) (i32.const 1))" :: body.write {} p ++
    [.plain "(call $proc_exit (i32.const 0))"]

theorem isInner_of_mem_function {p : Program} : ∀ i ∈ function p, i.IsInner := by
  have hends : ∀ text ∈ ["(i32.store (i32.const 30004) (i32.const 1))",
      "(call $proc_exit (i32.const 0))"], IsPlain text := by decide
  simp only [List.forall_mem_cons] at hends
  simp only [function, List.forall_mem_append, List.forall_mem_cons]
  exact ⟨⟨hends.1, isInner_of_mem_write _ p⟩, hends.2.1, by simp⟩

theorem head_eq :
    head = declarations ++
      [.plain "(func $_start (local $ptr i32)",
        .plain "(i32.store (i32.const 30004) (i32.const 1))"] := rfl

theorem tail_eq :
    tail = .plain "(call $proc_exit (i32.const 0))" :: .plain ")" :: tail.drop 2 := rfl

theorem functionLines_artifact (p : Program) :
    functionLines (artifact p) = (function p).map Statement.words := by
  have hbefore : ∀ words ∈ declarations.map Statement.words, words.head? ≠ some "(func" := by
    decide +kernel
  have hinner : ∀ words ∈ (function p).map Statement.words, words ≠ [")"] :=
    List.forall_mem_map.mpr fun i hi => words_ne_last (isInner_of_mem_function i hi)
  have hstart : (Statement.plain "(func $_start (local $ptr i32)").words =
      ["(func", "$_start", "(local", "$ptr", "i32)"] := by decide
  have hlast : (Statement.plain ")").words = [")"] := by decide
  have hprogram : (program p).map Statement.words = declarations.map Statement.words ++
      ["(func", "$_start", "(local", "$ptr", "i32)"] ::
        ((function p).map Statement.words ++ [")"] :: (tail.drop 2).map Statement.words) := by
    rw [program, head_eq, tail_eq]
    simp [function, hstart, hlast]
  rw [functionLines, textWords_artifact, hprogram, linesWithin_append hbefore rfl hinner]

/-- The lines of control that are written for the nodes of a program. -/
def controls : Template Control :=
  body.filterMap Statement.control?

/-- The function has no lines of control besides those of the program. -/
theorem filterMap_functionLines (p : Program) :
    (functionLines (artifact p)).filterMap Control.ofWords? = controls.write {} p := by
  have hread : (functionLines (artifact p)).filterMap Control.ofWords? =
      (function p).filterMap Statement.control? := by
    rw [functionLines_artifact, List.filterMap_map]
    exact List.filterMap_congr fun i hi => ofWords?_words (isInner_of_mem_function i hi)
  rw [hread, function, List.filterMap_append, controls, ← Template.filterMap_write]
  exact List.append_nil _

end Reading

section Resolving

theorem controls_command (place : Place) (c : Command) : controls.command place c = [] := by
  rw [controls, Template.filterMap_command, body_command]
  cases c <;> rfl

theorem controls_opening (place : Place) (id : Nat) :
    controls.opening place id =
      [.enter .block [";;", "exit", toString id], .enter .loop [";;", "loop", toString id],
        .branch true (some 1)] := by
  rw [← branchDepth_exit id place.enclosing]
  rfl

theorem controls_closing (place : Place) (id : Nat) :
    controls.closing place id = [.branch false (some 0), .leave, .leave] := by
  rw [← branchDepth_again id place.enclosing]
  rfl

/-- In front of a body its block and its loop are opened, and the test aims at the block. -/
theorem resolve_opening (place place' : Place) (id : Nat) (stack : List Nat)
    (rest : List Control) :
    resolve place'.number stack (controls.opening place id ++ rest) =
      (resolve (place'.number + 2) ((place'.number + 1) :: place'.number :: stack) rest).map
        (loops.opening place' id ++ ·) := by
  rw [controls_opening]
  simp only [List.cons_append, List.nil_append, resolve, Option.bind_eq_bind, Option.bind_some,
    List.getElem?_cons_succ, List.getElem?_cons_zero, Option.map_map]
  rfl

/-- Behind a body the branch aims at its loop, and both are closed. -/
theorem resolve_closing (place place' : Place) (id number : Nat) (stack : List Nat)
    (rest : List Control) :
    resolve number ((place'.number + 1) :: place'.number :: stack)
        (controls.closing place id ++ rest) =
      (resolve number stack rest).map (loops.closing place' id ++ ·) := by
  rw [controls_closing]
  simp only [List.cons_append, List.nil_append, resolve, Option.bind_eq_bind, Option.bind_some,
    List.getElem?_cons_zero, Option.map_map]
  rfl

/-- A program opens and closes only what it numbers itself, and its branches aim there: what
is open around it stays open. -/
theorem resolve_write (p : Program) (place place' : Place) (stack : List Nat)
    (rest : List Control) :
    resolve place'.number stack (controls.write place p ++ rest) =
      (resolve (place'.number + loops.numbers p) stack rest).map
        (loops.write place' p ++ ·) := by
  induction p using Program.induction generalizing place place' stack rest with
  | nil => simp
  | command c remaining ih =>
      have hnumbers : loops.numbers (.command c :: remaining) = loops.numbers remaining := by
        rw [Template.numbers_command]
        exact Nat.zero_add _
      rw [Template.write_command, controls_command, List.nil_append, ih _ place', hnumbers,
        Template.write_command]
      rfl
  | loop id body remaining ihBody ih =>
      have hbody (stack : List Nat) (rest : List Control) :
          resolve (place'.number + 2) stack
              (controls.write ((place.skip controls.loopNumbers).enter id) body ++ rest) =
            (resolve (place'.number + (2 + loops.numbers body)) stack rest).map
              (loops.write ((place'.skip 2).enter id) body ++ ·) := by
        rw [← Nat.add_assoc]
        exact ihBody _ ((place'.skip 2).enter id) stack rest
      have hremaining : resolve (place'.number + (2 + loops.numbers body)) stack
            (controls.write (place.skip (controls.loopNumbers + controls.numbers body))
              remaining ++ rest) =
          (resolve (place'.number + (2 + loops.numbers body + loops.numbers remaining)) stack
            rest).map (loops.write (place'.skip (2 + loops.numbers body)) remaining ++ ·) := by
        rw [← Nat.add_assoc place'.number (2 + loops.numbers body)]
        exact ih _ (place'.skip (2 + loops.numbers body)) stack rest
      have hnumbers : loops.loopNumbers = 2 := rfl
      rw [Template.write_loop, Template.write_loop, Template.numbers_loop, hnumbers]
      simp only [List.append_assoc]
      rw [resolve_opening, hbody, resolve_closing, hremaining]
      simp only [Option.map_map, Function.comp_def]

end Resolving

/-- Every branch of a program is found while it is written, and no frame is open behind its
body. Read again, its blocks and loops are nested, and the branches of each loop aim at the
block and at the loop that were opened for it. -/
theorem resolved_branches_artifact (p : Program) :
    (∃ c, composeBody? p = some c ∧ c.frames = [] ∧
      linesText Statement.text (c.write epilogue).lines = artifact p) ∧
    references? (artifact p) = some (loops.write {} p) := by
  refine ⟨⟨_, composeBody?_eq p, rfl, rfl⟩, ?_⟩
  have hresolved := resolve_write p {} {} [] []
  rw [List.append_nil] at hresolved
  rw [references?, filterMap_functionLines]
  simpa [resolve] using hresolved

end TapeCompiler.Wasm
