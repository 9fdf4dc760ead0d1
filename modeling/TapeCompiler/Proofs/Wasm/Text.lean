import TapeCompiler.Target.Wasm
import TapeCompiler.Proofs.Templates
import TapeCompiler.Proofs.Words

/-!
# The words of WebAssembly modules

`Wasm.Statement.words` are the words of a statement. `Wasm.textWords_artifact` says that
the words of an artifact are those of its statements. A plain line can hold any words that
do not end the function or start a block, a loop or a branch (`IsPlain`).
-/

namespace TapeCompiler.Wasm

/-- The words at the front of the lines that open, close or branch. -/
def controlWords : List String :=
  ["block", "loop", "end", "br", "br_if"]

/-- A text on one line that controls nothing, and that does not end a function. -/
structure IsPlain (text : String) : Prop where
  onOneLine : OnOneLine text
  head_notMem : ∀ word ∈ (wordsOf text).head?, word ∉ controlWords
  ne_last : wordsOf text ≠ [")"]

instance (text : String) : Decidable (IsPlain text) :=
  decidable_of_iff (OnOneLine text ∧ (∀ word ∈ (wordsOf text).head?, word ∉ controlWords) ∧
    wordsOf text ≠ [")"]) ⟨fun ⟨h, hhead, hlast⟩ => ⟨h, hhead, hlast⟩,
      fun ⟨h, hhead, hlast⟩ => ⟨h, hhead, hlast⟩⟩

namespace Statement

def words : Statement → List String
  | plain text => wordsOf text
  | enter (.exit id) => ["block", ";;", "exit", toString id]
  | enter (.again id) => ["loop", ";;", "loop", toString id]
  | close => ["end"]
  | branch depth => ["br", toString depth]
  | branchIf depth => ["br_if", toString depth]

def IsLegible : Statement → Prop
  | plain text => OnOneLine text
  | _ => True

instance (i : Statement) : Decidable i.IsLegible :=
  match i with
  | plain text => inferInstanceAs (Decidable (OnOneLine text))
  | enter _ | close | branch _ | branchIf _ => .isTrue trivial

/-- What a plain line inside a function is like. -/
def IsInner : Statement → Prop
  | plain text => IsPlain text
  | _ => True

instance (i : Statement) : Decidable i.IsInner :=
  match i with
  | plain text => inferInstanceAs (Decidable (IsPlain text))
  | enter _ | close | branch _ | branchIf _ => .isTrue trivial

theorem IsInner.isLegible {i : Statement} (h : i.IsInner) : i.IsLegible := by
  cases i with
  | plain text => exact h.onOneLine
  | _ => trivial

theorem spells_text {i : Statement} (h : i.IsLegible) : Spells i.text i.words := by
  cases i with
  | plain text => exact ⟨h, rfl⟩
  | enter frame =>
      have hblock : Spells "block ;; exit " ["block", ";;", "exit"] := by decide
      have hloop : Spells "loop ;; loop " ["loop", ";;", "loop"] := by decide
      cases frame with
      | exit id => exact hblock.append_word (by decide) (isWord_toString id)
      | again id => exact hloop.append_word (by decide) (isWord_toString id)
  | close => decide
  | branch depth =>
      have hname : Spells "br " ["br"] := by decide
      exact hname.append_word (by decide) (isWord_toString depth)
  | branchIf depth =>
      have hname : Spells "br_if " ["br_if"] := by decide
      exact hname.append_word (by decide) (isWord_toString depth)

end Statement

/-- A line that pushes a constant controls nothing. -/
theorem isPlain_const {word : String} (h : IsWord word) : IsPlain ("i32.const " ++ word) := by
  have hname : Spells "i32.const " ["i32.const"] := by decide
  have htext := hname.append_word (by decide) h
  have hhead : ∀ word' ∈ (["i32.const"] ++ [word]).head?, word' ∉ controlWords := by
    simp [controlWords]
  refine ⟨htext.onOneLine, ?_, ?_⟩
  · rwa [htext.wordsOf_eq]
  · simp [htext.wordsOf_eq]

theorem isInner_of_mem_command (c : Command) : ∀ i ∈ commandStatements c, i.IsInner := by
  cases c with
  | move amount =>
      simp only [commandStatements, List.forall_mem_cons]
      exact ⟨by decide, isPlain_const (isWord_toString_int amount), by decide, by decide,
        by simp⟩
  | add amount =>
      simp only [commandStatements, List.forall_mem_cons]
      exact ⟨by decide, by decide, by decide, isPlain_const (isWord_toString _), by decide,
        by decide, by simp⟩
  | _ => decide +kernel

/-- The statements without their indentation. -/
def body : Template Statement :=
  template.map Line.content

def head : List Statement :=
  prologue.map Line.content

def tail : List Statement :=
  epilogue.map Line.content

/-- The statements of an artifact. -/
def program (p : Program) : List Statement :=
  head ++ body.write {} p ++ tail

theorem body_command (place : Place) (c : Command) :
    body.command place c = commandStatements c :=
  map_content_linesAt _ _

theorem body_opening (place : Place) (id : Nat) :
    body.opening place id =
      [.enter (.exit id), .enter (.again id), .plain "(i32.load8_u (local.get $ptr))",
        .plain "i32.eqz", .branchIf (branchDepth (id :: place.enclosing) (.exit id))] := rfl

theorem body_closing (place : Place) (id : Nat) :
    body.closing place id =
      [.branch (branchDepth (id :: place.enclosing) (.again id)), .close, .close] := rfl

theorem statements_content (p : Program) :
    (statements p).map Line.content = program p := by
  simp [statements, program, head, tail, body, Template.map_write]

theorem isInner_of_mem_write (place : Place) (p : Program) :
    ∀ i ∈ body.write place p, i.IsInner := by
  refine Template.forall_mem_write ?_ ?_ ?_ place p
  · intro place c
    rw [body_command]
    exact isInner_of_mem_command c
  · intro place id
    have htest : ∀ text ∈ ["(i32.load8_u (local.get $ptr))", "i32.eqz"], IsPlain text := by
      decide
    simpa [body_opening, Statement.IsInner] using htest
  · simp [body_closing, Statement.IsInner]

theorem isLegible_of_mem_program {p : Program} : ∀ i ∈ program p, i.IsLegible := by
  have hends : ∀ i ∈ head ++ tail, i.IsLegible := by
    decide +kernel
  rw [List.forall_mem_append] at hends
  simp only [program, List.forall_mem_append]
  exact ⟨⟨hends.1, fun i hi => (isInner_of_mem_write {} p i hi).isLegible⟩, hends.2⟩

theorem textWords_artifact (p : Program) :
    textWords (artifact p) = (program p).map Statement.words := by
  rw [artifact, ← statements_content]
  refine textWords_linesText fun i hi => Statement.spells_text ?_
  rw [statements_content] at hi
  exact isLegible_of_mem_program i hi

end TapeCompiler.Wasm
