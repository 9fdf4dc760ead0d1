import TapeCompiler.Target.Smali
import TapeCompiler.Proofs.Templates
import TapeCompiler.Proofs.Words

/-!
# The words of Smali assembly

`Smali.Instruction.words` are the words of an instruction. `Smali.textWords_artifact` says
that the words of an artifact are those of its instructions and of the methods that
stand behind them.
-/

namespace TapeCompiler.Smali

namespace Instruction

def words : Instruction → List String
  | directive text => wordsOf text
  | label l => [l.text]
  | const4 dest n => ["const/4", dest.text, toString n]
  | const16 dest n => ["const/16", dest.text, toString n]
  | const dest n => ["const", dest.text, toString n]
  | newArray dest length => ["new-array", dest.text, length.text, "[B"]
  | addConst8 dest r n => ["add-int/lit8", dest.text, r.text, toString n]
  | addConst16 dest r n => ["add-int/lit16", dest.text, r.text, toString n]
  | add dest r s => ["add-int", dest.text, r.text, s.text]
  | toByte dest r => ["int-to-byte", dest.text, r.text]
  | loadByte dest array index => ["aget-byte", dest.text, array.text, index.text]
  | storeByte of array index => ["aput-byte", of.text, array.text, index.text]
  | ifZero r l => ["if-eqz", r.text, l.text]
  | ifNegative r l => ["if-ltz", r.text, l.text]
  | goto l => ["goto", l.text]
  | callPrint r => ["invoke-static", "\x7b" ++ r.text ++ "\x7d", "LMain;->print(B)V"]
  | callRead => ["invoke-static", "\x7b\x7d", "LMain;->read()I"]
  | result dest => ["move-result", dest.text]
  | output dest =>
      ["sget-object", dest.text, "Ljava/lang/System;->out:Ljava/io/PrintStream;"]
  | callFlush r =>
      ["invoke-virtual", "\x7b" ++ r.text ++ "\x7d", "Ljava/io/PrintStream;->flush()V"]
  | .return => ["return-void"]

/-- Directives are words on one line. -/
def IsLegible : Instruction → Prop
  | directive text => OnOneLine text
  | _ => True

end Instruction

section Words

variable {name s : String}

theorem Register.isWord_text (r : Register) : IsWord r.text := by
  cases r <;> decide

theorem Label.isWord_text (l : Label) : IsWord l.text := by
  cases l with
  | start id => exact isWord_append (by decide) (isWord_toString id)
  | finish id => exact isWord_append (by decide) (isWord_toString id)
  | skip number => exact isWord_append (by decide) (isWord_toString number)

theorem spells_register (hname : Spells s [name]) (hgap : EndsInGap s) (r : Register) :
    Spells (s ++ r.text) [name, r.text] :=
  hname.append_word hgap r.isWord_text

theorem spells_two (hname : Spells s [name]) (hgap : EndsInGap s) (r t : Register) :
    Spells (s ++ operands [r, t]) [name, r.text, t.text] := by
  have htext : operands [r, t] = r.text ++ ", " ++ t.text := rfl
  rw [htext, ← String.append_assoc, ← String.append_assoc]
  exact (spells_register hname hgap r).comma t.isWord_text

theorem spells_three (hname : Spells s [name]) (hgap : EndsInGap s) (r t u : Register) :
    Spells (s ++ operands [r, t, u]) [name, r.text, t.text, u.text] := by
  have htext : operands [r, t, u] = operands [r, t] ++ ", " ++ u.text := rfl
  rw [htext, ← String.append_assoc, ← String.append_assoc]
  exact (spells_two hname hgap r t).comma u.isWord_text

/-- A call names its register in braces, and what it calls behind a comma. -/
theorem spells_call {front rest : String} (call target : String) (r : Register)
    (hfront : front = call ++ "\x7b") (hrest : rest = "\x7d" ++ (", " ++ target))
    (hcall : Spells call [name]) (hgap : EndsInGap call) (htarget : IsWord target) :
    Spells (front ++ r.text ++ rest) [name, "\x7b" ++ r.text ++ "\x7d", target] := by
  have hword : IsWord ("\x7b" ++ r.text ++ "\x7d") :=
    isWord_append (isWord_append (by decide) r.isWord_text) (by decide)
  have htext : front ++ r.text ++ rest =
      call ++ ("\x7b" ++ r.text ++ "\x7d") ++ (", " ++ target) := by
    simp only [hfront, hrest, String.append_assoc]
  rw [htext]
  exact (hcall.append_word hgap hword).comma_word rfl htarget

theorem Instruction.spells_text {i : Instruction} (h : i.IsLegible) :
    Spells i.text i.words := by
  cases i with
  | directive text => exact ⟨h, rfl⟩
  | label l => exact l.isWord_text.spells
  | const4 dest n =>
      exact (spells_register (by decide) (by decide) dest).comma (isWord_toString_int n)
  | const16 dest n =>
      exact (spells_register (by decide) (by decide) dest).comma (isWord_toString_int n)
  | const dest n =>
      exact (spells_register (by decide) (by decide) dest).comma (isWord_toString_int n)
  | newArray dest length =>
      exact (spells_two (by decide) (by decide) dest length).comma_word rfl (by decide)
  | addConst8 dest r n =>
      exact (spells_two (by decide) (by decide) dest r).comma (isWord_toString_int n)
  | addConst16 dest r n =>
      exact (spells_two (by decide) (by decide) dest r).comma (isWord_toString_int n)
  | add dest r s => exact spells_three (by decide) (by decide) dest r s
  | toByte dest r => exact spells_two (by decide) (by decide) dest r
  | loadByte dest array index => exact spells_three (by decide) (by decide) dest array index
  | storeByte of array index => exact spells_three (by decide) (by decide) of array index
  | ifZero r l => exact (spells_register (by decide) (by decide) r).comma l.isWord_text
  | ifNegative r l => exact (spells_register (by decide) (by decide) r).comma l.isWord_text
  | goto l =>
      have hname : Spells "goto " ["goto"] := by decide
      exact hname.append_word (by decide) l.isWord_text
  | callPrint r =>
      exact spells_call "invoke-static " "LMain;->print(B)V" r rfl rfl (by decide) (by decide)
        (by decide)
  | result dest => exact spells_register (by decide) (by decide) dest
  | output dest =>
      exact (spells_register (by decide) (by decide) dest).comma_word rfl (by decide)
  | callFlush r =>
      exact spells_call "invoke-virtual " "Ljava/io/PrintStream;->flush()V" r rfl rfl (by decide)
        (by decide) (by decide)
  | _ => decide

end Words

section Artifact

/-- The instructions without their indentation. -/
def body : Template Instruction :=
  template.map Line.content

def head : List Instruction :=
  prologue.map Line.content

def tail : List Instruction :=
  epilogue.map Line.content

/-- The instructions of an artifact. -/
def program (p : Program) : List Instruction :=
  head ++ body.write {} p ++ tail

theorem body_command (place : Place) (c : Command) :
    body.command place c = commandInstructions place.number c :=
  map_content_linesAt _ _

theorem body_opening (place : Place) (id : Nat) :
    body.opening place id =
      [.label (.start id), .loadByte .value .tape .pointer, .ifZero .value (.finish id)] := rfl

theorem body_closing (place : Place) (id : Nat) :
    body.closing place id = [.goto (.start id), .label (.finish id)] := rfl

theorem instructions_content (p : Program) :
    (instructions p).map Line.content = program p := by
  simp [instructions, program, head, tail, body, Template.map_write]

theorem ne_directive_of_mem_command (place : Place) (c : Command) :
    ∀ i ∈ body.command place c, ∀ text, i ≠ .directive text := by
  rw [body_command]
  cases c with
  | move amount =>
      rw [commandInstructions, moveInstructions]
      split <;> simp
  | _ => simp [commandInstructions]

/-- Nothing that is written for a program is a directive. -/
theorem ne_directive_of_mem_write (p : Program) :
    ∀ i ∈ body.write {} p, ∀ text, i ≠ .directive text :=
  Template.forall_mem_write ne_directive_of_mem_command
    (by simp [body_opening]) (by simp [body_closing]) {} p

theorem Instruction.isLegible_of_ne {i : Instruction} (h : ∀ text, i ≠ .directive text) :
    i.IsLegible := by
  cases i with
  | directive text => exact absurd rfl (h text)
  | _ => trivial

theorem isLegible_of_mem_program {p : Program} : ∀ i ∈ program p, i.IsLegible := by
  have hbody : ∀ i ∈ body.write {} p, i.IsLegible :=
    fun i hi => Instruction.isLegible_of_ne (ne_directive_of_mem_write p i hi)
  have hends : ∀ i ∈ head ++ tail, i.IsLegible := by
    simp only [head, tail, prologue, epilogue, linesAt, List.map_cons, List.map_nil,
      List.cons_append, List.nil_append, List.forall_mem_cons, List.not_mem_nil, false_implies,
      implies_true, Instruction.IsLegible]
    decide +kernel
  simp only [program, List.forall_mem_append] at hends ⊢
  exact ⟨⟨hends.1, hbody⟩, hends.2⟩

theorem textWords_artifact (p : Program) :
    textWords (artifact p) =
      (program p).map Instruction.words ++ (helpers.map Line.content).map wordsOf := by
  have hone : ∀ content ∈ helpers.map Line.content, OnOneLine content := by decide +kernel
  have hhelpers : textWords (linesText id helpers) = (helpers.map Line.content).map wordsOf :=
    textWords_linesText fun content hcontent => ⟨hone content hcontent, rfl⟩
  rw [artifact, ← hhelpers, ← instructions_content]
  refine textWords_linesText_append (fun i hi => Instruction.spells_text ?_) _
  rw [instructions_content] at hi
  exact isLegible_of_mem_program i hi

end Artifact

end TapeCompiler.Smali
