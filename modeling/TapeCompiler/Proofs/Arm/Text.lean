import TapeCompiler.Target.Arm
import TapeCompiler.Proofs.Templates
import TapeCompiler.Proofs.Words

/-!
# ARM assembly, read back

`Arm.Statement.words` are the words of a statement, and `Arm.Statement.ofWords?` reads a
statement off its words. `Arm.read?` reads a whole text, and `Arm.read?_artifact` says
that what it finds in an artifact are the statements the artifact was written from.
-/

namespace TapeCompiler.Arm

def Register.all : List Register :=
  [.r0, .r1, .r2, .r4, .r5, .r6, .r7]

def Register.ofWord? (word : String) : Option Register :=
  all.find? (·.text = word)

def Label.ofWord? (word : String) : Option Label :=
  (((afterName? ".Lstart_" word).bind number?).map start).or
    (((afterName? ".Lend_" word).bind number?).map finish)

def Operand.ofWord? (word : String) : Option Operand :=
  (((afterName? "#" word).bind number?).map immediate).or
    ((Register.ofWord? word).map register)

/-- The register whose name stands in brackets. -/
def addressOfWord? (word : String) : Option Register :=
  Register.all.find? fun r => "[" ++ r.text ++ "]" = word

namespace Statement

def words : Statement → List String
  | zeroed => [".bss"]
  | reserve bytes => [".lcomm", "MEMORY", toString bytes]
  | code => [".text"]
  | exported => [".global", "_start"]
  | entry => ["_start:"]
  | label l => [l.text ++ ":"]
  | comment text => ["@", text]
  | loadTape dest => ["ldr", dest.text, "=MEMORY"]
  | loadConstant dest n => ["ldr", dest.text, "=" ++ toString n]
  | loadByte dest address => ["ldrb", dest.text, "[" ++ address.text ++ "]"]
  | storeByte of address => ["strb", of.text, "[" ++ address.text ++ "]"]
  | mov dest operand => ["mov", dest.text, operand.text]
  | add dest r operand => ["add", dest.text, r.text, operand.text]
  | sub dest r operand => ["sub", dest.text, r.text, operand.text]
  | cmp r operand => ["cmp", r.text, operand.text]
  | branch l => ["b", l.text]
  | branchEqual l => ["beq", l.text]
  | kernel => ["swi", "#0"]

/-- The statement with these words. -/
def ofWords? : List String → Option Statement
  | [word] =>
      (((beforeColon? word).bind Label.ofWord?).map label).or
        ([zeroed, code, entry].find? (·.text = word))
  | [".lcomm", "MEMORY", n] => (number? n).map reserve
  | [".global", "_start"] => some exported
  | "@" :: words => some (comment (" ".intercalate words))
  | ["ldr", r, value] =>
      (Register.ofWord? r).bind fun dest =>
        (((afterName? "=" value).bind number?).map (loadConstant dest)).or
          (if value = "=MEMORY" then some (loadTape dest) else none)
  | ["ldrb", r, address] =>
      (Register.ofWord? r).bind fun dest => (addressOfWord? address).map (loadByte dest)
  | ["strb", r, address] =>
      (Register.ofWord? r).bind fun of => (addressOfWord? address).map (storeByte of)
  | ["mov", r, operand] =>
      (Register.ofWord? r).bind fun dest => (Operand.ofWord? operand).map (mov dest)
  | ["add", r, s, operand] =>
      (Register.ofWord? r).bind fun dest =>
        (Register.ofWord? s).bind fun r => (Operand.ofWord? operand).map (add dest r)
  | ["sub", r, s, operand] =>
      (Register.ofWord? r).bind fun dest =>
        (Register.ofWord? s).bind fun r => (Operand.ofWord? operand).map (sub dest r)
  | ["cmp", r, operand] =>
      (Register.ofWord? r).bind fun r => (Operand.ofWord? operand).map (cmp r)
  | ["b", l] => (Label.ofWord? l).map branch
  | ["beq", l] => (Label.ofWord? l).map branchEqual
  | ["swi", "#0"] => some kernel
  | _ => none

/-- Comments are read back only if they are one word. -/
def IsLegible : Statement → Prop
  | comment text => IsWord text
  | _ => True

end Statement

/-- The statements of a text, one on each line. -/
def read? (text : String) : Option (List Statement) :=
  (textWords text).mapM Statement.ofWords?

section Words

theorem Register.isWord_text (r : Register) : IsWord r.text := by
  cases r <;> decide

theorem Label.isWord_text (l : Label) : IsWord l.text := by
  cases l with
  | start id => exact isWord_append (by decide) (isWord_toString id)
  | finish id => exact isWord_append (by decide) (isWord_toString id)

theorem Operand.isWord_text (operand : Operand) : IsWord operand.text := by
  cases operand with
  | register r => exact r.isWord_text
  | immediate n => exact isWord_append (by decide) (isWord_toString n)

theorem isWord_address (r : Register) : IsWord ("[" ++ r.text ++ "]") := by
  cases r <;> decide

/-- An operation on a register, and what stands behind the name of the register. -/
theorem spells_register {name s : String} (hname : Spells s [name]) (hgap : EndsInGap s)
    (r : Register) : Spells (s ++ r.text) [name, r.text] :=
  hname.append_word hgap r.isWord_text

theorem spells_access {name s : String} (hname : Spells s [name]) (hgap : EndsInGap s)
    (r address : Register) :
    Spells (s ++ r.text ++ ", [" ++ address.text ++ "]")
      [name, r.text, "[" ++ address.text ++ "]"] := by
  have hcomma : ", [" = ", " ++ "[" := rfl
  have htext : s ++ r.text ++ ", [" ++ address.text ++ "]" =
      s ++ r.text ++ ", " ++ ("[" ++ address.text ++ "]") := by
    simp only [hcomma, String.append_assoc]
  rw [htext]
  exact (spells_register hname hgap r).comma (isWord_address address)

theorem Statement.spells_text {s : Statement} (h : s.IsLegible) : Spells s.text s.words := by
  cases s with
  | reserve bytes =>
      have hname : Spells ".lcomm MEMORY" [".lcomm", "MEMORY"] := by decide
      exact hname.comma (isWord_toString bytes)
  | label l => exact (isWord_append l.isWord_text (by decide)).spells
  | comment text =>
      have hname : Spells "@ " ["@"] := by decide
      exact hname.append_word (by decide) h
  | loadTape dest =>
      exact (spells_register (by decide) (by decide) dest).comma_word rfl (by decide)
  | loadConstant dest n =>
      have hvalue : IsWord ("=" ++ toString n) := isWord_append (by decide) (isWord_toString n)
      exact (spells_register (by decide) (by decide) dest).comma_append rfl hvalue
  | loadByte dest address => exact spells_access (by decide) (by decide) dest address
  | storeByte of address => exact spells_access (by decide) (by decide) of address
  | mov dest operand =>
      exact (spells_register (by decide) (by decide) dest).comma operand.isWord_text
  | add dest r operand =>
      exact ((spells_register (by decide) (by decide) dest).comma r.isWord_text).comma
        operand.isWord_text
  | sub dest r operand =>
      exact ((spells_register (by decide) (by decide) dest).comma r.isWord_text).comma
        operand.isWord_text
  | cmp r operand =>
      exact (spells_register (by decide) (by decide) r).comma operand.isWord_text
  | branch l =>
      have hname : Spells "b " ["b"] := by decide
      exact hname.append_word (by decide) l.isWord_text
  | branchEqual l =>
      have hname : Spells "beq " ["beq"] := by decide
      exact hname.append_word (by decide) l.isWord_text
  | _ => decide

end Words

section Reading

@[simp] theorem Register.ofWord?_text (r : Register) : Register.ofWord? r.text = some r := by
  cases r <;> decide

@[simp] theorem addressOfWord?_text (r : Register) : addressOfWord? ("[" ++ r.text ++ "]") = some r := by
  cases r <;> decide

@[simp] theorem Label.ofWord?_text (l : Label) : Label.ofWord? l.text = some l := by
  cases l with
  | start id => simp [ofWord?, text]
  | finish id =>
      have hother (s : String) : afterName? ".Lstart_" (".Lend_" ++ s) = none :=
        afterName?_append_eq_none (by decide) s
      simp [ofWord?, text, hother]

@[simp] theorem Operand.ofWord?_text (operand : Operand) : Operand.ofWord? operand.text = some operand := by
  cases operand with
  | register r => cases r <;> decide
  | immediate n => simp [ofWord?, text]

theorem Statement.ofWords?_words {s : Statement} (h : s.IsLegible) :
    ofWords? s.words = some s := by
  cases s with
  | loadTape dest => cases dest <;> decide
  | zeroed => decide
  | code => decide
  | entry => decide
  | _ => simp [words, ofWords?]

end Reading

section Artifact

/-- The statements without their indentation. -/
def body : Template Statement :=
  template.map Line.content

def head : List Statement :=
  prologue.map Line.content

def tail : List Statement :=
  epilogue.map Line.content

/-- The statements of an artifact. -/
def program (p : Program) : List Statement :=
  head ++ body.write {} p ++ tail

theorem body_command (place : Place) (c : Command) :
    body.command place c = commandStatements c :=
  map_content_linesAt _ _

theorem body_opening (place : Place) (id : Nat) :
    body.opening place id =
      [.label (.start id), .loadByte value pointer, .cmp value (.immediate 0),
        .branchEqual (.finish id)] := rfl

theorem body_closing (place : Place) (id : Nat) :
    body.closing place id = [.branch (.start id), .label (.finish id)] := rfl

theorem statements_content (p : Program) : (statements p).map Line.content = program p := by
  simp [statements, program, head, tail, body, Template.map_write]

/-- Whether a statement only works on registers and memory. -/
def Statement.IsOperation : Statement → Prop
  | loadConstant .. | loadByte .. | storeByte .. | mov .. | add .. | sub .. | cmp .. | kernel =>
      True
  | _ => False

theorem Statement.IsOperation.isLegible {s : Statement} (h : s.IsOperation) : s.IsLegible := by
  cases s with
  | comment text => exact h.elim
  | _ => trivial

theorem isOperation_shiftPointer (negative : Bool) (operand : Operand) :
    (shiftPointer negative operand).IsOperation := by
  cases negative <;> trivial

theorem isOperation_of_mem (c : Command) : ∀ s ∈ commandStatements c, s.IsOperation := by
  cases c with
  | move amount =>
      rw [commandStatements, moveStatements]
      split
      next => exact List.forall_mem_singleton.mpr (isOperation_shiftPointer _ _)
      next =>
        exact List.forall_mem_cons.mpr
          ⟨trivial, List.forall_mem_singleton.mpr (isOperation_shiftPointer _ _)⟩
  | _ => simp [commandStatements, streamCall, Statement.IsOperation]

theorem isLegible_of_mem_program {p : Program} : ∀ s ∈ program p, s.IsLegible := by
  have hhead : ∀ s ∈ head, s.IsLegible := by simp [head, prologue, linesAt, Statement.IsLegible]
  have htail : ∀ s ∈ tail, s.IsLegible := by
    simp [tail, epilogue, linesAt, Statement.IsLegible]
    decide
  have hbody : ∀ s ∈ body.write {} p, s.IsLegible := by
    refine Template.forall_mem_write ?_ ?_ ?_ {} p
    · intro place c
      rw [body_command]
      exact fun s hs => (isOperation_of_mem c s hs).isLegible
    · simp [body_opening, Statement.IsLegible]
    · simp [body_closing, Statement.IsLegible]
  simp only [program, List.forall_mem_append]
  exact ⟨⟨hhead, hbody⟩, htail⟩

theorem textWords_artifact (p : Program) :
    textWords (artifact p) = (program p).map Statement.words := by
  rw [artifact, ← statements_content]
  refine textWords_linesText fun s hs => Statement.spells_text ?_
  rw [statements_content] at hs
  exact isLegible_of_mem_program s hs

/-- An artifact is read back as the statements it was written from. -/
theorem read?_artifact (p : Program) : read? (artifact p) = some (program p) := by
  rw [read?, textWords_artifact]
  exact mapM_of_forall fun s hs => Statement.ofWords?_words (isLegible_of_mem_program s hs)

end Artifact

end TapeCompiler.Arm
