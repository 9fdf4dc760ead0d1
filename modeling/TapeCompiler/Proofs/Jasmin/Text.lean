import TapeCompiler.Target.Jasmin
import TapeCompiler.Proofs.Templates
import TapeCompiler.Proofs.Words

/-!
# Jasmin assembly, read back

`Jasmin.Instruction.words` are the words of an instruction, and
`Jasmin.Instruction.ofWords?` reads an instruction off its words. `Jasmin.read?` reads a
whole text, and `Jasmin.read?_artifact` says that what it finds in an artifact are the
instructions the artifact was written from.
-/

namespace TapeCompiler.Jasmin

def Label.ofWord? (word : String) : Option Label :=
  (((afterName? "Lstart_" word).bind number?).map start).or
    ((((afterName? "Lend_" word).bind number?).map finish).or
      (((afterName? "Leof_" word).bind number?).map skip))

/-- The words of an instruction on a local variable. -/
def Slot.words (name : String) : Slot → List String
  | tape => [name ++ "_1"]
  | pointer => [name ++ "_2"]
  | input => [name, "3"]

def pushWords (n : Int) : List String :=
  if n = -1 then ["iconst_m1"]
  else if 0 ≤ n ∧ n ≤ 5 then ["iconst_" ++ toString n]
  else if -128 ≤ n ∧ n ≤ 127 then ["bipush", toString n]
  else if -32768 ≤ n ∧ n ≤ 32767 then ["sipush", toString n]
  else ["ldc", toString n]

/-- The number that a short push is named after. -/
def pushOfWord? (word : String) : Option Int :=
  (afterName? "iconst_" word).bind fun n =>
    (integer? n).or (if n = "m1" then some (-1) else none)

namespace Instruction

def words : Instruction → List String
  | directive text => wordsOf text
  | label l => [l.text ++ ":"]
  | push n => pushWords n
  | newArray => ["newarray", "byte"]
  | loadArray slot => slot.words "aload"
  | storeArray slot => slot.words "astore"
  | loadInt slot => slot.words "iload"
  | storeInt slot => slot.words "istore"
  | increment step => ["iinc", "2", toString step]
  | dup2 => ["dup2"]
  | loadByte => ["baload"]
  | storeByte => ["bastore"]
  | addInt => ["iadd"]
  | toByte => ["i2b"]
  | ifZero l => ["ifeq", l.text]
  | ifNegative l => ["iflt", l.text]
  | goto l => ["goto", l.text]
  | output => ["getstatic", "java/lang/System/out", "Ljava/io/PrintStream;"]
  | input => ["getstatic", "java/lang/System/in", "Ljava/io/InputStream;"]
  | callWrite => ["invokevirtual", "java/io/PrintStream/write(I)V"]
  | callRead => ["invokevirtual", "java/io/InputStream/read()I"]
  | callFlush => ["invokevirtual", "java/io/PrintStream/flush()V"]
  | .return => ["return"]

/-- The instructions that are always written the same. -/
def fixed : List Instruction :=
  [newArray, dup2, loadByte, storeByte, addInt, toByte, output, input, callWrite, callRead,
    callFlush, .return] ++
  [Slot.tape, .pointer, .input].flatMap fun slot =>
    [loadArray slot, storeArray slot, loadInt slot, storeInt slot]

/-- The instruction with these words. A line that starts with a point is a directive. -/
def ofWords? : List String → Option Instruction
  | [] => some (directive "")
  | ["iinc", "2", step] => (integer? step).map increment
  | ["bipush", n] => (integer? n).map push
  | ["sipush", n] => (integer? n).map push
  | ["ldc", n] => (integer? n).map push
  | ["ifeq", l] => (Label.ofWord? l).map ifZero
  | ["iflt", l] => (Label.ofWord? l).map ifNegative
  | ["goto", l] => (Label.ofWord? l).map goto
  | word :: rest =>
      if word.toList.head? = some '.' then some (directive (" ".intercalate (word :: rest)))
      else
        (((beforeColon? word).bind Label.ofWord?).map label).or
          (((pushOfWord? word).map push).or (fixed.find? (·.words = word :: rest)))

/-- Directives are read back if nothing but blanks between words is lost. -/
def IsLegible : Instruction → Prop
  | directive text => OnOneLine text ∧ ofWords? (wordsOf text) = some (directive text)
  | _ => True

end Instruction

/-- The instructions of a text, one on each line. -/
def read? (text : String) : Option (List Instruction) :=
  (textWords text).mapM Instruction.ofWords?

section Words

theorem Label.isWord_text (l : Label) : IsWord l.text := by
  cases l with
  | start id => exact isWord_append (by decide) (isWord_toString id)
  | finish id => exact isWord_append (by decide) (isWord_toString id)
  | skip number => exact isWord_append (by decide) (isWord_toString number)

theorem spells_pushText (n : Int) : Spells (pushText n) (pushWords n) := by
  have hlong {name s : String} (hname : Spells s [name]) (hgap : EndsInGap s) :
      Spells (s ++ toString n) [name, toString n] :=
    hname.append_word hgap (isWord_toString_int n)
  unfold pushText pushWords
  split
  next => decide
  split
  next => exact (isWord_append (by decide) (isWord_toString_int n)).spells
  split
  next => exact hlong (by decide) (by decide)
  split
  next => exact hlong (by decide) (by decide)
  next => exact hlong (by decide) (by decide)

theorem Instruction.spells_text {i : Instruction} (h : i.IsLegible) :
    Spells i.text i.words := by
  have hbranch {name s : String} (hname : Spells s [name]) (hgap : EndsInGap s) (l : Label) :
      Spells (s ++ l.text) [name, l.text] :=
    hname.append_word hgap l.isWord_text
  cases i with
  | directive text => exact ⟨h.1, rfl⟩
  | label l => exact (isWord_append l.isWord_text (by decide)).spells
  | push n => exact spells_pushText n
  | increment step =>
      have hname : Spells "iinc 2 " ["iinc", "2"] := by decide
      exact hname.append_word (by decide) (isWord_toString_int step)
  | loadArray slot => cases slot <;> decide
  | storeArray slot => cases slot <;> decide
  | loadInt slot => cases slot <;> decide
  | storeInt slot => cases slot <;> decide
  | ifZero l => exact hbranch (by decide) (by decide) l
  | ifNegative l => exact hbranch (by decide) (by decide) l
  | goto l => exact hbranch (by decide) (by decide) l
  | _ => decide

end Words

section Reading

@[simp] theorem Label.ofWord?_text (l : Label) : Label.ofWord? l.text = some l := by
  cases l with
  | start id => simp [ofWord?, text]
  | finish id =>
      have hstart (s : String) : afterName? "Lstart_" ("Lend_" ++ s) = none :=
        afterName?_append_eq_none (by decide) s
      simp [ofWord?, text, hstart]
  | skip number =>
      have hstart (s : String) : afterName? "Lstart_" ("Leof_" ++ s) = none :=
        afterName?_append_eq_none (by decide) s
      have hfinish (s : String) : afterName? "Lend_" ("Leof_" ++ s) = none :=
        afterName?_append_eq_none (by decide) s
      simp [ofWord?, text, hstart, hfinish]

theorem Label.head?_text (l : Label) : l.text.toList.head? = some 'L' := by
  cases l <;> exact head?_append (by decide) _

theorem small_cases {n : Int} (h : 0 ≤ n ∧ n ≤ 5) :
    n = 0 ∨ n = 1 ∨ n = 2 ∨ n = 3 ∨ n = 4 ∨ n = 5 := by
  omega

theorem ofWords?_pushWords (n : Int) : Instruction.ofWords? (pushWords n) = some (.push n) := by
  unfold pushWords
  split
  next h =>
    subst h
    decide
  split
  next h =>
    rcases small_cases h with rfl | rfl | rfl | rfl | rfl | rfl <;> decide
  split
  next => simp [Instruction.ofWords?]
  split
  next => simp [Instruction.ofWords?]
  next => simp [Instruction.ofWords?]

theorem Instruction.ofWords?_words {i : Instruction} (h : i.IsLegible) :
    ofWords? i.words = some i := by
  cases i with
  | directive text => exact h.2
  | label l => simp [words, ofWords?, l.head?_text]
  | push n => exact ofWords?_pushWords n
  | loadArray slot => cases slot <;> decide
  | storeArray slot => cases slot <;> decide
  | loadInt slot => cases slot <;> decide
  | storeInt slot => cases slot <;> decide
  | increment step => simp [words, ofWords?]
  | ifZero l => simp [words, ofWords?]
  | ifNegative l => simp [words, ofWords?]
  | goto l => simp [words, ofWords?]
  | _ => decide

end Reading

section Artifact

/-- The instructions without their indentation. -/
def body : Template Instruction :=
  template.map Line.content

def head : List Instruction :=
  prologue.map Line.content

def tail : List Instruction :=
  epilogue.map Line.content

/-- The instructions of an artifact. -/
def program (p : Program) : List Instruction :=
  head ++ body.write {} p ++ tail

@[simp] theorem map_content_placed (depth : Nat) (instructions : List Instruction) :
    (placed depth instructions).map Line.content = instructions := by
  rw [placed, List.map_map]
  refine (List.map_congr_left fun i _ => ?_).trans (List.map_id instructions)
  cases i <;> rfl

theorem body_command (place : Place) (c : Command) :
    body.command place c = commandInstructions place.number c :=
  map_content_placed _ _

theorem body_opening (place : Place) (id : Nat) :
    body.opening place id =
      .label (.start id) :: cellAddress ++ [.loadByte, .ifZero (.finish id)] := rfl

theorem body_closing (place : Place) (id : Nat) :
    body.closing place id = [.goto (.start id), .label (.finish id)] := rfl

theorem instructions_content (p : Program) :
    (instructions p).map Line.content = program p := by
  simp [instructions, program, head, tail, body, Template.map_write]

theorem ne_directive_of_mem_command (place : Place) (c : Command) :
    ∀ i ∈ body.command place c, ∀ text, i ≠ .directive text := by
  rw [body_command]
  cases c with
  | move amount =>
      rw [commandInstructions]
      exact List.forall_mem_map.mpr fun _ _ _ => Instruction.noConfusion
  | _ => simp [commandInstructions, cellAddress]

/-- Nothing that is written for a program is a directive. -/
theorem ne_directive_of_mem_write (p : Program) :
    ∀ i ∈ body.write {} p, ∀ text, i ≠ .directive text :=
  Template.forall_mem_write ne_directive_of_mem_command
    (by simp [body_opening, cellAddress]) (by simp [body_closing]) {} p

theorem Instruction.isLegible_of_ne {i : Instruction} (h : ∀ text, i ≠ .directive text) :
    i.IsLegible := by
  cases i with
  | directive text => exact absurd rfl (h text)
  | _ => trivial

theorem isLegible_of_mem_program {p : Program} : ∀ i ∈ program p, i.IsLegible := by
  have hbody : ∀ i ∈ body.write {} p, i.IsLegible :=
    fun i hi => Instruction.isLegible_of_ne (ne_directive_of_mem_write p i hi)
  have hends : ∀ i ∈ head ++ tail, i.IsLegible := by
    simp only [head, tail, prologue, epilogue, linesAt, List.map_cons, List.map_nil,
      List.cons_append, List.nil_append, List.forall_mem_cons, List.not_mem_nil, false_implies,
      implies_true, Instruction.IsLegible]
    decide +kernel
  simp only [program, List.forall_mem_append] at hends ⊢
  exact ⟨⟨hends.1, hbody⟩, hends.2⟩

theorem textWords_artifact (p : Program) :
    textWords (artifact p) = (program p).map Instruction.words := by
  rw [artifact, ← instructions_content]
  refine textWords_linesText fun i hi => Instruction.spells_text ?_
  rw [instructions_content] at hi
  exact isLegible_of_mem_program i hi

/-- An artifact is read back as the instructions it was written from. -/
theorem read?_artifact (p : Program) : read? (artifact p) = some (program p) := by
  rw [read?, textWords_artifact]
  exact mapM_of_forall fun i hi => Instruction.ofWords?_words (isLegible_of_mem_program i hi)

end Artifact

end TapeCompiler.Jasmin
