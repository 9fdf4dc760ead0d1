import TapeCompiler.Target.Llvm
import TapeCompiler.Proofs.Templates
import TapeCompiler.Proofs.Words

/-!
# The words of LLVM modules

`Llvm.Statement.words` are the words of a statement. `Llvm.textWords_artifact` says that
the words of an artifact are those of its statements.
-/

namespace TapeCompiler.Llvm

namespace Statement

def words : Statement → List String
  | declaration text => wordsOf text
  | entry => ["entry:"]
  | label l => [l.text ++ ":"]
  | allocTape dest =>
      [valueText dest, "=", "alloca", "[30000", "x", "i8]", "align", "16"]
  | allocPointer dest => [valueText dest, "=", "alloca", "ptr", "align", "8"]
  | zeroTape tape =>
      ["call", "void", "@llvm.memset.p0.i64(ptr", "align", "16", valueText tape, "i8", "0",
        "i64", toString Tape.standardLength, "i1", "false)"]
  | firstCell dest tape =>
      [valueText dest, "=", "getelementptr", "inbounds", "[30000", "x", "i8]", "ptr",
        valueText tape, "i64", "0", "i64", "0"]
  | loadPointer dest slot =>
      [valueText dest, "=", "load", "ptr", "ptr", valueText slot, "align", "8"]
  | storePointer pointer slot =>
      ["store", "ptr", valueText pointer, "ptr", valueText slot, "align", "8"]
  | offset dest pointer amount =>
      [valueText dest, "=", "getelementptr", "inbounds", "i8", "ptr", valueText pointer,
        "i64", toString amount]
  | loadByte dest pointer =>
      [valueText dest, "=", "load", "i8", "ptr", valueText pointer, "align", "1"]
  | storeByte byte pointer =>
      ["store", "i8", valueText byte, "ptr", valueText pointer, "align", "1"]
  | storeZero pointer => ["store", "i8", "0", "ptr", valueText pointer, "align", "1"]
  | addByte dest byte n => [valueText dest, "=", "add", "i8", valueText byte, toString n]
  | isNonZero dest byte => [valueText dest, "=", "icmp", "ne", "i8", valueText byte, "0"]
  | widen dest byte => [valueText dest, "=", "zext", "i8", valueText byte, "to", "i32"]
  | narrow dest word => [valueText dest, "=", "trunc", "i32", valueText word, "to", "i8"]
  | putchar dest word =>
      [valueText dest, "=", "call", "i32", "@putchar(i32", valueText word ++ ")"]
  | getchar dest => [valueText dest, "=", "call", "i32", "@getchar()"]
  | isEnd dest word => [valueText dest, "=", "icmp", "eq", "i32", valueText word, "-1"]
  | select dest condition byte byte' =>
      [valueText dest, "=", "select", "i1", valueText condition, "i8", valueText byte, "i8",
        valueText byte']
  | branch l => ["br", "label", "%" ++ l.text]
  | branchIf condition l l' =>
      ["br", "i1", valueText condition, "label", "%" ++ l.text, "label", "%" ++ l'.text]
  | ret => ["ret", "i32", "0"]

/-- Declarations are words on one line. -/
def IsLegible : Statement → Prop
  | declaration text => OnOneLine text
  | _ => True

end Statement

section Words

variable {s t : String} {words words' : List String}

theorem isWord_valueText (n : Nat) : IsWord (valueText n) :=
  isWord_append (by decide) (isWord_toString n)

theorem Label.isWord_text (l : Label) : IsWord l.text := by
  cases l with
  | test name => exact isWord_append (by decide) (isWord_toString name)
  | body name =>
      exact isWord_append (isWord_append (by decide) (isWord_toString name)) (by decide)
  | finish name =>
      exact isWord_append (isWord_append (by decide) (isWord_toString name)) (by decide)

/-- A value between two texts, with gaps around it. -/
theorem spells_around (hs : Spells s words) (hend : EndsInGap s) (ht : Spells t words')
    (hstart : StartsInGap t) (n : Nat) :
    Spells (s ++ valueText n ++ t) (words ++ valueText n :: words') := by
  have htext := (hs.append_word hend (isWord_valueText n)).append ht (.inr hstart)
  rwa [List.append_assoc, List.singleton_append] at htext

theorem spells_definition (dest : Nat) (h : Spells t words) :
    Spells (definition dest t) (valueText dest :: "=" :: words) := by
  have hequals : Spells " = " ["="] := by decide
  have hdest := (isWord_valueText dest).spells.append hequals (.inr (by decide))
  exact hdest.append h (.inl (endsInGap_append _ (by decide)))

/-- The target of a branch, behind what the branch depends on. -/
theorem spells_target (hs : Spells s words) (l : Label) :
    Spells (s ++ ", label %" ++ l.text) (words ++ ["label", "%" ++ l.text]) := by
  have hlabel : Spells ", label " ["label"] := by decide
  have htarget : Spells (", label " ++ ("%" ++ l.text)) ["label", "%" ++ l.text] :=
    hlabel.append_word (by decide) (isWord_append (by decide) l.isWord_text)
  have htext : ", label %" ++ l.text = ", label " ++ ("%" ++ l.text) := by
    rw [← String.append_assoc]
    rfl
  rw [String.append_assoc, htext]
  exact hs.append htarget (.inr (by rw [StartsInGap, String.toList_append]; rfl))

theorem Statement.spells_text {i : Statement} (h : i.IsLegible) : Spells i.text i.words := by
  have halign8 : Spells ", align 8" ["align", "8"] := by decide
  have halign1 : Spells ", align 1" ["align", "1"] := by decide
  cases i with
  | declaration text => exact ⟨h, rfl⟩
  | label l => exact (isWord_append l.isWord_text (by decide)).spells
  | allocTape dest =>
      have htext : (allocTape dest).text =
          definition dest "alloca [30000 x i8], align 16" := rfl
      rw [htext]
      exact spells_definition dest (by decide)
  | allocPointer dest => exact spells_definition dest (by decide)
  | zeroTape tape =>
      have hname : Spells "call void @llvm.memset.p0.i64(ptr align 16 "
          ["call", "void", "@llvm.memset.p0.i64(ptr", "align", "16"] := by decide
      have hbyte : Spells ", i8 0, i64 " ["i8", "0", "i64"] := by decide
      have hend : Spells ", i1 false)" ["i1", "false)"] := by decide
      have hlength := (spells_around hname (by decide) hbyte (by decide) tape).append_word
        (endsInGap_append _ (by decide)) (isWord_toString Tape.standardLength)
      exact hlength.append hend (.inr (by decide))
  | firstCell dest tape =>
      have hname : Spells "getelementptr inbounds [30000 x i8], ptr "
          ["getelementptr", "inbounds", "[30000", "x", "i8]", "ptr"] := by decide
      have hrest : Spells ", i64 0, i64 0" ["i64", "0", "i64", "0"] := by decide
      have htext : (firstCell dest tape).text =
          definition dest ("getelementptr inbounds [30000 x i8], ptr " ++ valueText tape ++
            ", i64 0, i64 0") := rfl
      rw [htext]
      exact spells_definition dest (spells_around hname (by decide) hrest (by decide) tape)
  | loadPointer dest slot =>
      have hname : Spells "load ptr, ptr " ["load", "ptr", "ptr"] := by decide
      exact spells_definition dest (spells_around hname (by decide) halign8 (by decide) slot)
  | storePointer pointer slot =>
      have hname : Spells "store ptr " ["store", "ptr"] := by decide
      have hto : Spells ", ptr " ["ptr"] := by decide
      have hpointer := spells_around hname (by decide) hto (by decide) pointer
      exact spells_around hpointer (endsInGap_append _ (by decide)) halign8 (by decide) slot
  | offset dest pointer amount =>
      have hname : Spells "getelementptr inbounds i8, ptr "
          ["getelementptr", "inbounds", "i8", "ptr"] := by decide
      have hindex : Spells ", i64 " ["i64"] := by decide
      have hpointer := spells_around hname (by decide) hindex (by decide) pointer
      exact spells_definition dest
        (hpointer.append_word (endsInGap_append _ (by decide)) (isWord_toString_int amount))
  | loadByte dest pointer =>
      have hname : Spells "load i8, ptr " ["load", "i8", "ptr"] := by decide
      exact spells_definition dest (spells_around hname (by decide) halign1 (by decide) pointer)
  | storeByte byte pointer =>
      have hname : Spells "store i8 " ["store", "i8"] := by decide
      have hto : Spells ", ptr " ["ptr"] := by decide
      have hbyte := spells_around hname (by decide) hto (by decide) byte
      exact spells_around hbyte (endsInGap_append _ (by decide)) halign1 (by decide) pointer
  | storeZero pointer =>
      have hname : Spells "store i8 0, ptr " ["store", "i8", "0", "ptr"] := by decide
      exact spells_around hname (by decide) halign1 (by decide) pointer
  | addByte dest byte n =>
      have hname : Spells "add i8 " ["add", "i8"] := by decide
      have hbyte := hname.append_word (by decide) (isWord_valueText byte)
      exact spells_definition dest (hbyte.comma (isWord_toString_int n))
  | isNonZero dest byte =>
      have hname : Spells "icmp ne i8 " ["icmp", "ne", "i8"] := by decide
      have hzero : Spells ", 0" ["0"] := by decide
      exact spells_definition dest (spells_around hname (by decide) hzero (by decide) byte)
  | widen dest byte =>
      have hname : Spells "zext i8 " ["zext", "i8"] := by decide
      have hto : Spells " to i32" ["to", "i32"] := by decide
      exact spells_definition dest (spells_around hname (by decide) hto (by decide) byte)
  | narrow dest word =>
      have hname : Spells "trunc i32 " ["trunc", "i32"] := by decide
      have hto : Spells " to i8" ["to", "i8"] := by decide
      exact spells_definition dest (spells_around hname (by decide) hto (by decide) word)
  | putchar dest word =>
      have hname : Spells "call i32 @putchar(i32 " ["call", "i32", "@putchar(i32"] := by decide
      have hword : IsWord (valueText word ++ ")") :=
        isWord_append (isWord_valueText word) (by decide)
      have hcall := hname.append_word (by decide) hword
      rw [← String.append_assoc] at hcall
      exact spells_definition dest hcall
  | getchar dest => exact spells_definition dest (by decide)
  | isEnd dest word =>
      have hname : Spells "icmp eq i32 " ["icmp", "eq", "i32"] := by decide
      have hend : Spells ", -1" ["-1"] := by decide
      exact spells_definition dest (spells_around hname (by decide) hend (by decide) word)
  | select dest condition byte byte' =>
      have hname : Spells "select i1 " ["select", "i1"] := by decide
      have hbyte : Spells ", i8 " ["i8"] := by decide
      have hcondition := spells_around hname (by decide) hbyte (by decide) condition
      have hfirst := spells_around hcondition (endsInGap_append _ (by decide)) hbyte (by decide)
        byte
      exact spells_definition dest
        (hfirst.append_word (endsInGap_append _ (by decide)) (isWord_valueText byte'))
  | branch l =>
      have hname : Spells "br label " ["br", "label"] := by decide
      have hlabel := hname.append_word (by decide)
        (isWord_append (by decide : IsWord "%") l.isWord_text)
      rwa [← String.append_assoc] at hlabel
  | branchIf condition l l' =>
      have hname : Spells "br i1 " ["br", "i1"] := by decide
      have hcondition := hname.append_word (by decide) (isWord_valueText condition)
      exact spells_target (spells_target hcondition l) l'
  | _ => decide

end Words

section Artifact

/-- The statements without their indentation. -/
def body : Template Statement :=
  template.map Line.content

def head : List Statement :=
  prologue.map Line.content

def tail : List Statement :=
  epilogue.map Line.content

/-- The statements of an artifact. -/
def program (p : Program) : List Statement :=
  head ++ body.write { number := 3 } p ++ tail

theorem body_command (place : Place) (c : Command) :
    body.command place c = commandStatements place.number c :=
  map_content_linesAt _ _

theorem body_opening (place : Place) (id : Nat) :
    body.opening place id =
      let n := place.number
      [.branch (.test n), .label (.test n), .loadPointer (n + 1) slot,
        .loadByte (n + 2) (n + 1), .isNonZero (n + 3) (n + 2),
        .branchIf (n + 3) (.body n) (.finish n), .label (.body n)] := rfl

theorem body_closing (place : Place) (id : Nat) :
    body.closing place id =
      [.branch (.test place.number), .label (.finish place.number)] := rfl

theorem statements_content (p : Program) :
    (statements p).map Line.content = program p := by
  simp [statements, program, head, tail, body, Template.map_write]

theorem ne_declaration_of_mem_command (place : Place) (c : Command) :
    ∀ i ∈ body.command place c, ∀ text, i ≠ .declaration text := by
  rw [body_command]
  cases c <;> simp [commandStatements]

/-- Nothing that is written for a program is a declaration. -/
theorem ne_declaration_of_mem_write (place : Place) (p : Program) :
    ∀ i ∈ body.write place p, ∀ text, i ≠ .declaration text :=
  Template.forall_mem_write ne_declaration_of_mem_command
    (by simp [body_opening]) (by simp [body_closing]) place p

theorem Statement.isLegible_of_ne {i : Statement} (h : ∀ text, i ≠ .declaration text) :
    i.IsLegible := by
  cases i with
  | declaration text => exact absurd rfl (h text)
  | _ => trivial

theorem isLegible_of_mem_program {p : Program} : ∀ i ∈ program p, i.IsLegible := by
  have hbody : ∀ i ∈ body.write { number := 3 } p, i.IsLegible :=
    fun i hi => Statement.isLegible_of_ne (ne_declaration_of_mem_write _ p i hi)
  have hends : ∀ i ∈ head ++ tail, i.IsLegible := by
    simp only [head, tail, prologue, epilogue, linesAt, List.map_cons, List.map_nil,
      List.cons_append, List.nil_append, List.forall_mem_cons, List.not_mem_nil, false_implies,
      implies_true, Statement.IsLegible]
    decide +kernel
  simp only [program, List.forall_mem_append] at hends ⊢
  exact ⟨⟨hends.1, hbody⟩, hends.2⟩

theorem textWords_artifact (p : Program) :
    textWords (artifact p) = (program p).map Statement.words := by
  rw [artifact, ← statements_content]
  refine textWords_linesText fun i hi => Statement.spells_text ?_
  rw [statements_content] at hi
  exact isLegible_of_mem_program i hi

end Artifact

end TapeCompiler.Llvm
