import TapeCompiler.Proofs.Outline
import TapeCompiler.Proofs.Words
import TapeCompiler.Target

/-!
# What the text of a block language tells

In a block language every part of a program is a line: a command is a statement, and a loop
is a block between two lines. The lines of a text tell their contents, without the
indentation (`contents_linesText`), and the content of a line tells the part that it was
written for, since no two kinds of parts have lines that start alike. So the text of a
program tells its outline.

C, JavaScript and Lox are block languages. Their texts hold the lines of the program between
fixed ones, and a Lox script also holds its input: `artifact_eq_iff_sameTree`.
-/

namespace TapeCompiler

/-- The content of a line, without the blanks in front. -/
def contentOf (line : String) : String :=
  String.ofList (line.toList.dropWhile (· == ' '))

/-- A text stands on one line, and starts with no blank. -/
def IsContent (text : String) : Prop :=
  OnOneLine text ∧ text.toList.head? ≠ some ' '

instance (text : String) : Decidable (IsContent text) :=
  inferInstanceAs (Decidable (_ ∧ _))

theorem contentOf_indented {text : String} (h : text.toList.head? ≠ some ' ') (count : Nat) :
    contentOf (String.ofList (List.replicate count ' ') ++ text) = text := by
  have hkept : text.toList.dropWhile (· == ' ') = text.toList := by
    rcases htext : text.toList with _ | ⟨c, rest⟩
    · rfl
    · rw [htext] at h
      exact List.dropWhile_cons_of_neg (by simpa using h)
  rw [contentOf, String.toList_append, String.toList_ofList,
    List.dropWhile_append_of_pos fun c hc => by simp [List.eq_of_mem_replicate hc], hkept,
    String.ofList_toList]

/-- The contents of lines are read off their text. -/
theorem contents_linesText {lines : List (Line String)}
    (h : ∀ content ∈ lines.map Line.content, IsContent content) :
    (linesOf (linesText id lines)).map contentOf = lines.map Line.content := by
  induction lines with
  | nil => rfl
  | cons line lines ih =>
      obtain ⟨⟨hone, hblank⟩, hlines⟩ := List.forall_mem_cons.mp h
      obtain ⟨count, hline⟩ :=
        exists_linesOf_lineText_append hone line.depth (linesText id lines)
      have htext : linesText id (line :: lines) =
          lineText line.depth line.content ++ linesText id lines := by
        simp [linesText]
      rw [htext, hline, List.map_cons, contentOf_indented hblank, ih hlines, List.map_cons]

theorem linesText_append {α : Type} (write : α → String) (xs ys : List (Line α)) :
    linesText write (xs ++ ys) = linesText write xs ++ linesText write ys := by
  simp [linesText]

theorem toListLoop_eq (bytes : ByteArray) (place : Nat) (before : List UInt8) :
    ByteArray.toList.loop bytes place before =
      before.reverse ++ bytes.data.toList.drop place := by
  fun_induction ByteArray.toList.loop bytes place before with
  | case1 place before h ih =>
      have hdrop : bytes.data.toList.drop place =
          bytes.get! place :: bytes.data.toList.drop (place + 1) := by
        rw [List.drop_eq_getElem_cons (by simpa using h)]
        congr 1
        exact (getElem!_pos bytes.data place h).symm
      rw [ih, hdrop, List.reverse_cons, List.append_assoc, List.singleton_append]
  | case2 place before h =>
      have hdrop : bytes.data.toList.drop place = [] :=
        List.drop_eq_nil_of_le (by simpa using h)
      rw [hdrop, List.append_nil]

theorem toList_inj {bytes bytes' : ByteArray} :
    bytes.toList = bytes'.toList ↔ bytes = bytes' := by
  rw [ByteArray.toList, ByteArray.toList, toListLoop_eq, toListLoop_eq, List.drop_zero,
    List.drop_zero, List.append_right_inj, Array.toList_inj, ByteArray.ext_iff]

def Command.kind : Command → PartKind
  | move _ => .move
  | add _ => .add
  | clear => .clear
  | print => .print
  | read => .read

/-- A language in which every part of a program is a line. -/
structure BlockLanguage where
  /-- What the line of a part starts with. -/
  front : PartKind → String
  /-- What stands behind an amount. -/
  back : String

namespace BlockLanguage

variable (l : BlockLanguage)

/-- What stands behind the front of the statement of a command. -/
def operand : Command → String
  | .move amount => toString amount ++ l.back
  | .add amount => toString (stepByte amount).toNat ++ l.back
  | _ => ""

def statement (c : Command) : String :=
  l.front c.kind ++ l.operand c

/-- The lines of the body of a program, which is `depth` levels deep. -/
def template (depth : Nat) : Template (Line String) where
  command := fun place c => [⟨place.depth + depth, l.statement c⟩]
  opening := fun place _ => [⟨place.depth + depth, l.front .opening⟩]
  closing := fun place _ => [⟨place.depth + depth, l.front .closing⟩]

/-- The part that a line was written for, by its content. -/
def part (content : String) : Part String :=
  if content = l.front .opening then .opening
  else if content = l.front .closing then .closing
  else .command content

/-- The lines of the language can be read back. -/
structure Legible : Prop where
  toldBy : PartKind.ToldBy l.front
  isContent : ∀ kind, IsContent (l.front kind)
  onOneLine : OnOneLine l.back

variable {l}

/-- The statement of a command tells all of it, but amounts that are added modulo 256. -/
theorem statement_eq_iff (h : l.Legible) {c d : Command} :
    l.statement c = l.statement d ↔ c.SameByte d := by
  constructor
  · intro heq
    obtain ⟨hkind, hoperand⟩ := h.toldBy.append_inj heq
    cases c <;> cases d <;> simp only [Command.kind, reduceCtorEq] at hkind
    case move.move a b =>
      obtain rfl := eq_of_toString_int_eq ((String.append_left_inj _).mp hoperand)
      rfl
    case add.add a b =>
      have hab := eq_of_toString_eq ((String.append_left_inj _).mp hoperand)
      exact congrArg Command.add (stepByte_eq_iff.mp (UInt8.toNat_inj.mp hab))
    all_goals rfl
  · intro heq
    cases c <;> cases d <;> simp only [Command.SameByte, Command.residue, reduceCtorEq] at heq
    case move.move a b => rw [heq]
    case add.add a b =>
      rw [statement, statement, operand, operand, stepByte_eq_iff.mpr (Command.add.inj heq)]
      rfl
    all_goals rfl

theorem Legible.isContent_statement (h : l.Legible) (c : Command) :
    IsContent (l.statement c) := by
  have hoperand : OnOneLine (l.operand c) := by
    cases c with
    | move amount => exact onOneLine_append (isWord_toString_int amount).onOneLine h.onOneLine
    | add amount => exact onOneLine_append (isWord_toString _).onOneLine h.onOneLine
    | _ => exact fun c hc => by simp [operand] at hc
  obtain ⟨hone, hblank⟩ := h.isContent c.kind
  refine ⟨onOneLine_append hone hoperand, ?_⟩
  have hne : (l.front c.kind).toList ≠ [] := by simpa using h.toldBy.ne_empty c.kind
  rwa [statement, String.toList_append, List.head?_append_of_ne_nil _ hne]

theorem statement_ne (h : l.Legible) (c : Command) :
    l.statement c ≠ l.front .opening ∧ l.statement c ≠ l.front .closing := by
  have hne {kind : PartKind} (heq : l.statement c = l.front kind) : c.kind = kind := by
    rw [← String.append_empty (s := l.front kind)] at heq
    exact (h.toldBy.append_inj heq).1
  refine ⟨fun heq => ?_, fun heq => ?_⟩ <;> cases c <;> cases hne heq

theorem map_part_write (h : l.Legible) (depth : Nat) (place : Place) (p : Program) :
    ((l.template depth).write place p).map (fun line => l.part line.content) =
      p.outline l.statement := by
  have hends : l.front .closing ≠ l.front .opening := by
    intro heq
    have hfront : (l.front .closing).toList <+: (l.front .opening).toList :=
      heq ▸ List.prefix_rfl
    cases h.toldBy _ _ hfront
  have hnumbers : (l.template depth).SameNumbers (Program.outlineTemplate l.statement) :=
    ⟨rfl, rfl⟩
  refine Program.map_write_eq_outline hnumbers (fun _ c => ?_) (fun _ _ => ?_) (fun _ _ => ?_)
    place p
  · obtain ⟨hopening, hclosing⟩ := statement_ne h c
    simp [template, part, hopening, hclosing]
  · simp [template, part]
  · simp [template, part, hends]

theorem isContent_of_mem_write (h : l.Legible) (depth : Nat) (place : Place) (p : Program) :
    ∀ content ∈ ((l.template depth).write place p).map Line.content, IsContent content := by
  refine List.forall_mem_map.mpr (Template.forall_mem_write ?_ ?_ ?_ place p)
  · exact fun _ c => List.forall_mem_singleton.mpr (h.isContent_statement c)
  · exact fun _ _ => List.forall_mem_singleton.mpr (h.isContent .opening)
  · exact fun _ _ => List.forall_mem_singleton.mpr (h.isContent .closing)

/-- The contents of the lines of a body tell the program. -/
theorem sameTree_of_contents_eq (h : l.Legible) {depth : Nat} {place : Place} {p q : Program}
    (heq : ((l.template depth).write place p).map Line.content =
      ((l.template depth).write place q).map Line.content) :
    p.SameTree Command.SameByte q := by
  have houtline := congrArg (List.map l.part) heq
  rw [List.map_map, List.map_map] at houtline
  have hparts := (map_part_write h depth place p).symm.trans
    (houtline.trans (map_part_write h depth place q))
  exact (Program.outline_eq_iff.mp hparts).imp fun _ _ => (statement_eq_iff h).mp

theorem write_eq_of_sameTree (h : l.Legible) {depth : Nat} {p q : Program}
    (heq : p.SameTree Command.SameByte q) : ∀ place place' : Place, place.depth = place'.depth →
      (l.template depth).write place p = (l.template depth).write place' q := by
  -- A place holds the ids of the loops around it, so the places in the two programs are the
  -- same only in their depth.
  induction heq with
  | nil => exact fun _ _ _ => rfl
  | @command c d p q hc _ ih =>
      intro place place' hplace
      have hline : (l.template depth).command place c = (l.template depth).command place' d := by
        simp only [template, hplace, (statement_eq_iff h).mpr hc]
      rw [Template.write_command, Template.write_command, hline]
      exact congrArg _ (ih _ _ hplace)
  | @loop id id' body body' p q _ _ ihBody ih =>
      intro place place' hplace
      have hopening : (l.template depth).opening place id =
          (l.template depth).opening place' id' := by simp only [template, hplace]
      have hclosing : (l.template depth).closing place id =
          (l.template depth).closing place' id' := by simp only [template, hplace]
      have hinner (count count' : Nat) :
          ((place.skip count).enter id).depth = ((place'.skip count').enter id').depth :=
        congrArg (· + 1) hplace
      rw [Template.write_loop, Template.write_loop, hopening, hclosing,
        ihBody _ _ (hinner (l.template depth).loopNumbers (l.template depth).loopNumbers)]
      exact congrArg _ (ih _ _ hplace)

/-- The text of a program between lines that all programs have. -/
theorem linesText_write_eq_iff (h : l.Legible) (before after : List (Line String)) (depth : Nat)
    (p q : Program) :
    linesText id (before ++ (l.template depth).write {} p ++ after) =
        linesText id (before ++ (l.template depth).write {} q ++ after) ↔
      p.SameTree Command.SameByte q := by
  constructor
  · intro heq
    simp only [linesText_append, String.append_left_inj, String.append_right_inj] at heq
    have hcontents := congrArg (fun text => (linesOf text).map contentOf) heq
    simp only [contents_linesText (isContent_of_mem_write h depth {} _)] at hcontents
    exact sameTree_of_contents_eq h hcontents
  · intro heq
    rw [write_eq_of_sameTree h heq {} {} rfl]

end BlockLanguage

namespace C

/-- The lines of the body of a program. -/
def language : BlockLanguage where
  front
    | .move => "ptr += "
    | .add => "*ptr += "
    | .clear => "*ptr = 0;"
    | .print => "putchar(*ptr);"
    | .read => "if ((c = getchar()) != EOF) *ptr = (unsigned char)c;"
    | .opening => "while (*ptr) \x7b"
    | .closing => "\x7d"
  back := ";"

theorem legible_language : language.Legible where
  toldBy := by decide
  isContent kind := by cases kind <;> decide
  onOneLine := by decide

theorem template_eq : template = language.template 1 := by
  have hcommand : commandText = language.statement := by
    funext c
    cases c <;> rfl
  rw [template, hcommand]
  rfl

theorem artifact_eq_iff (p q : Program) :
    artifact p = artifact q ↔ p.SameTree Command.SameByte q := by
  rw [artifact, artifact, lines, lines, template_eq]
  exact BlockLanguage.linesText_write_eq_iff legible_language prologue epilogue 1 p q

end C

namespace Js

/-- The lines of the body of a program. -/
def language : BlockLanguage where
  front
    | .move => "ptr += "
    | .add => "memory[ptr] += "
    | .clear => "memory[ptr] = 0"
    | .print => "output.push(memory[ptr])"
    | .read => "if (inputPos < input.length) memory[ptr] = input[inputPos++]"
    | .opening => "while (memory[ptr]) \x7b"
    | .closing => "\x7d"
  back := ""

theorem legible_language : language.Legible where
  toldBy := by decide
  isContent kind := by cases kind <;> decide
  onOneLine := by decide

theorem template_eq : template = language.template 0 := by
  have hcommand : commandText = language.statement := by
    funext c
    cases c <;> simp [commandText, language, BlockLanguage.statement, BlockLanguage.operand,
      Command.kind]
  rw [template, hcommand]
  rfl

theorem artifact_eq_iff (p q : Program) :
    artifact p = artifact q ↔ p.SameTree Command.SameByte q := by
  rw [artifact, artifact, lines, lines, template_eq]
  exact BlockLanguage.linesText_write_eq_iff legible_language prologue epilogue 0 p q

end Js

namespace Lox

/-- The lines of the body of a program. -/
def language : BlockLanguage where
  front
    | .move => "memory.move("
    | .add => "memory.add("
    | .clear => "memory.set(0);"
    | .print => "print memory.get();"
    | .read => "if (!input.atEnd()) \x7b memory.set(input.get()); input.move(1); \x7d"
    | .opening => "while (memory.get() != 0) \x7b"
    | .closing => "\x7d"
  back := ");"

theorem legible_language : language.Legible where
  toldBy := by decide
  isContent kind := by cases kind <;> decide
  onOneLine := by decide

theorem template_eq : template = language.template 0 := by
  have hcommand : commandText = language.statement := by
    funext c
    cases c <;> rfl
  rw [template, hcommand]
  rfl

/-- The line that puts a byte in front of the input. -/
def insertLine (byte : UInt8) : String :=
  "input.insert(" ++ toString byte.toNat ++ ");"

def inputLines (input : List UInt8) : List String :=
  ["", "var input = Memory(0);"] ++ input.reverse.map insertLine

/-- The first line behind the input. -/
def memoryLine : String :=
  "var memory = Memory(" ++ toString Tape.standardLength ++ ");"

/-- The lines behind the classes. -/
def script (input : List UInt8) (p : Program) : List (Line String) :=
  linesAt 0 (inputLines input ++ [memoryLine, ""]) ++ (language.template 0).write {} p

theorem lines_eq (input : String) (p : Program) :
    lines input p = classes ++ script input.toUTF8.toList p := by
  rw [lines, prologue, template_eq, List.append_assoc]
  rfl

theorem insertLine_injective : Function.Injective insertLine := by
  intro a b h
  rw [insertLine, insertLine, String.append_left_inj, String.append_right_inj] at h
  exact UInt8.toNat_inj.mp (eq_of_toString_eq h)

theorem inputLines_injective : Function.Injective inputLines := by
  intro input input' h
  exact List.reverse_injective
    (List.map_injective_iff.mpr insertLine_injective (List.append_cancel_left h))

theorem head?_insertLine (byte : UInt8) : (insertLine byte).toList.head? = some 'i' := by
  rw [insertLine, String.append_assoc]
  exact head?_append rfl _

/-- An input line starts otherwise than the line behind the input. -/
theorem memoryLine_notMem_inputLines (input : List UInt8) : memoryLine ∉ inputLines input := by
  have hinsert (byte : UInt8) : insertLine byte ≠ memoryLine := by
    intro heq
    have hhead := head?_insertLine byte
    rw [heq] at hhead
    cases hhead
  simp only [inputLines, List.mem_append, List.mem_map, not_or, not_exists, not_and]
  exact ⟨by decide, fun byte _ => hinsert byte⟩

theorem isContent_inputLines (input : List UInt8) :
    ∀ text ∈ inputLines input, IsContent text := by
  refine List.forall_mem_append.mpr ⟨by decide, List.forall_mem_map.mpr fun byte _ => ?_⟩
  have hfront : OnOneLine "input.insert(" := by decide
  have hback : OnOneLine ");" := by decide
  refine ⟨onOneLine_append (onOneLine_append hfront (isWord_toString _).onOneLine) hback, ?_⟩
  rw [head?_insertLine]
  decide

theorem contents_script (input : List UInt8) (p : Program) :
    (linesOf (linesText id (script input p))).map contentOf =
      inputLines input ++
        memoryLine :: "" :: ((language.template 0).write {} p).map Line.content := by
  have hlines : (script input p).map Line.content =
      inputLines input ++
        memoryLine :: "" :: ((language.template 0).write {} p).map Line.content := by
    rw [script, List.map_append, map_content_linesAt, List.append_assoc]
    rfl
  have hfixed : IsContent memoryLine ∧ IsContent "" := by decide
  rw [contents_linesText, hlines]
  rw [hlines, List.forall_mem_append, List.forall_mem_cons, List.forall_mem_cons]
  exact ⟨isContent_inputLines input, hfixed.1, hfixed.2,
    BlockLanguage.isContent_of_mem_write legible_language 0 {} p⟩

theorem linesText_script_eq_iff (input input' : List UInt8) (p q : Program) :
    linesText id (script input p) = linesText id (script input' q) ↔
      input = input' ∧ p.SameTree Command.SameByte q := by
  constructor
  · intro heq
    have hcontents := congrArg (fun text => (linesOf text).map contentOf) heq
    simp only [contents_script] at hcontents
    obtain ⟨hinput, hbody⟩ := eq_of_append_cons_eq (memoryLine_notMem_inputLines input)
      (memoryLine_notMem_inputLines input') hcontents
    exact ⟨inputLines_injective hinput,
      BlockLanguage.sameTree_of_contents_eq legible_language (List.cons_eq_cons.mp hbody).2⟩
  · rintro ⟨rfl, heq⟩
    rw [script, script, BlockLanguage.write_eq_of_sameTree legible_language heq {} {} rfl]

theorem artifact_eq_iff (s t : String) (p q : Program) :
    artifact s p = artifact t q ↔ s = t ∧ p.SameTree Command.SameByte q := by
  have hbytes : s.toUTF8.toList = t.toUTF8.toList ↔ s = t :=
    toList_inj.trans String.toByteArray_inj
  rw [artifact, artifact, lines_eq, lines_eq, linesText_append, linesText_append,
    String.append_right_inj, linesText_script_eq_iff, hbytes]

end Lox

/-- The texts of the block languages lose nothing of a program but the ids of loops and
multiples of 256 in the amounts that are added, and the text of a Lox script loses nothing
of the input. -/
theorem artifact_eq_iff_sameTree (p q : Program) :
    (C.artifact p = C.artifact q ↔ p.SameTree Command.SameByte q) ∧
    (Js.artifact p = Js.artifact q ↔ p.SameTree Command.SameByte q) ∧
    ∀ s t, Lox.artifact s p = Lox.artifact t q ↔ s = t ∧ p.SameTree Command.SameByte q :=
  ⟨C.artifact_eq_iff p q, Js.artifact_eq_iff p q, fun s t => Lox.artifact_eq_iff s t p q⟩

end TapeCompiler
