import TapeCompiler.Proofs.Llvm.Text

/-!
# What the lines of an LLVM module say

A `Sentence` is what a line says about names and about where the run goes on: the label or
the value that it defines, the values that it uses, the labels that it may branch to, and
whether it ends a block. `Sentence.ofWords` reads it off the words of a line, whatever the
line does otherwise. `Statement.sentence` is the sentence of a statement, and `ofWords_words`
says that it is the one that is read.
-/

namespace TapeCompiler.Llvm

/-- What a line says about names, which are given without the sign in front of them. -/
structure Sentence where
  /-- The label that the line is. -/
  label? : Option String := none
  /-- The value that the line defines. -/
  value? : Option String := none
  operands : List String := []
  /-- The labels that the line may branch to. -/
  targets : List String := []
  /-- Whether the line ends a block. -/
  terminates : Bool := false
deriving DecidableEq, Repr

def isNameChar (c : Char) : Bool :=
  c.isAlphanum || c == '.' || c == '_' || c == '-' || c == '$'

/-- The name behind the sign at the front of a word. -/
def nameOf? (word : String) : Option String :=
  (afterName? "%" word).map fun rest => String.ofList (rest.toList.takeWhile isNameChar)

/-- The names among words, where the word `before` stands in front of them: those of labels
stand behind the word `label`, all others are those of values. -/
def namesIn (ofLabels : Bool) (before : String) : List String → List String
  | [] => []
  | word :: rest =>
      (if (before == "label") = ofLabels then (nameOf? word).toList else []) ++
        namesIn ofLabels word rest

/-- A line defines the value that stands in front of an equals sign. -/
def isDefinition (words : List String) : Bool :=
  words.tail.head? = some "="

/-- The words of a line behind the value that it defines. -/
def rightSide (words : List String) : List String :=
  if isDefinition words then words.drop 2 else words

def Sentence.ofWords (words : List String) : Sentence where
  label? := if words.length = 1 then words.head?.bind beforeColon? else none
  value? := if isDefinition words then words.head?.bind nameOf? else none
  operands := namesIn false "" (rightSide words)
  targets := namesIn true "" (rightSide words)
  terminates := words.head? = some "br" || words.head? = some "ret"

/-- What the lines of a text say. -/
def sentences (text : String) : List Sentence :=
  (textWords text).map Sentence.ofWords

/-- The name with a number. -/
def nameText (n : Nat) : String :=
  "t" ++ toString n

def Statement.sentence : Statement → Sentence
  | declaration _ => {}
  | entry => { label? := some "entry" }
  | label l => { label? := some l.text }
  | allocTape dest => { value? := some (nameText dest) }
  | allocPointer dest => { value? := some (nameText dest) }
  | zeroTape tape => { operands := [nameText tape] }
  | firstCell dest tape => { value? := some (nameText dest), operands := [nameText tape] }
  | loadPointer dest slot => { value? := some (nameText dest), operands := [nameText slot] }
  | storePointer pointer slot => { operands := [nameText pointer, nameText slot] }
  | offset dest pointer _ => { value? := some (nameText dest), operands := [nameText pointer] }
  | loadByte dest pointer => { value? := some (nameText dest), operands := [nameText pointer] }
  | storeByte byte pointer => { operands := [nameText byte, nameText pointer] }
  | storeZero pointer => { operands := [nameText pointer] }
  | addByte dest byte _ => { value? := some (nameText dest), operands := [nameText byte] }
  | isNonZero dest byte => { value? := some (nameText dest), operands := [nameText byte] }
  | widen dest byte => { value? := some (nameText dest), operands := [nameText byte] }
  | narrow dest word => { value? := some (nameText dest), operands := [nameText word] }
  | putchar dest word => { value? := some (nameText dest), operands := [nameText word] }
  | getchar dest => { value? := some (nameText dest) }
  | isEnd dest word => { value? := some (nameText dest), operands := [nameText word] }
  | select dest condition byte byte' =>
      { value? := some (nameText dest)
        operands := [nameText condition, nameText byte, nameText byte'] }
  | branch l => { targets := [l.text], terminates := true }
  | branchIf condition l l' =>
      { operands := [nameText condition], targets := [l.text, l'.text], terminates := true }
  | ret => { terminates := true }

section Reading

variable {word name : String}

theorem isNameChar_of_mem_text (l : Label) : ∀ c ∈ l.text.toList, isNameChar c = true := by
  have hdigits (n : Nat) : ∀ c ∈ (toString n).toList, isNameChar c = true := by
    intro c hc
    simp [isNameChar, Char.isAlphanum, isDigit_of_mem_toString hc]
  have hname := List.all_eq_true.mp (by decide : "t".toList.all isNameChar = true)
  have hbody := List.all_eq_true.mp (by decide : ".body".toList.all isNameChar = true)
  have hend := List.all_eq_true.mp (by decide : ".end".toList.all isNameChar = true)
  cases l <;> simp only [Label.text, String.toList_append, List.forall_mem_append]
  case test n => exact ⟨hname, hdigits n⟩
  case body n => exact ⟨⟨hname, hdigits n⟩, hbody⟩
  case finish n => exact ⟨⟨hname, hdigits n⟩, hend⟩

theorem takeWhile_append_of_forall {α : Type} {p : α → Bool} {xs ys : List α}
    (hxs : ∀ x ∈ xs, p x = true) (hys : ys.head?.all (!p ·) = true) :
    (xs ++ ys).takeWhile p = xs := by
  rw [List.takeWhile_append_of_pos hxs]
  cases ys with
  | nil => simp
  | cons y ys => simp_all

theorem nameOf?_sign (hname : ∀ c ∈ name.toList, isNameChar c = true) (rest : String)
    (hrest : rest.toList.head?.all (!isNameChar ·) = true) :
    nameOf? ("%" ++ (name ++ rest)) = some name := by
  rw [nameOf?, afterName?_append, Option.map_some, String.toList_append,
    takeWhile_append_of_forall hname hrest, String.ofList_toList]

theorem nameOf?_eq_none (h : word.toList.head? ≠ some '%') : nameOf? word = none := by
  rw [nameOf?, afterName?, if_neg, Option.map_none]
  rintro ⟨rest, hrest⟩
  exact h (by rw [← hrest]; rfl)

theorem nameOf?_label (l : Label) : nameOf? ("%" ++ l.text) = some l.text := by
  have hname := nameOf?_sign (isNameChar_of_mem_text l) "" rfl
  rwa [String.append_empty] at hname

theorem valueText_eq (n : Nat) : valueText n = "%" ++ nameText n := by
  rw [valueText, nameText, ← String.append_assoc]
  rfl

theorem nameOf?_valueText (n : Nat) : nameOf? (valueText n) = some (nameText n) := by
  rw [valueText_eq]
  exact nameOf?_label (.test n)

theorem nameOf?_valueText_paren (n : Nat) : nameOf? (valueText n ++ ")") = some (nameText n) := by
  rw [valueText_eq, String.append_assoc]
  exact nameOf?_sign (isNameChar_of_mem_text (.test n)) ")" rfl

theorem nameOf?_repr (n : Nat) : nameOf? n.repr = none := by
  refine nameOf?_eq_none fun hhead => ?_
  have hmem : '%' ∈ (toString n).toList := List.mem_of_head? hhead
  exact absurd (isDigit_of_mem_toString hmem) (by decide)

theorem nameOf?_repr_int (i : Int) : nameOf? i.repr = none := by
  cases i with
  | ofNat n => exact nameOf?_repr n
  | negSucc n =>
      have hhead : ("-" ++ (n + 1).repr).toList.head? = some '-' := head?_append rfl _
      exact nameOf?_eq_none (hhead ▸ by decide)

/-- A word is none of those that start with another character. -/
theorem ne_of_head? {c : Char} (h : word.toList.head? = some c) {other : String}
    (hother : other.toList.head? ≠ some c) : word ≠ other := by
  rintro rfl
  exact hother h

theorem head?_valueText (n : Nat) : (valueText n).toList.head? = some '%' :=
  head?_append rfl _

theorem Label.head?_text (l : Label) : l.text.toList.head? = some 't' := by
  cases l with
  | test n => exact head?_append rfl _
  | body n => exact head?_append (head?_append rfl _) _
  | finish n => exact head?_append (head?_append rfl _) _

theorem ofWords_label (l : Label) :
    Sentence.ofWords (Statement.words (.label l)) = Statement.sentence (.label l) := by
  have hhead : (l.text ++ ":").toList.head? = some 't' := head?_append l.head?_text _
  have hname : nameOf? (l.text ++ ":") = none := nameOf?_eq_none (hhead ▸ by decide)
  have hbr : l.text ++ ":" ≠ "br" := ne_of_head? hhead (by decide)
  have hret : l.text ++ ":" ≠ "ret" := ne_of_head? hhead (by decide)
  simp [Sentence.ofWords, Statement.words, Statement.sentence, rightSide, isDefinition, namesIn,
    hname, hbr, hret]

/-- What is read off the words of a statement is what the statement says. -/
theorem ofWords_words {i : Statement} (h : ∀ text, i ≠ .declaration text) :
    Sentence.ofWords i.words = i.sentence := by
  have hne (n : Nat) {word : String} (hword : word.toList.head? ≠ some '%') :
      valueText n ≠ word := ne_of_head? (head?_valueText n) hword
  have hlabel (n : Nat) : (valueText n == "label") = false := beq_false_of_ne (hne n (by decide))
  have hbr (n : Nat) : valueText n ≠ "br" := hne n (by decide)
  have hret (n : Nat) : valueText n ≠ "ret" := hne n (by decide)
  cases i with
  | declaration text => exact absurd rfl (h text)
  | entry => decide
  | label l => exact ofWords_label l
  | _ =>
    simp (disch := decide) [Sentence.ofWords, Statement.words, Statement.sentence, rightSide,
      isDefinition, namesIn, nameOf?_eq_none, nameOf?_valueText, nameOf?_valueText_paren,
      nameOf?_label, nameOf?_repr_int, hlabel, hbr, hret]

/-- An artifact says what its statements say. -/
theorem sentences_artifact (p : Program) :
    sentences (artifact p) = (program p).map Statement.sentence := by
  have hends : ∀ i ∈ head ++ tail, Sentence.ofWords i.words = i.sentence := by decide +kernel
  have hbody : ∀ i ∈ body.write { number := 3 } p, Sentence.ofWords i.words = i.sentence :=
    fun i hi => ofWords_words (ne_declaration_of_mem_write _ p i hi)
  rw [sentences, textWords_artifact, List.map_map]
  refine List.map_congr_left ?_
  simp only [program, List.forall_mem_append] at hends ⊢
  exact ⟨⟨hends.1, hbody⟩, hends.2⟩

end Reading

end TapeCompiler.Llvm
