import TapeCompiler.Proofs.Llvm.Blocks

/-!
# Labels and fresh names

A loop names its labels by the number of its test, and takes numbers of its own for what it
defines. So the labels of a program are distinct (`nodup_labels`), its branches go to them
(`targets_subset`), and its fresh names are those of its numbers, in order
(`filterMap_fresh?`).
-/

namespace TapeCompiler.Llvm

/-- The name is made of `t` and a number. -/
def isNumbered (name : String) : Bool :=
  ((afterName? "t" name).bind number?).isSome

/-- The fresh name that a line defines: that of a value, or of the label of a test, which
is the label that has nothing behind its number. -/
def Sentence.fresh? (s : Sentence) : Option String :=
  s.value?.or (s.label?.filter isNumbered)

section Texts

/-- What stands behind the number in the text of a label. -/
def Label.suffix : Label → String
  | test _ => ""
  | body _ => ".body"
  | finish _ => ".end"

def Label.number : Label → Nat
  | test n => n
  | body n => n
  | finish n => n

theorem Label.text_eq (l : Label) : l.text = "t" ++ (toString l.number ++ l.suffix) := by
  cases l <;> simp [text, suffix, number, String.append_assoc]

/-- The digits of a label end where its suffix starts. -/
theorem Label.takeWhile_isDigit (l : Label) :
    (toString l.number ++ l.suffix).toList.takeWhile Char.isDigit = (toString l.number).toList := by
  rw [String.toList_append]
  have hsuffix : ∀ suffix ∈ ["", ".body", ".end"],
      suffix.toList.head?.all (!Char.isDigit ·) = true := by decide
  exact takeWhile_append_of_forall (fun c hc => isDigit_of_mem_toString hc)
    (hsuffix _ (by cases l <;> simp [suffix]))

theorem Label.text_injective : Function.Injective text := by
  intro a b h
  rw [text_eq, text_eq, String.append_right_inj] at h
  have hnumber : a.number = b.number := by
    have hdigits : a.number.repr.toList = b.number.repr.toList := by
      rw [← Nat.toString_eq_repr, ← a.takeWhile_isDigit, h, b.takeWhile_isDigit]
      rfl
    have hread := congrArg number? (String.toList_inj.mp hdigits)
    simpa using hread
  rw [hnumber, String.append_right_inj] at h
  cases a <;> cases b <;> simp_all [number, suffix]

/-- Only the labels of tests are fresh names. -/
theorem isNumbered_text (l : Label) : isNumbered l.text = l.suffix.isEmpty := by
  rw [isNumbered, l.text_eq, afterName?_append, Option.bind_some]
  have hpoint (suffix : String) (h : '.' ∈ suffix.toList) (n : Nat) :
      number? (toString n ++ suffix) = none := by
    refine if_neg fun hall => ?_
    have hdigit := List.all_eq_true.mp hall.2 '.' (by simp [h])
    exact absurd hdigit (by decide)
  cases l with
  | test n => simp [Label.suffix, Label.number]
  | body n => rw [Label.suffix, hpoint ".body" (by decide)]; rfl
  | finish n => rw [Label.suffix, hpoint ".end" (by decide)]; rfl

end Texts

section Artifact

/-- The label that a statement is. -/
def Statement.label? : Statement → Option Label
  | label l => some l
  | _ => none

/-- The labels that a statement may branch to. -/
def Statement.targets : Statement → List Label
  | branch l => [l]
  | branchIf _ l l' => [l, l']
  | _ => []

theorem targets_sentence (i : Statement) : i.sentence.targets = i.targets.map Label.text := by
  cases i <;> rfl

theorem label?_sentence (place : Place) (p : Program) : ∀ i ∈ body.write place p,
    i.sentence.label? = i.label?.map Label.text := by
  refine Template.forall_mem_write (fun place c => ?_) (fun place id => ?_) (fun place id => ?_)
    place p
  · rw [body_command]
    cases c <;> simp [commandStatements, Statement.sentence, Statement.label?]
  · simp [body_opening, Statement.sentence, Statement.label?]
  · simp [body_closing, Statement.sentence, Statement.label?]

/-- The labels of the body of the program. -/
def labels : Template Label :=
  body.filterMap Statement.label?

theorem filterMap_label? (place : Place) (p : Program) :
    (spoken.write place p).filterMap Sentence.label? = (labels.write place p).map Label.text := by
  rw [spoken, ← Template.map_write, List.filterMap_map, labels, ← Template.filterMap_write,
    List.map_filterMap]
  exact List.filterMap_congr (label?_sentence place p)

theorem labels_command (place : Place) (c : Command) : labels.command place c = [] := by
  rw [labels, Template.filterMap_command, body_command]
  cases c <;> rfl

theorem labels_opening (place : Place) (id : Nat) :
    labels.opening place id = [.test place.number, .body place.number] := rfl

theorem labels_closing (place : Place) (id : Nat) :
    labels.closing place id = [.finish place.number] := rfl

theorem labels_loopNumbers : labels.loopNumbers = 4 := rfl

/-- The labels of a program have the numbers that are taken for it. -/
theorem number_of_mem_labels (place : Place) (p : Program) : ∀ l ∈ labels.write place p,
    place.number ≤ l.number ∧ l.number < place.number + labels.numbers p := by
  induction p using Program.induction generalizing place with
  | nil => simp
  | command c rest ih =>
      have hrest := ih (place.skip (labels.commandNumbers c))
      rw [Template.write_command, labels_command, List.nil_append, Template.numbers_command]
      intro l hl
      have hnumber := hrest l hl
      simp only [Place.skip] at hnumber
      omega
  | loop id body rest ihBody ih =>
      have hbody := ihBody ((place.skip labels.loopNumbers).enter id)
      have hrest := ih (place.skip (labels.loopNumbers + labels.numbers body))
      rw [Template.write_loop, Template.numbers_loop, labels_opening, labels_closing]
      simp only [Place.skip, Place.enter, labels_loopNumbers] at hbody hrest ⊢
      grind [Label.number]

/-- The labels of a program are distinct: those of one loop by their suffixes, those of
different loops by their numbers. -/
theorem nodup_labels (place : Place) (p : Program) : (labels.write place p).Nodup := by
  induction p using Program.induction generalizing place with
  | nil => exact List.nodup_nil
  | command c rest ih =>
      rw [Template.write_command, labels_command, List.nil_append]
      exact ih _
  | loop id body rest ihBody ih =>
      have hinside := number_of_mem_labels ((place.skip labels.loopNumbers).enter id) body
      have hbehind :=
        number_of_mem_labels (place.skip (labels.loopNumbers + labels.numbers body)) rest
      have hbody := ihBody ((place.skip labels.loopNumbers).enter id)
      have hrest := ih (place.skip (labels.loopNumbers + labels.numbers body))
      rw [Template.write_loop, labels_opening, labels_closing]
      simp only [Place.skip, Place.enter, labels_loopNumbers] at hinside hbehind hbody hrest ⊢
      grind [Label.number]

/-- The branches of a program go to its labels. -/
theorem targets_subset (place : Place) (p : Program) :
    (body.write place p).flatMap Statement.targets ⊆ labels.write place p := by
  rw [Template.flatMap_write]
  have hnumbers : Template.SameNumbers (body.flatMap Statement.targets) labels := ⟨rfl, rfl⟩
  refine Template.write_subset hnumbers ?_ ?_ place p
  · intro place c
    rw [Template.flatMap_command, body_command]
    cases c <;> exact List.nil_subset _
  · intro place id l hl
    have hparts : l ∈ [Label.test place.number, .body place.number, .finish place.number,
        .test place.number] := hl
    have hlabels : labels.opening place id ++ labels.closing place id =
        [.test place.number, .body place.number, .finish place.number] := rfl
    rw [hlabels]
    simp only [List.mem_cons, List.not_mem_nil, or_false] at hparts ⊢
    tauto

theorem fresh?_label (l : Label) :
    (Statement.label l).sentence.fresh? = if l.suffix.isEmpty then some l.text else none := by
  rw [← isNumbered_text]
  exact Option.filter_some

theorem fresh?_test (n : Nat) :
    (Statement.label (.test n)).sentence.fresh? = some (nameText n) :=
  fresh?_label (.test n)

theorem fresh?_body (n : Nat) : (Statement.label (.body n)).sentence.fresh? = none :=
  fresh?_label (.body n)

theorem fresh?_finish (n : Nat) : (Statement.label (.finish n)).sentence.fresh? = none :=
  fresh?_label (.finish n)

/-- The fresh names of a program are those of its numbers, in order. -/
theorem filterMap_fresh? (place : Place) (p : Program) :
    (spoken.write place p).filterMap Sentence.fresh? =
      (List.range' place.number (body.numbers p)).map nameText := by
  have hnumbers : Template.SameNumbers (spoken.filterMap Sentence.fresh?) body := ⟨rfl, rfl⟩
  rw [Template.filterMap_write, ← hnumbers.numbers_eq]
  refine Template.write_eq_range ?_ ?_ ?_ place p
  · intro place c
    rw [Template.filterMap_command, spoken_command]
    cases c <;> rfl
  · intro place id
    rw [Template.filterMap_opening, spoken, Template.map_opening, body_opening]
    simp only [List.map_cons, List.filterMap_cons, fresh?_test, fresh?_body]
    rfl
  · intro place id
    rw [Template.filterMap_closing, spoken, Template.map_closing, body_closing]
    simp only [List.map_cons, List.filterMap_cons, fresh?_finish]
    rfl

end Artifact

end TapeCompiler.Llvm
