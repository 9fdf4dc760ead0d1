import TapeCompiler.Proofs.Smali.Text
import TapeCompiler.Proofs.LabelledText

/-!
# Labels of Smali assembly

A line of one word with a colon in front defines a label, and `goto`, `if-eqz` and
`if-ltz` name one. Every read has a label behind it, and the methods behind that of the
program have none.
-/

namespace TapeCompiler.Smali

def dialect : LabelDialect where
  names :=
    { start := fun id => ":start_" ++ toString id
      finish := fun id => ":end_" ++ toString id
      skip? := some fun number => ":eof_" ++ toString number }
  defined?
    | [word] => if word.toList.head? = some ':' then some word else none
    | _ => none
  named?
    | ["goto", l] => some l
    | ["if-eqz", _, l] => some l
    | ["if-ltz", _, l] => some l
    | _ => none
  startLine := fun id => [":start_" ++ toString id]
  test := fun id => [["aget-byte", "v2", "v0", "v1"], ["if-eqz", "v2", ":end_" ++ toString id]]
  back := fun id => ["goto", ":start_" ++ toString id]
  finishLine := fun id => [":end_" ++ toString id]

/-- The labels of loops and reads. -/
def labels : LabelNames Label where
  start := .start
  finish := .finish
  skip? := some .skip

def labelling : Labelling Instruction Label where
  label?
    | .label l => some l
    | _ => none
  target?
    | .ifZero _ l => some l
    | .ifNegative _ l => some l
    | .goto l => some l
    | _ => none

def Label.ofWord? (word : String) : Option Label :=
  (((afterName? ":start_" word).bind number?).map start).or
    ((((afterName? ":end_" word).bind number?).map finish).or
      (((afterName? ":eof_" word).bind number?).map skip))

theorem Label.ofWord?_text (l : Label) : Label.ofWord? l.text = some l := by
  cases l with
  | start id => simp [ofWord?, text]
  | finish id =>
      have hstart (s : String) : afterName? ":start_" (":end_" ++ s) = none :=
        afterName?_append_eq_none (by decide) s
      simp [ofWord?, text, hstart]
  | skip number =>
      have hstart (s : String) : afterName? ":start_" (":eof_" ++ s) = none :=
        afterName?_append_eq_none (by decide) s
      have hfinish (s : String) : afterName? ":end_" (":eof_" ++ s) = none :=
        afterName?_append_eq_none (by decide) s
      simp [ofWord?, text, hstart, hfinish]

theorem Label.text_injective : Function.Injective text := by
  intro a b h
  have ha := a.ofWord?_text
  rw [h, b.ofWord?_text] at ha
  exact (Option.some.inj ha).symm

theorem Label.head?_text (l : Label) : l.text.toList.head? = some ':' := by
  cases l <;> exact head?_append (by decide) _

theorem distinct_labels : labels.Distinct := by
  intro a b l ha hb
  cases a <;> cases b <;> cases ha <;> simp_all [LabelNames.name?, labels]

theorem labelling_follows : labelling.Follows labels body where
  numbers := ⟨by funext c; cases c <;> rfl, rfl⟩
  command_label := by
    intro place c
    rw [body_command]
    cases c with
    | move amount =>
        rw [commandInstructions, moveInstructions]
        split <;> rfl
    | _ => rfl
  command_target := by
    intro place c
    rw [body_command]
    cases c with
    | move amount =>
        rw [commandInstructions, moveInstructions]
        split <;> exact List.nil_subset _
    | _ => exact List.Subset.refl _
  opening_label := fun _ _ => rfl
  opening_target := fun _ _ => rfl
  closing_label := fun _ _ => rfl
  closing_target := fun _ _ => rfl

theorem dialect_describes :
    dialect.Describes body Instruction.words labelling labels Label.text where
  follows := labelling_follows
  names_eq := rfl
  distinct := distinct_labels
  injective := Label.text_injective
  opening := fun _ _ => rfl
  closing := fun _ _ => rfl
  entries_nodup := List.nodup_nil
  entries_apart := fun _ => List.not_mem_nil

theorem agrees_of_ne {i : Instruction} (h : ∀ text, i ≠ .directive text) :
    dialect.Agrees Instruction.words labelling Label.text i := by
  cases i with
  | directive text => exact absurd rfl (h text)
  | label l =>
      refine ⟨if_pos l.head?_text, ?_⟩
      simp [Instruction.words, labelling, dialect]
  | «return» => exact ⟨by decide, by decide⟩
  | _ => exact ⟨rfl, rfl⟩

/-- The labels of an artifact are those of the loops and reads of its program. -/
theorem resolves_artifact {p : Program} (hids : p.loopIds.Nodup) :
    dialect.Resolves p (artifact p) := by
  have htext : textWords (artifact p) =
      head.map Instruction.words ++ (body.write {} p).map Instruction.words ++
        (tail.map Instruction.words ++ (helpers.map Line.content).map wordsOf) := by
    rw [textWords_artifact, program, List.map_append, List.map_append, List.append_assoc]
  exact dialect_describes.resolves htext
    (fun i hi => agrees_of_ne (ne_directive_of_mem_write p i hi)) (by decide) (by decide) hids

end TapeCompiler.Smali
