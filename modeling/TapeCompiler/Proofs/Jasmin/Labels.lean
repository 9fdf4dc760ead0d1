import TapeCompiler.Proofs.Jasmin.Text
import TapeCompiler.Proofs.LabelledText

/-!
# Labels of Jasmin assembly

A word with a colon defines a label, and `goto`, `ifeq` and `iflt` name one. Every read has
a label behind it.
-/

namespace TapeCompiler.Jasmin

def dialect : LabelDialect where
  names :=
    { start := fun id => "Lstart_" ++ toString id
      finish := fun id => "Lend_" ++ toString id
      skip? := some fun number => "Leof_" ++ toString number }
  defined?
    | [word] => beforeColon? word
    | _ => none
  named?
    | ["goto", l] => some l
    | ["ifeq", l] => some l
    | ["iflt", l] => some l
    | _ => none
  startLine := fun id => ["Lstart_" ++ toString id ++ ":"]
  test := fun id =>
    [["aload_1"], ["iload_2"], ["baload"], ["ifeq", "Lend_" ++ toString id]]
  back := fun id => ["goto", "Lstart_" ++ toString id]
  finishLine := fun id => ["Lend_" ++ toString id ++ ":"]

/-- The labels of loops and reads. -/
def labels : LabelNames Label where
  start := .start
  finish := .finish
  skip? := some .skip

def labelling : Labelling Instruction Label where
  label?
    | .label l => some l
    | _ => none
  target?
    | .ifZero l => some l
    | .ifNegative l => some l
    | .goto l => some l
    | _ => none

theorem Label.text_injective : Function.Injective text := by
  intro a b h
  have ha := a.ofWord?_text
  rw [h, b.ofWord?_text] at ha
  exact (Option.some.inj ha).symm

theorem distinct_labels : labels.Distinct := by
  intro a b l ha hb
  cases a <;> cases b <;> cases ha <;> simp_all [LabelNames.name?, labels]

theorem filterMap_move {κ : Type} {f : Instruction → Option κ}
    (h : ∀ step, f (.increment step) = none) (number : Nat) (amount : Int) :
    (commandInstructions number (.move amount)).filterMap f = [] := by
  rw [commandInstructions, List.filterMap_map]
  exact List.filterMap_eq_nil_iff.mpr fun step _ => h step

theorem labelling_follows : labelling.Follows labels body where
  numbers := ⟨by funext c; cases c <;> rfl, rfl⟩
  command_label := by
    intro place c
    rw [body_command]
    cases c with
    | move amount => exact filterMap_move (fun _ => rfl) _ _
    | _ => rfl
  command_target := by
    intro place c
    rw [body_command]
    cases c with
    | move amount =>
        rw [filterMap_move fun _ => rfl]
        exact List.nil_subset _
    | _ => exact List.Subset.refl _
  opening_label := fun _ _ => rfl
  opening_target := fun _ _ => rfl
  closing_label := fun _ _ => rfl
  closing_target := fun _ _ => rfl

/-- No two instructions of an artifact are the same label. -/
theorem nodup_label?_program {p : Program} (hids : p.loopIds.Nodup) :
    ((program p).filterMap labelling.label?).Nodup := by
  have hhead : head.filterMap labelling.label? = [] := rfl
  have htail : tail.filterMap labelling.label? = [] := rfl
  rw [program, List.filterMap_append, List.filterMap_append, hhead, htail,
    labelling_follows.filterMap_label?, List.nil_append, List.append_nil]
  exact LabelNames.nodup_labels distinct_labels hids

theorem dialect_describes :
    dialect.Describes body Instruction.words labelling labels Label.text where
  follows := labelling_follows
  names_eq := rfl
  distinct := distinct_labels
  injective := Label.text_injective
  opening := fun _ _ => rfl
  closing := fun _ _ => rfl
  entries_nodup := List.nodup_nil
  entries_apart := fun _ => List.not_mem_nil

theorem agrees_push (n : Int) :
    dialect.Agrees Instruction.words labelling Label.text (.push n) := by
  have hplain : dialect.defined? (pushWords n) = none ∧ dialect.named? (pushWords n) = none := by
    unfold pushWords
    split
    next => decide
    split
    next h => rcases small_cases h with rfl | rfl | rfl | rfl | rfl | rfl <;> decide
    split
    next => simp [dialect]
    split
    next => simp [dialect]
    next => simp [dialect]
  exact hplain

theorem agrees_of_ne {i : Instruction} (h : ∀ text, i ≠ .directive text) :
    dialect.Agrees Instruction.words labelling Label.text i := by
  cases i with
  | directive text => exact absurd rfl (h text)
  | label l => simp [LabelDialect.Agrees, Instruction.words, labelling, dialect]
  | push n => exact agrees_push n
  | loadArray slot | storeArray slot | loadInt slot | storeInt slot =>
      cases slot <;> exact ⟨by decide, by decide⟩
  | increment | ifZero | ifNegative | goto => exact ⟨rfl, rfl⟩
  | _ => exact ⟨by decide, by decide⟩

/-- The labels of an artifact are those of the loops and reads of its program. -/
theorem resolves_artifact {p : Program} (hids : p.loopIds.Nodup) :
    dialect.Resolves p (artifact p) := by
  have htext : textWords (artifact p) = head.map Instruction.words ++
      (body.write {} p).map Instruction.words ++ tail.map Instruction.words := by
    rw [textWords_artifact, program, List.map_append, List.map_append]
  exact dialect_describes.resolves htext
    (fun i hi => agrees_of_ne (ne_directive_of_mem_write p i hi)) (by decide) (by decide) hids

end TapeCompiler.Jasmin
