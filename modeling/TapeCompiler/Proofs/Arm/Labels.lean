import TapeCompiler.Proofs.Arm.Text
import TapeCompiler.Proofs.LabelledText

/-!
# Labels of ARM assembly

A word with a colon defines a label, and `b` and `beq` name one. Reads have no labels
here, and the label of the entry stands in front of those of the loops.
-/

namespace TapeCompiler.Arm

def dialect : LabelDialect where
  names :=
    { start := fun id => ".Lstart_" ++ toString id
      finish := fun id => ".Lend_" ++ toString id }
  defined?
    | [word] => beforeColon? word
    | _ => none
  named?
    | ["b", l] => some l
    | ["beq", l] => some l
    | _ => none
  entries := ["_start"]
  startLine := fun id => [".Lstart_" ++ toString id ++ ":"]
  test := fun id =>
    [["ldrb", "r5", "[r4]"], ["cmp", "r5", "#0"], ["beq", ".Lend_" ++ toString id]]
  back := fun id => ["b", ".Lstart_" ++ toString id]
  finishLine := fun id => [".Lend_" ++ toString id ++ ":"]

/-- The labels of loops. Reads have none. -/
def labels : LabelNames Label where
  start := .start
  finish := .finish

def labelling : Labelling Statement Label where
  label?
    | .label l => some l
    | _ => none
  target?
    | .branch l => some l
    | .branchEqual l => some l
    | _ => none

theorem Label.text_injective : Function.Injective text := by
  intro a b h
  have ha := a.ofWord?_text
  rw [h, b.ofWord?_text] at ha
  exact (Option.some.inj ha).symm

theorem Label.text_ne_entry (l : Label) : l.text ≠ "_start" := by
  intro h
  have hentry : ofWord? "_start" = none := by decide
  have hl := l.ofWord?_text
  rw [h, hentry] at hl
  cases hl

theorem distinct_labels : labels.Distinct := by
  intro a b l ha hb
  cases a <;> cases b <;> cases ha <;> simp_all [LabelNames.name?, labels]

theorem Statement.IsOperation.plain {s : Statement} (h : s.IsOperation) :
    s ≠ .entry ∧ labelling.label? s = none ∧ labelling.target? s = none := by
  cases s with
  | entry | label | branch | branchEqual => exact h.elim
  | _ => exact ⟨Statement.noConfusion, rfl, rfl⟩

theorem labelling_follows : labelling.Follows labels body where
  numbers := ⟨by funext c; cases c <;> rfl, rfl⟩
  command_label := by
    intro place c
    have hnames : labels.template.command place c = [] := by
      cases c <;> rfl
    rw [body_command, hnames]
    exact List.filterMap_eq_nil_iff.mpr fun s hs => (isOperation_of_mem c s hs).plain.2.1
  command_target := by
    intro place c
    rw [body_command, List.filterMap_eq_nil_iff.mpr fun s hs =>
      (isOperation_of_mem c s hs).plain.2.2]
    exact List.nil_subset _
  opening_label := fun _ _ => rfl
  opening_target := fun _ _ => rfl
  closing_label := fun _ _ => rfl
  closing_target := fun _ _ => rfl

/-- No two statements of an artifact are the same label. -/
theorem nodup_label?_program {p : Program} (hids : p.loopIds.Nodup) :
    ((program p).filterMap labelling.label?).Nodup := by
  have hhead : head.filterMap labelling.label? = [] := rfl
  have htail : tail.filterMap labelling.label? = [] := rfl
  rw [program, List.filterMap_append, List.filterMap_append, hhead, htail,
    labelling_follows.filterMap_label?, List.nil_append, List.append_nil]
  exact LabelNames.nodup_labels distinct_labels hids

theorem dialect_describes :
    dialect.Describes body Statement.words labelling labels Label.text where
  follows := labelling_follows
  names_eq := rfl
  distinct := distinct_labels
  injective := Label.text_injective
  opening := fun _ _ => rfl
  closing := fun _ _ => rfl
  entries_nodup := List.nodup_singleton _
  entries_apart := fun l hl => l.text_ne_entry (List.mem_singleton.mp hl)

theorem agrees_of_ne {s : Statement} (h : s ≠ .entry) :
    dialect.Agrees Statement.words labelling Label.text s := by
  cases s with
  | entry => exact absurd rfl h
  | label l => simp [LabelDialect.Agrees, Statement.words, labelling, dialect]
  | _ => exact ⟨rfl, rfl⟩

theorem ne_entry_of_mem_write (p : Program) : ∀ s ∈ body.write {} p, s ≠ .entry := by
  refine Template.forall_mem_write ?_ ?_ ?_ {} p
  · intro place c
    rw [body_command]
    exact fun s hs => (isOperation_of_mem c s hs).plain.1
  · simp [body_opening]
  · simp [body_closing]

/-- The labels of an artifact are those of the loops of its program. -/
theorem resolves_artifact {p : Program} (hids : p.loopIds.Nodup) :
    dialect.Resolves p (artifact p) := by
  have htext : textWords (artifact p) = head.map Statement.words ++
      (body.write {} p).map Statement.words ++ tail.map Statement.words := by
    rw [textWords_artifact, program, List.map_append, List.map_append]
  exact dialect_describes.resolves htext
    (fun s hs => agrees_of_ne (ne_entry_of_mem_write p s hs)) (by decide) (by decide) hids

end TapeCompiler.Arm
