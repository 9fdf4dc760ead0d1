import TapeCompiler.Proofs.Labels
import TapeCompiler.Proofs.Words

/-!
# Labels in a text

A `LabelDialect` reads labels off the words of a line: the label that the line defines,
and the label that a branch names. `LabelDialect.Resolves` says of a text that each of its
labels is defined once, that every branch finds its label, and that the labels are those
of a program, nested like its loops. It holds of a text whose lines a template has written
if it holds of the parts of the template (`Describes.resolves`).
-/

namespace TapeCompiler

/-- What is read off the words of items is read off the items. -/
theorem filterMap_words {ι κ : Type} {words : ι → List String}
    {read? : List String → Option String} {label? : ι → Option κ} {write : κ → String}
    {items : List ι} (h : ∀ item ∈ items, read? (words item) = (label? item).map write) :
    (items.map words).filterMap read? = (items.filterMap label?).map write := by
  rw [List.filterMap_map, List.map_filterMap]
  exact List.filterMap_congr h

/-- How labels are defined and named on the lines of a text, given by their words. -/
structure LabelDialect where
  names : LabelNames String
  /-- The label that a line defines. -/
  defined? : List String → Option String
  /-- The label that a branch names. -/
  named? : List String → Option String
  /-- The labels in front of those of the program. -/
  entries : List String := []
  /-- The line that defines the start label of a loop. -/
  startLine : Nat → List String
  /-- The lines that test the cell and leave the loop. -/
  test : Nat → List (List String)
  /-- The line that goes back to the start of the loop. -/
  back : Nat → List String
  finishLine : Nat → List String

namespace LabelDialect

variable (d : LabelDialect)

/-- The labels that a text defines, in order. -/
def defined (text : String) : List String :=
  (textWords text).filterMap d.defined?

/-- The labels that the branches of a text name. -/
def named (text : String) : List String :=
  (textWords text).filterMap d.named?

/-- The labels of a text are those of a program, and its branches find them. -/
structure Resolves (p : Program) (text : String) : Prop where
  /-- No label is defined twice. -/
  defined_nodup : (d.defined text).Nodup
  defined_of_named : ∀ l ∈ d.named text, l ∈ d.defined text
  /-- The labels come in pairs that are nested like the loops, with those of the reads in
  between. -/
  defined_eq : d.defined text = d.entries ++ d.names.labels p
  start_before_test : ∀ id ∈ p.loopIds, d.startLine id :: d.test id <:+: textWords text
  finish_behind_back : ∀ id ∈ p.loopIds, [d.back id, d.finishLine id] <:+: textWords text
  /-- No two labels have one name, whatever loops or reads they are for. -/
  distinct : d.names.Distinct

variable {ι κ : Type}

/-- The labels of a template of items are those that a dialect reads off their words. -/
structure Describes (t : Template ι) (words : ι → List String) (l : Labelling ι κ)
    (names : LabelNames κ) (write : κ → String) : Prop where
  follows : l.Follows names t
  names_eq : d.names = names.map write
  distinct : names.Distinct
  injective : Function.Injective write
  opening : ∀ place id, (t.opening place id).map words = d.startLine id :: d.test id
  closing : ∀ place id, (t.closing place id).map words = [d.back id, d.finishLine id]
  entries_nodup : d.entries.Nodup
  entries_apart : ∀ label, write label ∉ d.entries

/-- What is read off the words of an item is what the item says about labels. -/
def Agrees (words : ι → List String) (l : Labelling ι κ) (write : κ → String) (item : ι) : Prop :=
  d.defined? (words item) = (l.label? item).map write ∧
    d.named? (words item) = (l.target? item).map write

variable {d} {t : Template ι} {words : ι → List String} {l : Labelling ι κ}
  {names : LabelNames κ} {write : κ → String}

/-- A text has the labels of a program if it is what a template writes, between lines that
define just the labels in front and name none. -/
theorem Describes.resolves (h : d.Describes t words l names write) {text : String}
    {before after : List (List String)} {p : Program}
    (htext : textWords text = before ++ (t.write {} p).map words ++ after)
    (hagrees : ∀ item ∈ t.write {} p, d.Agrees words l write item)
    (hbefore : before.filterMap d.defined? = d.entries ∧ before.filterMap d.named? = [])
    (hafter : after.filterMap d.defined? = [] ∧ after.filterMap d.named? = [])
    (hids : p.loopIds.Nodup) : d.Resolves p text := by
  have hdefined : d.defined text = d.entries ++ (names.labels p).map write := by
    rw [defined, htext, List.filterMap_append, List.filterMap_append, hbefore.1, hafter.1,
      filterMap_words fun item hitem => (hagrees item hitem).1, h.follows.filterMap_label?,
      List.append_nil]
  have hnamed : d.named text = ((t.write {} p).filterMap l.target?).map write := by
    rw [named, htext, List.filterMap_append, List.filterMap_append, hbefore.2, hafter.2,
      filterMap_words fun item hitem => (hagrees item hitem).2, List.nil_append,
      List.append_nil]
  have hwithin {part : List ι} (hpart : part <:+: t.write {} p) :
      part.map words <:+: textWords text :=
    htext ▸ (hpart.map words).trans (List.infix_append _ _ _)
  refine ⟨?_, ?_, ?_, ?_, ?_, ?_⟩
  · rw [hdefined, List.nodup_append']
    refine ⟨h.entries_nodup, ?_, fun label hentry hlabel => ?_⟩
    · exact (LabelNames.nodup_labels h.distinct hids).map h.injective
    · obtain ⟨label, -, rfl⟩ := List.mem_map.mp hlabel
      exact h.entries_apart label hentry
  · rw [hdefined, hnamed]
    exact fun label hlabel => List.mem_append_right _
      (List.map_subset write (h.follows.filterMap_target?_subset p) hlabel)
  · rw [hdefined, h.names_eq, LabelNames.labels_map]
  · intro id hid
    obtain ⟨inner, hopening, -⟩ := t.parts_isInfix_write hid {}
    exact h.opening inner id ▸ hwithin hopening
  · intro id hid
    obtain ⟨inner, -, hclosing⟩ := t.parts_isInfix_write hid {}
    exact h.closing inner id ▸ hwithin hclosing
  · rw [h.names_eq]
    exact h.distinct.map h.injective

end LabelDialect

end TapeCompiler
