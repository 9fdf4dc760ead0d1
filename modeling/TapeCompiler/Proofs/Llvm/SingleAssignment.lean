import TapeCompiler.Proofs.Llvm.Names

/-!
# Single assignment

`IsSingleAssignment` says of the text of a module what a reader of it relies on: every name
is defined once, the fresh ones in the order of their numbers, every branch finds its label,
and the function is made of basic blocks that use only values they were given or have
defined before. `isSingleAssignment_artifact` says so of the artifact of every program,
whatever the ids of its loops are.
-/

namespace TapeCompiler.Llvm

/-- The lines of the function: those behind the line that starts it, up to its brace. -/
def functionLines (text : String) : List (List String) :=
  linesWithin "define" ["\x7d"] (textWords text)

/-- Every name of a module is defined once and before it is used, and its function is made
of closed blocks. -/
structure IsSingleAssignment (text : String) : Prop where
  fresh_eq : ∃ count, (sentences text).filterMap Sentence.fresh? = (List.range count).map nameText
  labels_nodup : ((sentences text).filterMap Sentence.label?).Nodup
  label_of_target : ∀ s ∈ sentences text, ∀ l ∈ s.targets,
    l ∈ (sentences text).filterMap Sentence.label?
  blocks : ∃ entry blocks,
    (functionLines text).map Sentence.ofWords = (entry :: blocks).flatMap Block.sentences ∧
      entry.label = "entry" ∧ (∀ b ∈ entry :: blocks, b.IsClosed) ∧
      entry.DefinesUsed [] ∧ prologueNames <+: entry.body.filterMap Sentence.value? ∧
      ∀ b ∈ blocks, b.DefinesUsed prologueNames

section Module

/-- The lines in front of the function. -/
def declarations : List Statement :=
  head.take 4

/-- The lines that set up the tape and the pointer. -/
def setup : List Statement :=
  [.allocTape tape, .allocPointer slot, .zeroTape tape, .firstCell 2 tape, .storePointer 2 slot]

theorem head_eq :
    head = declarations ++ .declaration "define i32 @main() \x7b" :: .entry :: setup := rfl

theorem tail_eq : tail = [.ret, .declaration "\x7d"] := rfl

theorem sentences_artifact_eq (p : Program) :
    sentences (artifact p) = head.map Statement.sentence ++ spoken.write { number := 3 } p ++
      tail.map Statement.sentence := by
  rw [sentences_artifact, program, List.map_append, List.map_append, Template.map_write]
  rfl

theorem words_ne_brace {i : Statement} (h : ∀ text, i ≠ .declaration text) :
    i.words ≠ ["\x7d"] := by
  cases i with
  | declaration text => exact absurd rfl (h text)
  | label l =>
      have hhead : (l.text ++ ":").toList.head? = some 't' := head?_append l.head?_text _
      simpa [Statement.words] using ne_of_head? hhead (by decide)
  | _ => simp [Statement.words]

/-- The lines of the function, from the label of its first block on. -/
def function (p : Program) : List Statement :=
  .entry :: setup ++ body.write { number := 3 } p ++ [.ret]

theorem ne_declaration_of_mem_function {p : Program} :
    ∀ i ∈ function p, ∀ text, i ≠ .declaration text := by
  have hsetup : ∀ i ∈ Statement.entry :: setup, ∀ text, i ≠ .declaration text := by simp [setup]
  simp only [function, List.forall_mem_append]
  exact ⟨⟨hsetup, ne_declaration_of_mem_write _ p⟩, by simp⟩

theorem functionLines_artifact (p : Program) :
    functionLines (artifact p) = (function p).map Statement.words := by
  have hbefore : ∀ words ∈ declarations.map Statement.words, words.head? ≠ some "define" := by
    decide +kernel
  have hinner : ∀ words ∈ (function p).map Statement.words, words ≠ ["\x7d"] :=
    List.forall_mem_map.mpr fun i hi => words_ne_brace (ne_declaration_of_mem_function i hi)
  have hstart : (Statement.declaration "define i32 @main() \x7b").words =
      ["define", "i32", "@main()", "\x7b"] := by decide
  have hlast : (Statement.declaration "\x7d").words = ["\x7d"] := by decide
  have hprogram : (program p).map Statement.words = declarations.map Statement.words ++
      ["define", "i32", "@main()", "\x7b"] ::
        ((function p).map Statement.words ++ ["\x7d"] :: []) := by
    simp [program, head_eq, tail_eq, function, hstart, hlast]
  rw [functionLines, textWords_artifact, hprogram, linesWithin_append hbefore rfl hinner]

theorem sentences_function (p : Program) :
    (functionLines (artifact p)).map Sentence.ofWords =
      { label? := some "entry" } :: (setup.map Statement.sentence ++
        (spoken.write { number := 3 } p ++ [Statement.sentence .ret])) := by
  have hread : ((function p).map Statement.words).map Sentence.ofWords =
      (function p).map Statement.sentence := by
    rw [List.map_map]
    exact List.map_congr_left fun i hi => ofWords_words (ne_declaration_of_mem_function i hi)
  rw [functionLines_artifact, hread, function, List.map_append, List.map_append,
    Template.map_write, List.map_cons, List.append_assoc]
  rfl

theorem labels_artifact (p : Program) :
    (sentences (artifact p)).filterMap Sentence.label? =
      "entry" :: (labels.write { number := 3 } p).map Label.text := by
  have hhead : (head.map Statement.sentence).filterMap Sentence.label? = ["entry"] := rfl
  have htail : (tail.map Statement.sentence).filterMap Sentence.label? = [] := rfl
  rw [sentences_artifact_eq, List.filterMap_append, List.filterMap_append, hhead, htail,
    filterMap_label?, List.append_nil, List.singleton_append]

/-- The values and tests of an artifact are numbered in order. -/
theorem fresh_artifact (p : Program) :
    (sentences (artifact p)).filterMap Sentence.fresh? =
      (List.range (3 + body.numbers p)).map nameText := by
  have hhead : (head.map Statement.sentence).filterMap Sentence.fresh? =
      (List.range' 0 3).map nameText := by decide +kernel
  have htail : (tail.map Statement.sentence).filterMap Sentence.fresh? = [] := rfl
  rw [sentences_artifact_eq, List.filterMap_append, List.filterMap_append, hhead, htail,
    filterMap_fresh?, List.append_nil, ← List.map_append, List.range'_append_1,
    List.range_eq_range']

theorem label_of_target_artifact (p : Program) : ∀ s ∈ sentences (artifact p), ∀ l ∈ s.targets,
    l ∈ (sentences (artifact p)).filterMap Sentence.label? := by
  have hends : ∀ i ∈ head ++ tail, i.targets = [] := by decide
  rw [labels_artifact, sentences_artifact]
  refine List.forall_mem_map.mpr fun i hi l hl => List.mem_cons_of_mem _ ?_
  rw [targets_sentence] at hl
  simp only [program, List.mem_append] at hi
  rcases hi with (hhead | hbody) | htail
  · simp [hends i (List.mem_append_left _ hhead)] at hl
  · obtain ⟨target, htarget, rfl⟩ := List.mem_map.mp hl
    exact List.mem_map_of_mem (targets_subset _ p (List.mem_flatMap.mpr ⟨i, hbody, htarget⟩))
  · simp [hends i (List.mem_append_right _ htail)] at hl

theorem exists_blocks_artifact (p : Program) : ∃ entry blocks,
    (functionLines (artifact p)).map Sentence.ofWords = (entry :: blocks).flatMap Block.sentences ∧
      entry.label = "entry" ∧ (∀ b ∈ entry :: blocks, b.IsClosed) ∧
      entry.DefinesUsed [] ∧ prologueNames <+: entry.body.filterMap Sentence.value? ∧
      ∀ b ∈ blocks, b.DefinesUsed prologueNames := by
  have hret (scope : List String) :
      Closed prologueNames scope [Statement.sentence .ret] :=
    .last rfl rfl (List.nil_subset _)
  have hclosed := threads_write { number := 3 } p prologueNames [Statement.sentence .ret]
    (List.Subset.refl _) fun scope _ => hret scope
  obtain ⟨⟨_, rest, last⟩, blocks, hlines, rfl, hall, hused, husedAll⟩ :=
    hclosed.exists_blocks "entry"
  obtain ⟨hblock, hblocks⟩ := List.forall_mem_cons.mp hall
  have hsetup : Straight [] (setup.map Statement.sentence) := by
    simp [setup, Statement.sentence, Straight]
  have hstays : ∀ s ∈ setup.map Statement.sentence, s.terminates = false ∧ s.label? = none := by
    decide
  have hvalues : (setup.map Statement.sentence).filterMap Sentence.value? = prologueNames := by
    decide
  refine ⟨⟨_, setup.map Statement.sentence ++ rest, last⟩, blocks, ?_, rfl, ?_, ?_, ?_, husedAll⟩
  · have hrest : spoken.write { number := 3 } p ++ [Statement.sentence .ret] =
        rest ++ [last] ++ blocks.flatMap Block.sentences := (List.cons_eq_cons.mp hlines).2
    rw [sentences_function, hrest, List.flatMap_cons]
    simp [Block.sentences]
  · exact List.forall_mem_cons.mpr ⟨⟨hblock.last_terminates, hblock.last_label,
      List.forall_mem_append.mpr ⟨hstays, hblock.body_stays⟩⟩, hblocks⟩
  · exact .straight hsetup hused
  · rw [List.filterMap_append, hvalues]
    exact List.prefix_append _ _

/-- Whatever program an artifact is for, its names are defined once and used where they
are known. -/
theorem isSingleAssignment_artifact (p : Program) : IsSingleAssignment (artifact p) where
  fresh_eq := ⟨_, fresh_artifact p⟩
  labels_nodup := by
    have hentry : "entry" ∉ (labels.write { number := 3 } p).map Label.text := by
      intro h
      obtain ⟨l, -, hl⟩ := List.mem_map.mp h
      exact ne_of_head? l.head?_text (by decide) hl
    rw [labels_artifact, List.nodup_cons]
    exact ⟨hentry, (nodup_labels _ p).map Label.text_injective⟩
  label_of_target := label_of_target_artifact p
  blocks := exists_blocks_artifact p

end Module

end TapeCompiler.Llvm
