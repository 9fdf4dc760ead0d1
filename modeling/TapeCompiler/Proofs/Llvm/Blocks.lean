import TapeCompiler.Proofs.Llvm.Sentences

/-!
# Basic blocks

A `Block` is a label, lines that stay in it, and a branch or a return. Blocks are not parts
of the template, since every loop ends a block in which others have begun. `Closed` is what
is carried along the lines instead: it knows the values that the block at hand may use.
Every part of the template keeps it (`threads_write`), and what is closed can be cut into
blocks (`Closed.exists_blocks`).
-/

namespace TapeCompiler.Llvm

/-- A label, lines that stay in the block, and the line that ends it. -/
structure Block where
  label : String
  body : List Sentence
  last : Sentence

namespace Block

def sentences (b : Block) : List Sentence :=
  { label? := some b.label } :: b.body ++ [b.last]

/-- The last line is a branch or a return, no line before it is one, and no line in the
block is a label. -/
structure IsClosed (b : Block) : Prop where
  last_terminates : b.last.terminates = true
  last_label : b.last.label? = none
  body_stays : ∀ s ∈ b.body, s.terminates = false ∧ s.label? = none

/-- Every value that a line uses is given, or defined on a line before it in the block. -/
def DefinesUsed (b : Block) (given : List String) : Prop :=
  ∀ before s after, b.body ++ [b.last] = before ++ s :: after →
    ∀ v ∈ s.operands, v ∈ given ∨ v ∈ before.filterMap Sentence.value?

end Block

/-- The values that are defined before the program starts: the tape, the slot of the
pointer, and the first cell. -/
def prologueNames : List String :=
  ["t0", "t1", "t2"]

section Blocks

variable {globals scope scope' given : List String} {lines : List Sentence} {label : String}

/-- The lines end the block at hand, in which the values of `scope` may be used, and go on
with whole blocks. These may use the values of `globals`. -/
inductive Closed (globals : List String) : List String → List Sentence → Prop
  | last {scope : List String} {s : Sentence} (hends : s.terminates = true)
      (hlabel : s.label? = none) (hused : s.operands ⊆ scope) : Closed globals scope [s]
  | next {scope : List String} {s : Sentence} {label : String} {rest : List Sentence}
      (hends : s.terminates = true) (hlabel : s.label? = none) (hused : s.operands ⊆ scope)
      (hrest : Closed globals globals rest) :
      Closed globals scope (s :: { label? := some label } :: rest)
  | stay {scope : List String} {s : Sentence} {rest : List Sentence}
      (hstays : s.terminates = false) (hlabel : s.label? = none) (hused : s.operands ⊆ scope)
      (hrest : Closed globals (scope ++ s.value?.toList) rest) : Closed globals scope (s :: rest)

theorem Block.DefinesUsed.cons {body : List Sentence} {last s : Sentence}
    (h : DefinesUsed ⟨label, body, last⟩ (given ++ s.value?.toList)) (hused : s.operands ⊆ given) :
    DefinesUsed ⟨label, s :: body, last⟩ given := by
  rintro (_ | ⟨t, before⟩) u after heq v hv
  · obtain ⟨rfl, -⟩ := List.cons_eq_cons.mp heq
    exact .inl (hused hv)
  · obtain ⟨rfl, hrest⟩ := List.cons_eq_cons.mp heq
    have hknown := h before u after hrest v hv
    cases hvalue : s.value? <;> simp_all [or_assoc]

theorem Block.definesUsed_last {last : Sentence} (hused : last.operands ⊆ given) :
    DefinesUsed ⟨label, [], last⟩ given := by
  rintro (_ | ⟨t, before⟩) u after heq v hv
  · obtain ⟨rfl, -⟩ := List.cons_eq_cons.mp heq
    exact .inl (hused hv)
  · simp at heq

/-- Lines that close the block of a label are blocks together with it. -/
theorem Closed.exists_blocks (h : Closed globals scope lines) (label : String) :
    ∃ block blocks, { label? := some label } :: lines = (block :: blocks).flatMap Block.sentences ∧
      block.label = label ∧ (∀ b ∈ block :: blocks, b.IsClosed) ∧ block.DefinesUsed scope ∧
      ∀ b ∈ blocks, b.DefinesUsed globals := by
  induction h generalizing label with
  | @last scope s hends hlabel hused =>
      refine ⟨⟨label, [], s⟩, [], by simp [Block.sentences], rfl, ?_,
        Block.definesUsed_last hused, by simp⟩
      simpa using ⟨hends, hlabel, by simp⟩
  | @next scope s label' rest hends hlabel hused hrest ih =>
      obtain ⟨block, blocks, heq, -, hclosed, hused', husedAll⟩ := ih label'
      refine ⟨⟨label, [], s⟩, block :: blocks, ?_, rfl, ?_, Block.definesUsed_last hused, ?_⟩
      · rw [List.flatMap_cons, ← heq]
        rfl
      · exact List.forall_mem_cons.mpr ⟨⟨hends, hlabel, by simp⟩, hclosed⟩
      · exact List.forall_mem_cons.mpr ⟨hused', husedAll⟩
  | @stay scope s rest hstays hlabel hused hrest ih =>
      obtain ⟨⟨_, body, last⟩, blocks, heq, rfl, hclosed, hused', husedAll⟩ := ih label
      obtain ⟨hblock, hblocks⟩ := List.forall_mem_cons.mp hclosed
      refine ⟨⟨_, s :: body, last⟩, blocks, ?_, rfl, ?_, hused'.cons hused, husedAll⟩
      · obtain ⟨-, hlines⟩ := List.cons_eq_cons.mp heq
        rw [hlines]
        rfl
      · refine List.forall_mem_cons.mpr ⟨⟨hblock.last_terminates, hblock.last_label, ?_⟩, hblocks⟩
        exact List.forall_mem_cons.mpr ⟨⟨hstays, hlabel⟩, hblock.body_stays⟩

/-- Lines that stay in their block, and the values that they use are those of `scope` and
those of lines before. -/
def Straight (scope : List String) : List Sentence → Prop
  | [] => True
  | s :: rest =>
      s.terminates = false ∧ s.label? = none ∧ s.operands ⊆ scope ∧
        Straight (scope ++ s.value?.toList) rest

theorem Straight.mono (h : Straight scope lines) (hscope : scope ⊆ scope') :
    Straight scope' lines := by
  induction lines generalizing scope scope' with
  | nil => trivial
  | cons s lines ih =>
      obtain ⟨hstays, hlabel, hused, hrest⟩ := h
      exact ⟨hstays, hlabel, fun v hv => hscope (hused hv),
        ih hrest (List.append_subset.mpr ⟨List.subset_append_of_subset_left _ hscope,
          List.subset_append_right _ _⟩)⟩

theorem Block.DefinesUsed.straight {body : List Sentence} {last : Sentence}
    (h : Straight given lines)
    (hbody : DefinesUsed ⟨label, body, last⟩ (given ++ lines.filterMap Sentence.value?)) :
    DefinesUsed ⟨label, lines ++ body, last⟩ given := by
  induction lines generalizing given with
  | nil => simpa using hbody
  | cons s lines ih =>
      obtain ⟨-, -, hused, hlines⟩ := h
      refine .cons (ih hlines ?_) hused
      cases hvalue : s.value? <;> simpa [List.filterMap_cons, hvalue] using hbody

theorem Closed.straight {rest : List Sentence} (h : Straight scope lines)
    (hrest : Closed globals (scope ++ lines.filterMap Sentence.value?) rest) :
    Closed globals scope (lines ++ rest) := by
  induction lines generalizing scope with
  | nil => simpa using hrest
  | cons s lines ih =>
      obtain ⟨hstays, hlabel, hused, hlines⟩ := h
      refine .stay hstays hlabel hused (ih hlines ?_)
      cases hvalue : s.value? <;> simpa [List.filterMap_cons, hvalue] using hrest

/-- Lines that may stand inside any block that can use the values of `globals`, and that
leave off inside such a block, be it another one. -/
def Threads (globals : List String) (lines : List Sentence) : Prop :=
  ∀ scope rest, globals ⊆ scope → (∀ scope', globals ⊆ scope' → Closed globals scope' rest) →
    Closed globals scope (lines ++ rest)

theorem Threads.append {lines' : List Sentence} (h : Threads globals lines)
    (h' : Threads globals lines') : Threads globals (lines ++ lines') := by
  intro scope rest hscope hrest
  rw [List.append_assoc]
  exact h scope _ hscope fun scope' hscope' => h' scope' rest hscope' hrest

theorem Straight.threads (h : Straight globals lines) : Threads globals lines :=
  fun _ _ hscope hrest =>
    .straight (h.mono hscope) (hrest _ (List.subset_append_of_subset_left _ hscope))

end Blocks

section Artifact

/-- What the body of the program says, line by line. -/
def spoken : Template Sentence :=
  body.map Statement.sentence

theorem spoken_command (place : Place) (c : Command) :
    spoken.command place c = (commandStatements place.number c).map Statement.sentence := by
  rw [spoken, Template.map_command, body_command]

theorem straight_command (place : Place) (c : Command) :
    Straight prologueNames (spoken.command place c) := by
  have hslot : nameText slot ∈ prologueNames := by decide
  rw [spoken_command]
  cases c <;> simp [commandStatements, Statement.sentence, Straight, hslot]

/-- The lines of the test of a loop, up to the branch. -/
def testStatements (n : Nat) : List Statement :=
  [.loadPointer (n + 1) slot, .loadByte (n + 2) (n + 1), .isNonZero (n + 3) (n + 2)]

theorem straight_test (n : Nat) :
    Straight prologueNames ((testStatements n).map Statement.sentence) := by
  have hslot : nameText slot ∈ prologueNames := by decide
  simp [testStatements, Statement.sentence, Straight, hslot]

theorem threads_opening (place : Place) (id : Nat) :
    Threads prologueNames (spoken.opening place id) := by
  intro scope rest hscope hrest
  have hparts : spoken.opening place id ++ rest =
      Statement.sentence (.branch (.test place.number)) ::
        { label? := some (Label.test place.number).text } ::
          ((testStatements place.number).map Statement.sentence ++
            Statement.sentence (.branchIf (place.number + 3) (.body place.number)
              (.finish place.number)) ::
              { label? := some (Label.body place.number).text } :: rest) := rfl
  rw [hparts]
  refine .next rfl rfl (List.nil_subset _) (.straight (straight_test place.number) ?_)
  refine .next rfl rfl ?_ (hrest _ (List.Subset.refl _))
  simp [testStatements, Statement.sentence]

theorem threads_closing (place : Place) (id : Nat) :
    Threads prologueNames (spoken.closing place id) :=
  fun _ _ _ hrest => .next rfl rfl (List.nil_subset _) (hrest _ (List.Subset.refl _))

theorem threads_write (place : Place) (p : Program) :
    Threads prologueNames (spoken.write place p) :=
  Template.write_of_append (fun _ _ hscope hrest => hrest _ hscope)
    (fun _ _ => Threads.append) (fun place c => (straight_command place c).threads)
    threads_opening threads_closing place p

end Artifact

end TapeCompiler.Llvm
