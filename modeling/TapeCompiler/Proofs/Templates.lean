import TapeCompiler.Layout.Template
import TapeCompiler.Proofs.LoopIds

/-!
# One template seen through another

What is read off the items that a template writes is often what a simpler template
writes: the contents of lines, or the labels among them. `write_hom` says so if it holds
of the parts of the templates, and the numbers agree. `write_subset` compares what two
templates write, and `parts_isInfix_write` finds what stands around the body of a loop.
-/

namespace TapeCompiler.Template

variable {ι β : Type}

def SameNumbers (t : Template ι) (u : Template β) : Prop :=
  t.commandNumbers = u.commandNumbers ∧ t.loopNumbers = u.loopNumbers

theorem SameNumbers.numbers_eq {t : Template ι} {u : Template β} (h : SameNumbers t u)
    (p : Program) : t.numbers p = u.numbers p := by
  induction p using Program.induction with
  | nil => rfl
  | command c rest ih => rw [numbers_command, numbers_command, ih, h.1]
  | loop id body rest ihBody ih => rw [numbers_loop, numbers_loop, ih, ihBody, h.2]

/-- If `f` takes items apart piece by piece, and the parts of one template to those of
another, it takes what the one writes to what the other writes. -/
theorem write_hom {t : Template ι} {u : Template β} (f : List ι → List β) (hnil : f [] = [])
    (happend : ∀ xs ys, f (xs ++ ys) = f xs ++ f ys) (hnumbers : SameNumbers t u)
    (hcommand : ∀ place c, f (t.command place c) = u.command place c)
    (hopening : ∀ place id, f (t.opening place id) = u.opening place id)
    (hclosing : ∀ place id, f (t.closing place id) = u.closing place id)
    (place : Place) (p : Program) : f (t.write place p) = u.write place p := by
  induction p using Program.induction generalizing place with
  | nil => exact hnil
  | command c rest ih =>
      rw [write_command, write_command, happend, hcommand, ih, hnumbers.1]
  | loop id body rest ihBody ih =>
      rw [write_loop, write_loop, happend, happend, happend, hopening, hclosing, ihBody, ih,
        hnumbers.2, hnumbers.numbers_eq]

/-- The template that writes the image of every item. -/
def map (f : ι → β) (t : Template ι) : Template β where
  command := fun place c => (t.command place c).map f
  opening := fun place id => (t.opening place id).map f
  closing := fun place id => (t.closing place id).map f
  commandNumbers := t.commandNumbers
  loopNumbers := t.loopNumbers

theorem map_command (f : ι → β) (t : Template ι) (place : Place) (c : Command) :
    (t.map f).command place c = (t.command place c).map f := rfl

theorem map_opening (f : ι → β) (t : Template ι) (place : Place) (id : Nat) :
    (t.map f).opening place id = (t.opening place id).map f := rfl

theorem map_closing (f : ι → β) (t : Template ι) (place : Place) (id : Nat) :
    (t.map f).closing place id = (t.closing place id).map f := rfl

theorem map_write (f : ι → β) (t : Template ι) (place : Place) (p : Program) :
    (t.write place p).map f = (t.map f).write place p :=
  write_hom (List.map f) rfl (fun _ _ => List.map_append) ⟨rfl, rfl⟩ (fun _ _ => rfl)
    (fun _ _ => rfl) (fun _ _ => rfl) place p

/-- The template that writes the images of those items that have one. -/
def filterMap (f : ι → Option β) (t : Template ι) : Template β where
  command := fun place c => (t.command place c).filterMap f
  opening := fun place id => (t.opening place id).filterMap f
  closing := fun place id => (t.closing place id).filterMap f
  commandNumbers := t.commandNumbers
  loopNumbers := t.loopNumbers

theorem filterMap_command (f : ι → Option β) (t : Template ι) (place : Place) (c : Command) :
    (t.filterMap f).command place c = (t.command place c).filterMap f := rfl

theorem filterMap_opening (f : ι → Option β) (t : Template ι) (place : Place) (id : Nat) :
    (t.filterMap f).opening place id = (t.opening place id).filterMap f := rfl

theorem filterMap_closing (f : ι → Option β) (t : Template ι) (place : Place) (id : Nat) :
    (t.filterMap f).closing place id = (t.closing place id).filterMap f := rfl

theorem filterMap_write (f : ι → Option β) (t : Template ι) (place : Place) (p : Program) :
    (t.write place p).filterMap f = (t.filterMap f).write place p :=
  write_hom (List.filterMap f) rfl (fun _ _ => List.filterMap_append) ⟨rfl, rfl⟩
    (fun _ _ => rfl) (fun _ _ => rfl) (fun _ _ => rfl) place p

/-- The template that writes, for every item, the items that `f` makes of it. -/
def flatMap (f : ι → List β) (t : Template ι) : Template β where
  command := fun place c => (t.command place c).flatMap f
  opening := fun place id => (t.opening place id).flatMap f
  closing := fun place id => (t.closing place id).flatMap f
  commandNumbers := t.commandNumbers
  loopNumbers := t.loopNumbers

theorem flatMap_command (f : ι → List β) (t : Template ι) (place : Place) (c : Command) :
    (t.flatMap f).command place c = (t.command place c).flatMap f := rfl

theorem flatMap_write (f : ι → List β) (t : Template ι) (place : Place) (p : Program) :
    (t.write place p).flatMap f = (t.flatMap f).write place p :=
  write_hom (List.flatMap f) rfl (fun _ _ => List.flatMap_append) ⟨rfl, rfl⟩
    (fun _ _ => rfl) (fun _ _ => rfl) (fun _ _ => rfl) place p

/-- A template whose parts write the numbers that they use, each once and in order, writes
all numbers in order. -/
theorem write_eq_range {t : Template ι} {item : Nat → ι}
    (hcommand : ∀ place c,
      t.command place c = (List.range' place.number (t.commandNumbers c)).map item)
    (hopening : ∀ place id,
      t.opening place id = (List.range' place.number t.loopNumbers).map item)
    (hclosing : ∀ place id, t.closing place id = []) (place : Place) (p : Program) :
    t.write place p = (List.range' place.number (t.numbers p)).map item := by
  induction p using Program.induction generalizing place with
  | nil => rfl
  | command c rest ih =>
      rw [write_command, hcommand, ih, ← List.map_append, Place.skip, List.range'_append_1,
        numbers_command]
  | loop id body rest ihBody ih =>
      rw [write_loop, hopening, hclosing, ihBody, ih, List.append_nil, ← List.map_append,
        ← List.map_append]
      simp only [Place.skip, Place.enter]
      rw [List.range'_append_1, List.range'_append_1, numbers_loop]

/-- Whatever holds of all items in the parts of a template holds of all that it writes. -/
theorem forall_mem_write {t : Template ι} {P : ι → Prop}
    (hcommand : ∀ place c, ∀ item ∈ t.command place c, P item)
    (hopening : ∀ place id, ∀ item ∈ t.opening place id, P item)
    (hclosing : ∀ place id, ∀ item ∈ t.closing place id, P item) (place : Place)
    (p : Program) : ∀ item ∈ t.write place p, P item := by
  induction p using Program.induction generalizing place with
  | nil => simp
  | command c rest ih =>
      rw [write_command, List.forall_mem_append]
      exact ⟨hcommand place c, ih _⟩
  | loop id body rest ihBody ih =>
      rw [write_loop]
      simp only [List.forall_mem_append]
      exact ⟨⟨⟨hopening place id, ihBody _⟩, hclosing place id⟩, ih _⟩

/-- Whatever holds of the parts of a template, and of items put behind each other, holds of
all that it writes. -/
theorem write_of_append {t : Template ι} {P : List ι → Prop} (hnil : P [])
    (happend : ∀ xs ys, P xs → P ys → P (xs ++ ys)) (hcommand : ∀ place c, P (t.command place c))
    (hopening : ∀ place id, P (t.opening place id))
    (hclosing : ∀ place id, P (t.closing place id)) (place : Place) (p : Program) :
    P (t.write place p) := by
  induction p using Program.induction generalizing place with
  | nil => exact hnil
  | command c rest ih =>
      rw [write_command]
      exact happend _ _ (hcommand place c) (ih _)
  | loop id body rest ihBody ih =>
      rw [write_loop]
      exact happend _ _
        (happend _ _ (happend _ _ (hopening place id) (ihBody _)) (hclosing place id)) (ih _)

/-- Where the code of one node hands over to that of another, or of the loop around it:
`t.Seam place p before` says that there is such a place behind the items `before` of what
the template writes for `p`. -/
inductive Seam (t : Template ι) : Place → Program → List ι → Prop
  | here (place : Place) (p : Program) : Seam t place p []
  | command {place : Place} {c : Command} {rest : Program} {before : List ι}
      (h : Seam t (place.skip (t.commandNumbers c)) rest before) :
      Seam t place (.command c :: rest) (t.command place c ++ before)
  | body {place : Place} {id : Nat} {body rest : Program} {before : List ι}
      (h : Seam t ((place.skip t.loopNumbers).enter id) body before) :
      Seam t place (.loop id body :: rest) (t.opening place id ++ before)
  | loop {place : Place} {id : Nat} {body rest : Program} {before : List ι}
      (h : Seam t (place.skip (t.loopNumbers + t.numbers body)) rest before) :
      Seam t place (.loop id body :: rest)
        (t.opening place id ++ t.write ((place.skip t.loopNumbers).enter id) body ++
          t.closing place id ++ before)

theorem Seam.isPrefix_write {t : Template ι} {place : Place} {p : Program} {before : List ι}
    (h : t.Seam place p before) : before <+: t.write place p := by
  induction h with
  | here => exact List.nil_prefix
  | command _ ih =>
      rw [write_command]
      exact (List.prefix_append_right_inj _).mpr ih
  | body _ ih =>
      rw [write_loop, List.append_assoc, List.append_assoc]
      exact (List.prefix_append_right_inj _).mpr (ih.trans (List.prefix_append _ _))
  | loop _ ih =>
      rw [write_loop]
      exact (List.prefix_append_right_inj _).mpr ih

/-- If the parts of one template write only what those of another do, the two parts
around a body taken together, then so do the templates. -/
theorem write_subset {t u : Template ι} (hnumbers : SameNumbers t u)
    (hcommand : ∀ place c, t.command place c ⊆ u.command place c)
    (hloop : ∀ place id, t.opening place id ++ t.closing place id ⊆
      u.opening place id ++ u.closing place id) (place : Place) (p : Program) :
    t.write place p ⊆ u.write place p := by
  induction p using Program.induction generalizing place with
  | nil => simp
  | command c rest ih =>
      rw [write_command, write_command, ← hnumbers.1]
      exact List.append_subset.mpr
        ⟨List.subset_append_of_subset_left _ (hcommand place c),
          List.subset_append_of_subset_right _ (ih _)⟩
  | loop id body rest ihBody ih =>
      rw [write_loop, write_loop, ← hnumbers.2, ← hnumbers.numbers_eq]
      intro item hitem
      have haround := hloop place id (a := item)
      have hbody := ihBody ((place.skip t.loopNumbers).enter id) (a := item)
      have hrest := ih (place.skip (t.loopNumbers + t.numbers body)) (a := item)
      simp only [List.mem_append] at hitem haround ⊢
      tauto

/-- What a template writes holds, for each loop of the program, what it writes before
and after the body of the loop. -/
theorem parts_isInfix_write (t : Template ι) {id : Nat} {p : Program} (h : id ∈ p.loopIds)
    (place : Place) : ∃ inner, t.opening inner id <:+: t.write place p ∧
      t.closing inner id <:+: t.write place p := by
  induction p using Program.induction generalizing place with
  | nil => simp at h
  | command c rest ih =>
      obtain ⟨inner, hopening, hclosing⟩ := ih (by simpa using h) (place.skip (t.commandNumbers c))
      rw [write_command]
      exact ⟨inner, hopening.trans (List.suffix_append _ _).isInfix,
        hclosing.trans (List.suffix_append _ _).isInfix⟩
  | loop id' body rest ihBody ih =>
      have hparts : id = id' ∨ id ∈ body.loopIds ∨ id ∈ rest.loopIds := by
        simpa [or_assoc] using h
      rw [write_loop]
      rcases hparts with rfl | hbody | hrest
      · refine ⟨place, ?_, ?_⟩
        · simp only [List.append_assoc]
          exact (List.prefix_append _ _).isInfix
        · exact List.infix_append _ _ _
      · obtain ⟨inner, hopening, hclosing⟩ := ihBody hbody ((place.skip t.loopNumbers).enter id')
        have hwithin (before part after rest : List ι) :
            part <:+: before ++ part ++ after ++ rest := by
          simp only [List.append_assoc _ after]
          exact List.infix_append _ _ _
        exact ⟨inner, hopening.trans (hwithin ..), hclosing.trans (hwithin ..)⟩
      · obtain ⟨inner, hopening, hclosing⟩ :=
          ih hrest (place.skip (t.loopNumbers + t.numbers body))
        exact ⟨inner, hopening.trans (List.suffix_append _ _).isInfix,
          hclosing.trans (List.suffix_append _ _).isInfix⟩

end TapeCompiler.Template
