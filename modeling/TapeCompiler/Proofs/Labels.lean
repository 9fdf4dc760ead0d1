import TapeCompiler.Proofs.Templates

/-!
# Labels

Targets without loops get a label before and a label behind the body of each loop, and
some of them a label at each read. `LabelNames` says what the labels are called, and
`LabelNames.labels` lists those of a program in order. They are distinct if the loops of
the program have ids of their own and different labels have different names
(`nodup_labels`).
-/

namespace TapeCompiler

/-- What a label is for. -/
inductive LabelUse where
  /-- The label before the body of the loop with an id. -/
  | start (id : Nat)
  /-- The label behind the body. -/
  | finish (id : Nat)
  /-- The label behind the read with a number. -/
  | skip (number : Nat)
deriving DecidableEq, Repr

/-- The use of a label is that of a loop of `p`, or of a read with one of the numbers from
`first` on and below `bound`. -/
def LabelUse.Within (p : Program) (first bound : Nat) : LabelUse → Prop
  | start id => id ∈ p.loopIds
  | finish id => id ∈ p.loopIds
  | skip number => first ≤ number ∧ number < bound

theorem LabelUse.Within.mono {use : LabelUse} {p q : Program} {first bound first' bound' : Nat}
    (h : use.Within p first bound) (hids : p.loopIds ⊆ q.loopIds) (hfirst : first' ≤ first)
    (hbound : bound ≤ bound') : use.Within q first' bound' := by
  cases use with
  | skip number => exact ⟨Nat.le_trans hfirst h.1, Nat.lt_of_lt_of_le h.2 hbound⟩
  | _ => exact hids h

/-- How the labels of loops, and of reads where these have labels, are called. -/
structure LabelNames (κ : Type) where
  start : Nat → κ
  finish : Nat → κ
  skip? : Option (Nat → κ) := none

namespace LabelNames

variable {κ κ' : Type}

def name? (names : LabelNames κ) : LabelUse → Option κ
  | .start id => some (names.start id)
  | .finish id => some (names.finish id)
  | .skip number => names.skip?.map (· number)

/-- Labels for different uses have different names. -/
def Distinct (names : LabelNames κ) : Prop :=
  ∀ ⦃a b l⦄, names.name? a = some l → names.name? b = some l → a = b

def map (f : κ → κ') (names : LabelNames κ) : LabelNames κ' where
  start := fun id => f (names.start id)
  finish := fun id => f (names.finish id)
  skip? := names.skip?.map fun skip number => f (skip number)

/-- A pair of labels around the labels of each body, and a label at each read where reads
have labels. These are numbered in order. -/
def template (names : LabelNames κ) : Template κ where
  command := fun place c =>
    match c, names.skip? with
    | .read, some skip => [skip place.number]
    | _, _ => []
  opening := fun _ id => [names.start id]
  closing := fun _ id => [names.finish id]
  commandNumbers := fun c =>
    match c, names.skip? with
    | .read, some _ => 1
    | _, _ => 0

/-- The labels of a program, in order. -/
def labels (names : LabelNames κ) (p : Program) : List κ :=
  names.template.write {} p

theorem name?_map (f : κ → κ') (names : LabelNames κ) (use : LabelUse) :
    (names.map f).name? use = (names.name? use).map f := by
  cases use with
  | skip number =>
      simp only [name?, map, Option.map_map]
      rfl
  | _ => rfl

theorem Distinct.map {names : LabelNames κ} (h : names.Distinct) {f : κ → κ'}
    (hf : Function.Injective f) : (names.map f).Distinct := by
  intro a b l ha hb
  rw [name?_map, Option.map_eq_some_iff] at ha hb
  obtain ⟨la, ha, rfl⟩ := ha
  obtain ⟨lb, hb, heq⟩ := hb
  exact h (hf heq ▸ ha) hb

theorem labels_map (f : κ → κ') (names : LabelNames κ) (p : Program) :
    (names.map f).labels p = (names.labels p).map f := by
  refine (Template.write_hom (List.map f) rfl (fun _ _ => List.map_append) ⟨?_, rfl⟩ ?_
    (fun _ _ => rfl) (fun _ _ => rfl) {} p).symm
  · funext c
    cases c <;> cases hskip : names.skip? <;> simp [template, map, hskip]
  · intro place c
    cases c <;> cases hskip : names.skip? <;> simp [template, map, hskip]

variable {names : LabelNames κ}

/-- The label of a command is that of a read which takes the number of the place. -/
theorem mem_command {l : κ} {place : Place} {c : Command}
    (h : l ∈ names.template.command place c) :
    names.name? (.skip place.number) = some l ∧ names.template.commandNumbers c = 1 := by
  cases c <;> cases hskip : names.skip? <;> simp [template, hskip] at h
  simp [template, name?, hskip, h]

/-- Every label is used within the program, with numbers that the program uses. -/
theorem exists_use_of_mem_write {l : κ} {place : Place} {p : Program}
    (h : l ∈ names.template.write place p) :
    ∃ use : LabelUse, names.name? use = some l ∧
      use.Within p place.number (place.number + names.template.numbers p) := by
  induction p using Program.induction generalizing place with
  | nil => simp at h
  | command c rest ih =>
      rw [Template.write_command, List.mem_append] at h
      rw [Template.numbers_command]
      rcases h with h | h
      · obtain ⟨hname, hnumber⟩ := mem_command h
        exact ⟨_, hname, Nat.le_refl _, by omega⟩
      · obtain ⟨use, hname, huse⟩ := ih h
        refine ⟨use, hname, huse.mono (by simp) (Nat.le_add_right _ _) ?_⟩
        simp only [Place.skip]
        omega
  | loop id body rest ihBody ih =>
      rw [Template.write_loop] at h
      rw [Template.numbers_loop]
      simp only [List.mem_append] at h
      have hwithin (use : LabelUse) (huse : use = .start id ∨ use = .finish id) (bound : Nat) :
          use.Within (.loop id body :: rest) place.number bound := by
        rcases huse with rfl | rfl <;> simp [LabelUse.Within]
      rcases h with ((h | h) | h) | h
      · exact ⟨.start id, congrArg some (List.mem_singleton.mp h).symm, hwithin _ (.inl rfl) _⟩
      · obtain ⟨use, hname, huse⟩ := ihBody h
        refine ⟨use, hname, huse.mono (by simp) (Nat.le_add_right _ _) ?_⟩
        simp only [Place.skip, Place.enter]
        omega
      · exact ⟨.finish id, congrArg some (List.mem_singleton.mp h).symm, hwithin _ (.inr rfl) _⟩
      · obtain ⟨use, hname, huse⟩ := ih h
        refine ⟨use, hname, huse.mono (by simp) (Nat.le_add_right _ _) ?_⟩
        simp only [Place.skip]
        omega

theorem not_mem_write (hnames : names.Distinct) {use : LabelUse} {l : κ} {place : Place}
    {p : Program} (hname : names.name? use = some l)
    (huse : ¬use.Within p place.number (place.number + names.template.numbers p)) :
    l ∉ names.template.write place p := by
  intro h
  obtain ⟨use', hname', huse'⟩ := exists_use_of_mem_write h
  exact huse (hnames hname hname' ▸ huse')

/-- Programs without a loop of the same id, written with different numbers, have no label
in common. -/
theorem disjoint_write (hnames : names.Distinct) {place place' : Place} {p q : Program}
    (hids : p.loopIds.Disjoint q.loopIds)
    (hnumber : place.number + names.template.numbers p ≤ place'.number) :
    (names.template.write place p).Disjoint (names.template.write place' q) := by
  intro l hp
  obtain ⟨use, hname, huse⟩ := exists_use_of_mem_write hp
  refine not_mem_write hnames hname fun huse' => ?_
  cases use with
  | skip number =>
      have hlt := huse.2
      have hle := huse'.1
      omega
  | _ => exact hids huse huse'

theorem nodup_write (hnames : names.Distinct) {p : Program} (hids : p.loopIds.Nodup)
    (place : Place) : (names.template.write place p).Nodup := by
  induction p using Program.induction generalizing place with
  | nil => simp
  | command c rest ih =>
      rw [Template.write_command, List.nodup_append']
      refine ⟨?_, ih (by simpa using hids) _, ?_⟩
      · cases c <;> cases hskip : names.skip? <;> simp [template, hskip]
      · intro l hl
        obtain ⟨hname, hnumber⟩ := mem_command hl
        refine not_mem_write hnames hname fun huse => ?_
        have hle := huse.1
        simp only [Place.skip, hnumber] at hle
        omega
  | loop id body rest ihBody ih =>
      simp only [Program.loopIds_cons, Node.loopIds_loop, List.cons_append,
        List.nodup_cons, List.nodup_append', List.mem_append, not_or] at hids
      obtain ⟨⟨hidBody, hidRest⟩, hbody, hrest, hdisjoint⟩ := hids
      have hstart : names.name? (.start id) = some (names.start id) := rfl
      have hfinish : names.name? (.finish id) = some (names.finish id) := rfl
      have hne : names.start id ≠ names.finish id := by
        intro heq
        cases hnames hstart (heq ▸ hfinish)
      have hparts : List.Disjoint
          (names.template.write ((place.skip names.template.loopNumbers).enter id) body)
          (names.template.write
            (place.skip (names.template.loopNumbers + names.template.numbers body)) rest) := by
        refine disjoint_write hnames hdisjoint ?_
        simp only [Place.skip, Place.enter]
        omega
      have hloop : names.template.opening place id = [names.start id] ∧
          names.template.closing place id = [names.finish id] := ⟨rfl, rfl⟩
      rw [Template.write_loop, hloop.1, hloop.2, List.append_assoc, List.append_assoc,
        List.singleton_append, List.singleton_append, List.nodup_cons, List.nodup_append',
        List.nodup_cons, List.disjoint_cons_right]
      simp only [List.mem_append, List.mem_cons, not_or]
      exact ⟨⟨not_mem_write hnames hstart hidBody, hne, not_mem_write hnames hstart hidRest⟩,
        ihBody hbody _, ⟨not_mem_write hnames hfinish hidRest, ih hrest _⟩,
        not_mem_write hnames hfinish hidBody, hparts⟩

/-- The labels of a program whose loops have ids of their own are distinct. -/
theorem nodup_labels (hnames : names.Distinct) {p : Program} (hids : p.loopIds.Nodup) :
    (names.labels p).Nodup :=
  nodup_write hnames hids {}

end LabelNames

/-- Which items of a code are labels, and which may go to one. -/
structure Labelling (ι κ : Type) where
  label? : ι → Option κ
  target? : ι → Option κ

namespace Labelling

variable {ι κ : Type}

/-- The parts of a template have the labels that they should, and go to no others. -/
structure Follows (l : Labelling ι κ) (names : LabelNames κ) (t : Template ι) : Prop where
  numbers : t.SameNumbers names.template
  command_label : ∀ place c,
    (t.command place c).filterMap l.label? = names.template.command place c
  command_target : ∀ place c,
    (t.command place c).filterMap l.target? ⊆ names.template.command place c
  opening_label : ∀ place id, (t.opening place id).filterMap l.label? = [names.start id]
  opening_target : ∀ place id, (t.opening place id).filterMap l.target? = [names.finish id]
  closing_label : ∀ place id, (t.closing place id).filterMap l.label? = [names.finish id]
  closing_target : ∀ place id, (t.closing place id).filterMap l.target? = [names.start id]

variable {l : Labelling ι κ} {names : LabelNames κ} {t : Template ι}

theorem Follows.filterMap_label? (h : l.Follows names t) (p : Program) :
    (t.write {} p).filterMap l.label? = names.labels p :=
  Template.write_hom (List.filterMap l.label?) rfl (fun _ _ => List.filterMap_append)
    h.numbers h.command_label h.opening_label h.closing_label {} p

theorem Follows.filterMap_target?_subset (h : l.Follows names t) (p : Program) :
    (t.write {} p).filterMap l.target? ⊆ names.labels p := by
  rw [Template.filterMap_write]
  refine Template.write_subset h.numbers h.command_target ?_ {} p
  intro place id label hlabel
  simp only [Template.filterMap, h.opening_target, h.closing_target] at hlabel
  simpa [LabelNames.template, or_comm] using hlabel

end Labelling

end TapeCompiler
