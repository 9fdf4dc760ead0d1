import TapeCompiler.Proofs.Templates

/-!
# The outline of a program

The outline lists the parts of a program in the order of its text: the commands, and where
loops open and close. It keeps of a command only what it is told to keep, and nothing of
the id of a loop. `outline_eq_iff` says that the outline still tells the tree: two programs
with one outline are the same tree, up to ids and to what is not kept of commands. So a
text form loses no more than that if the outline can be read off it.
-/

namespace TapeCompiler

/-- A part of a program in the order of its text, with what is kept of a command. -/
inductive Part (κ : Type) where
  | command (kept : κ)
  | opening
  | closing
deriving DecidableEq, Repr, Inhabited

/-- The kinds of parts that a text form has a wording for. -/
inductive PartKind where
  | move
  | add
  | clear
  | print
  | read
  | opening
  | closing
deriving DecidableEq, Repr, Inhabited

namespace PartKind

def all : List PartKind :=
  [move, add, clear, print, read, opening, closing]

theorem mem_all (kind : PartKind) : kind ∈ all := by
  cases kind <;> decide

/-- The kind of a part is told by what its text starts with. -/
def ToldBy (front : PartKind → String) : Prop :=
  ∀ kind kind', (front kind).toList <+: (front kind').toList → kind = kind'

instance (front : PartKind → String) : Decidable (ToldBy front) :=
  decidable_of_iff
    (∀ kind ∈ all, ∀ kind' ∈ all, (front kind).toList <+: (front kind').toList → kind = kind')
    ⟨fun h kind kind' => h kind kind.mem_all kind' kind'.mem_all,
      fun h kind _ kind' _ => h kind kind'⟩

theorem ToldBy.append_inj {front : PartKind → String} (hfront : ToldBy front)
    {kind kind' : PartKind} {s t : String} (h : front kind ++ s = front kind' ++ t) :
    kind = kind' ∧ s = t := by
  have hkind : kind = kind' := by
    have htext : (front kind).toList <+: (front kind').toList ++ t.toList := by
      rw [← String.toList_append, ← h, String.toList_append]
      exact List.prefix_append _ _
    rcases List.prefix_or_prefix_of_prefix htext (List.prefix_append _ _) with hle | hle
    · exact hfront _ _ hle
    · exact (hfront _ _ hle).symm
  subst hkind
  exact ⟨rfl, (String.append_right_inj _).mp h⟩

theorem ToldBy.ne_empty {front : PartKind → String} (hfront : ToldBy front) (kind : PartKind) :
    front kind ≠ "" := by
  intro hempty
  have hall (kind' : PartKind) : kind = kind' := by
    refine hfront kind kind' ?_
    rw [hempty]
    exact List.nil_prefix
  cases (hall .move).symm.trans (hall .add)

end PartKind

/-- The command, and an amount that is added modulo 256. -/
def Command.residue : Command → Command
  | add amount => add (amount % 256)
  | c => c

/-- The same command, where an amount that is added counts modulo 256. -/
def Command.SameByte (c d : Command) : Prop :=
  c.residue = d.residue

theorem stepByte_eq_iff {a b : Int} : stepByte a = stepByte b ↔ a % 256 = b % 256 := by
  rw [stepByte, stepByte, UInt8.ofInt, UInt8.ofInt, ← UInt8.toNat_inj, UInt8.toNat_ofNat',
    UInt8.toNat_ofNat']
  omega

namespace Program

/-- Two programs are the same tree up to the ids of loops, and `same` relates the commands
that are in the same places. -/
inductive SameTree (same : Command → Command → Prop) : Program → Program → Prop
  | nil : SameTree same [] []
  | command {c d : Command} {p q : Program} (hc : same c d) (h : SameTree same p q) :
      SameTree same (.command c :: p) (.command d :: q)
  | loop {id id' : Nat} {body body' p q : Program} (hbody : SameTree same body body')
      (h : SameTree same p q) : SameTree same (.loop id body :: p) (.loop id' body' :: q)

theorem SameTree.imp {same same' : Command → Command → Prop}
    (himp : ∀ c d, same c d → same' c d) {p q : Program} (h : SameTree same p q) :
    SameTree same' p q := by
  induction h with
  | nil => exact .nil
  | command hc _ ih => exact .command (himp _ _ hc) ih
  | loop _ _ ihBody ih => exact .loop ihBody ih

variable {κ : Type} (keep : Command → κ)

def outlineTemplate : Template (Part κ) :=
  .uniform (fun c => [.command (keep c)]) [.opening] [.closing]

/-- The parts of a program in the order of its text. -/
def outline (p : Program) : List (Part κ) :=
  (outlineTemplate keep).write {} p

@[simp] theorem outline_nil : outline keep [] = [] := rfl

theorem outline_command (c : Command) (rest : Program) :
    outline keep (.command c :: rest) = .command (keep c) :: outline keep rest := by
  rw [outline, Template.write_command]
  rfl

theorem outline_loop (id : Nat) (body rest : Program) :
    outline keep (.loop id body :: rest) =
      .opening :: (outline keep body ++ .closing :: outline keep rest) := by
  rw [outline, Template.write_loop]
  simp only [outlineTemplate, Template.write_uniform _ _ _ _ {}]
  simp [outline, outlineTemplate, Template.uniform]

variable {keep}

/-- If the parts of the outline can be read off the items that a template writes, one off
each, then the outline can be read off all that it writes. -/
theorem map_write_eq_outline {ι : Type} {t : Template ι} {read : ι → Part κ}
    (hnumbers : t.SameNumbers (outlineTemplate keep))
    (hcommand : ∀ place c, (t.command place c).map read = [.command (keep c)])
    (hopening : ∀ place id, (t.opening place id).map read = [.opening])
    (hclosing : ∀ place id, (t.closing place id).map read = [.closing]) (place : Place)
    (p : Program) : (t.write place p).map read = p.outline keep := by
  rw [outline, outlineTemplate, Template.write_uniform _ _ _ {} place]
  exact Template.write_hom (List.map read) rfl (fun _ _ => List.map_append) hnumbers hcommand
    hopening hclosing place p

/-- What stands behind a block: the end of a loop, or nothing. -/
def EndsBlock (parts : List (Part κ)) : Prop :=
  ∀ part ∈ parts.head?, part = .closing

theorem endsBlock_closing (parts : List (Part κ)) : EndsBlock (.closing :: parts) := by
  simp [EndsBlock]

/-- A block that is not empty starts with no end of a loop. -/
theorem outline_append_ne {s : List (Part κ)} (hs : EndsBlock s) (n : Node) (rest : Program)
    (t : List (Part κ)) : outline keep (n :: rest) ++ t ≠ s := by
  rintro rfl
  cases n with
  | command c => simp [outline_command, EndsBlock] at hs
  | loop id body => simp [outline_loop, EndsBlock] at hs

/-- The outline of a block tells the block, and where it ends. -/
theorem sameTree_of_outline_append {p q : Program} {s t : List (Part κ)} (hs : EndsBlock s)
    (ht : EndsBlock t) (h : outline keep p ++ s = outline keep q ++ t) :
    SameTree (fun c d => keep c = keep d) p q ∧ s = t := by
  -- What stands behind the blocks is general: behind the body of a loop it is the end of the
  -- loop, and behind the loop it is the rest of the block.
  induction p using Program.induction generalizing q s t with
  | nil =>
      rcases q with _ | ⟨n, q⟩
      · exact ⟨.nil, h⟩
      · exact absurd h.symm (outline_append_ne hs n q t)
  | command c rest ih =>
      rcases q with _ | ⟨d | ⟨id', body'⟩, rest'⟩
      · exact absurd h (outline_append_ne ht _ rest s)
      · rw [outline_command, outline_command] at h
        obtain ⟨hkept, h⟩ := List.cons_eq_cons.mp h
        obtain ⟨hrest, hst⟩ := ih hs ht h
        exact ⟨.command (Part.command.inj hkept) hrest, hst⟩
      · rw [outline_command, outline_loop] at h
        cases (List.cons_eq_cons.mp h).1
  | loop id body rest ihBody ih =>
      rcases q with _ | ⟨d | ⟨id', body'⟩, rest'⟩
      · exact absurd h (outline_append_ne ht _ rest s)
      · rw [outline_command, outline_loop] at h
        cases (List.cons_eq_cons.mp h).1
      · rw [outline_loop, outline_loop] at h
        simp only [List.cons_append, List.append_assoc, List.cons.injEq, true_and] at h
        obtain ⟨hbody, h⟩ := ihBody (endsBlock_closing _) (endsBlock_closing _) h
        obtain ⟨hrest, hst⟩ := ih hs ht (List.cons_eq_cons.mp h).2
        exact ⟨.loop hbody hrest, hst⟩

theorem outline_eq_iff {p q : Program} :
    p.outline keep = q.outline keep ↔ SameTree (fun c d => keep c = keep d) p q := by
  constructor
  · intro h
    have hempty : EndsBlock ([] : List (Part κ)) := by simp [EndsBlock]
    exact (sameTree_of_outline_append hempty hempty (congrArg (· ++ []) h)).1
  · intro h
    induction h with
    | nil => rfl
    | command hc _ ih => rw [outline_command, outline_command, hc, ih]
    | loop _ _ ihBody ih => rw [outline_loop, outline_loop, ihBody, ih]

end Program

end TapeCompiler
