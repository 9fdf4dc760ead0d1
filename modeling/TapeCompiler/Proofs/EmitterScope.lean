import TapeCompiler.Layout.Emitter
import TapeCompiler.Proofs.LineBreaks
import Mathlib.Data.List.Forall2

/-!
# What an emitter writes, and how deep

`Entry.callsOf` lists the calls that entries are made of, in the order in which they are
finished, each with the number of groups around it. `Entry.Writes` says what one call
writes at a depth. What a call does to the emitter is `Noted.after`, and calls that are
made one after another do this one after another, whatever groups they are in
(`foldl_perform`). So the depth is the first one and the groups around a call, and is the
first one again behind the last call, and the text is made of what the calls write, each at
its own depth (`emit_scoped`).
-/

namespace TapeCompiler

/-- A call of an emitter, and the number of groups around it. -/
structure EmitterCall where
  groups : Nat
  entry : Entry
deriving Repr, Inhabited

mutual

def Entry.calls (groups : Nat) : Entry → List EmitterCall
  | .group entries => Entry.callsOf (groups + 1) entries ++ [⟨groups, .group entries⟩]
  | .line text => [⟨groups, .line text⟩]
  | .lines text => [⟨groups, .lines text⟩]
  | .label text => [⟨groups, .label text⟩]
  | .raw text => [⟨groups, .raw text⟩]

/-- The calls of entries that are in a number of groups. A group is finished behind the calls
in it. -/
def Entry.callsOf (groups : Nat) : List Entry → List EmitterCall
  | [] => []
  | entry :: rest => Entry.calls groups entry ++ Entry.callsOf groups rest

end

/-- Four blanks for each level. -/
def indentation (depth : Nat) : String :=
  String.join (List.replicate depth "    ")

/-- The text of a line at a depth. An empty line is not indented. -/
inductive Indents (depth : Nat) : String → String → Prop where
  | empty : Indents depth "" "\n"
  | nonempty {line : String} (h : line ≠ "") :
      Indents depth line (indentation depth ++ line ++ "\n")

namespace Entry

/-- What a call writes at a depth. A group writes nothing but what the calls in it write. -/
inductive Writes (depth : Nat) : Entry → String → Prop where
  | line {line text : String} (hline : Indents depth line text) :
      Writes depth (.line line) text
  | lines {text : String} {lines parts : List String} (hbreaks : BreaksInto text.toList lines)
      (hlines : List.Forall₂ (Indents depth) lines parts) :
      Writes depth (.lines text) (String.join parts)
  | label (text : String) : Writes depth (.label text) (text ++ "\n")
  | raw (text : String) : Writes depth (.raw text) text
  | group (entries : List Entry) : Writes depth (.group entries) ""

/-- The text that a call writes at a depth. -/
def textAt (depth : Nat) : Entry → String
  | line text => lineText depth text
  | lines text => String.join ((linesOf text).map (lineText depth))
  | label text => text ++ "\n"
  | raw text => text
  | group _ => ""

end Entry

section Texts

theorem indentation_eq_replicate (depth : Nat) :
    indentation depth = String.ofList (List.replicate (4 * depth) ' ') := by
  induction depth with
  | zero => rfl
  | succ depth ih =>
      have hfour : List.replicate 4 ' ' ++ List.replicate (4 * depth) ' ' =
          List.replicate (4 * (depth + 1)) ' ' := by
        rw [List.replicate_append_replicate, Nat.mul_succ, Nat.add_comm]
      unfold indentation at ih ⊢
      rw [List.replicate_succ, String.join_cons, ih, ← hfour, String.ofList_append]
      rfl

theorem lineText_of_ne_empty (depth : Nat) {line : String} (h : line ≠ "") :
    lineText depth line = indentation depth ++ line ++ "\n" := by
  rw [lineText, if_neg (by simpa using h), indentation_eq_replicate]

theorem indents_iff (depth : Nat) (line text : String) :
    Indents depth line text ↔ lineText depth line = text := by
  refine ⟨?_, ?_⟩
  · rintro (_ | hnonempty)
    · rfl
    · exact lineText_of_ne_empty depth hnonempty
  · rintro rfl
    by_cases hempty : line = ""
    · rw [hempty]
      exact .empty
    · rw [lineText_of_ne_empty depth hempty]
      exact .nonempty hempty

theorem forall₂_iff_map_eq {α β : Type} {f : α → β} {R : α → β → Prop}
    (hR : ∀ x y, R x y ↔ f x = y) {xs : List α} {ys : List β} :
    List.Forall₂ R xs ys ↔ xs.map f = ys := by
  obtain rfl : R = fun x y => f x = y := by
    funext x y
    exact propext (hR x y)
  rw [← List.forall₂_map_left_iff, List.forall₂_eq_eq_eq]

theorem Entry.writes_iff (depth : Nat) (entry : Entry) (text : String) :
    entry.Writes depth text ↔ entry.textAt depth = text := by
  refine ⟨?_, ?_⟩
  · rintro (hline | ⟨hbreaks, hlines⟩ | _ | _ | _)
    · exact (indents_iff _ _ _).mp hline
    · obtain rfl := breaksInto_iff.mp hbreaks
      obtain rfl := (forall₂_iff_map_eq (indents_iff depth)).mp hlines
      rfl
    · rfl
    · rfl
    · rfl
  · rintro rfl
    cases entry with
    | line text => exact .line ((indents_iff _ _ _).mpr rfl)
    | lines text =>
        exact .lines (breaksInto_iff.mpr rfl) ((forall₂_iff_map_eq (indents_iff depth)).mpr rfl)
    | label text => exact .label text
    | raw text => exact .raw text
    | group entries => exact .group entries

end Texts

namespace Emitter

/-- What was written and noted, behind some more calls. -/
def Noted.after (depth : Nat) (s : Noted) (calls : List EmitterCall) : Noted :=
  (⟨s.1.text ++ String.join (calls.map fun c => c.entry.textAt (depth + c.groups)), s.1.depth⟩,
    (calls.map fun c => depth + c.groups).reverse ++ s.2)

section Calls

variable {depth groups : Nat} {s : Noted}

theorem Noted.after_nil : s.after depth [] = s := by
  simp [Noted.after]

theorem Noted.after_append (calls more : List EmitterCall) :
    (s.after depth calls).after depth more = s.after depth (calls ++ more) := by
  simp [Noted.after, String.append_assoc]

theorem foldl_line (e : Emitter) (lines : List String) :
    lines.foldl line e = ⟨e.text ++ String.join (lines.map (lineText e.depth)), e.depth⟩ := by
  induction lines generalizing e with
  | nil => simp
  | cons text lines ih =>
      rw [List.foldl_cons, ih, List.map_cons, String.join_cons, line, String.append_assoc]

/-- A call that is not a group writes its text, and the depth stays. -/
theorem perform_leaf {entry : Entry} (h : ∀ entries, entry ≠ .group entries)
    (hdepth : s.1.depth = depth + groups) :
    perform s entry = s.after depth [⟨groups, entry⟩] := by
  obtain ⟨e, depths⟩ := s
  have hjoin : ∀ text, String.join [text] = text := fun text => by simp
  simp only [Noted.after, List.map_singleton, hjoin, ← hdepth]
  cases entry with
  | line text =>
      rw [perform]
      rfl
  | lines text =>
      rw [perform, lines, foldl_line]
      rfl
  | label text =>
      rw [perform, label, String.append_assoc]
      rfl
  | raw text =>
      rw [perform]
      rfl
  | group entries => exact absurd rfl (h entries)

/-- A group does what the calls in it do one level deeper, and the depth is back behind it. -/
theorem perform_group {entries : List Entry} {calls : List EmitterCall}
    (hdepth : s.1.depth = depth + groups)
    (hinner : entries.foldl perform (s.1.deeper, s.2) =
      Noted.after depth (s.1.deeper, s.2) calls) :
    perform s (.group entries) = s.after depth (calls ++ [⟨groups, .group entries⟩]) := by
  obtain ⟨e, depths⟩ := s
  have hback : e.depth = depth + groups := hdepth
  rw [perform, hinner]
  simp [Noted.after, Entry.textAt, deeper, shallower, note, hback]

-- Over the entries and the entries in their groups. What is carried along is that the depth is
-- the first one and the groups around.
mutual

theorem perform_eq (s : Noted) (groups : Nat) (hdepth : s.1.depth = depth + groups) :
    ∀ entry, perform s entry = s.after depth (Entry.calls groups entry)
  | .group entries => by
      have hdeeper : s.1.deeper.depth = depth + (groups + 1) := congrArg (· + 1) hdepth
      rw [Entry.calls]
      exact perform_group hdepth (foldl_perform (s.1.deeper, s.2) (groups + 1) hdeeper entries)
  | .line _ => perform_leaf nofun hdepth
  | .lines _ => perform_leaf nofun hdepth
  | .label _ => perform_leaf nofun hdepth
  | .raw _ => perform_leaf nofun hdepth

theorem foldl_perform (s : Noted) (groups : Nat) (hdepth : s.1.depth = depth + groups) :
    ∀ entries, entries.foldl perform s = s.after depth (Entry.callsOf groups entries)
  | [] => Noted.after_nil.symm
  | entry :: rest => by
      have hafter : (s.after depth (Entry.calls groups entry)).1.depth = depth + groups := hdepth
      rw [List.foldl_cons, perform_eq s groups hdepth entry, foldl_perform _ groups hafter rest,
        Noted.after_append, Entry.callsOf]

end

end Calls

/-- At any depth to start at, a call of the entries writes one text, as many levels deeper as
there are groups around it, and these texts in the order of the calls are the text. Behind a
call the depth is the depth that it was made at. Whatever was written before stays, and the
depth is in the end what it was. -/
theorem emit_scoped (depth : Nat) (entries : List Entry) :
    ∃ parts : List String,
      (∀ parts', List.Forall₂ (fun c part => c.entry.Writes (depth + c.groups) part)
        (Entry.callsOf 0 entries) parts' ↔ parts' = parts) ∧
      emit depth entries =
        (String.join parts, (Entry.callsOf 0 entries).map fun c => depth + c.groups) ∧
      ∀ text depths, (entries.foldl perform (⟨text, depth⟩, depths)).1 =
        ⟨text ++ String.join parts, depth⟩ := by
  refine ⟨(Entry.callsOf 0 entries).map fun c => c.entry.textAt (depth + c.groups), ?_, ?_, ?_⟩
  · intro parts'
    have hwrites (c : EmitterCall) := Entry.writes_iff (depth + c.groups) c.entry
    rw [forall₂_iff_map_eq hwrites, eq_comm]
  · rw [emit, foldl_perform _ 0 rfl]
    simp [Noted.after]
  · intro text depths
    rw [foldl_perform _ 0 rfl]
    rfl

example : emit 1 [.line "a", .group [.lines "b\r\n\nc", .label "d:"], .raw "e"] =
    ("    a\n        b\n\n        c\nd:\ne", [1, 2, 2, 1, 1]) := by
  cbv

end Emitter

end TapeCompiler
