import TapeCompiler.Program.Printer
import TapeCompiler.Proofs.Outline
import TapeCompiler.Proofs.Words

/-!
# What the short form of a program tells

The short form is the text of the parts of the outline, one behind the other. No text of a
command is at the front of that of another command, and the bracket that opens a loop is
told from `[Z]` by the next character, since the text of no part starts with `Z`. So the
parts can be read back (`flatMap_debugText_injective`), and `debugText_eq_iff` says that
the short form tells a program from every other one but for the ids of its loops.
-/

namespace TapeCompiler

namespace Command

theorem amountText_append_inj {direction direction' : Char} {n n' : Nat} {s t : List Char}
    (h : amountText direction n ++ s = amountText direction' n' ++ t) :
    direction = direction' ∧ n = n' ∧ s = t := by
  have hdigits (n : Nat) : '\x7d' ∉ Nat.toDigits 10 n := fun hmem =>
    absurd (Nat.isDigit_of_mem_toDigits (by decide) (by decide) hmem) (by decide)
  simp only [amountText, List.cons_append, List.append_assoc, List.cons.injEq, true_and,
    List.nil_append] at h
  obtain ⟨hdirection, h⟩ := h
  obtain ⟨hn, hst⟩ := eq_of_append_cons_eq (hdigits n) (hdigits n') h
  refine ⟨hdirection, ?_, hst⟩
  rw [← Nat.ofDigitChars_ten_toDigits (n := n), hn, Nat.ofDigitChars_ten_toDigits]

/-- An amount is told by its direction and its magnitude. -/
theorem eq_of_direction {a b : Int} {back forth : Char} (hne : back ≠ forth)
    (hdirection : (if a < 0 then back else forth) = if b < 0 then back else forth)
    (habs : a.natAbs = b.natAbs) : a = b := by
  split at hdirection <;> split at hdirection
  · omega
  · exact absurd hdirection hne
  · exact absurd hdirection.symm hne
  · omega

/-- The text of a command tells the command, and where it ends. -/
theorem debugText_append_inj {c d : Command} {s t : List Char}
    (h : c.debugText ++ s = d.debugText ++ t) : c = d ∧ s = t := by
  cases c <;> cases d
  case move.move a b =>
    obtain ⟨hdirection, habs, hst⟩ := amountText_append_inj h
    exact ⟨congrArg _ (eq_of_direction (by decide) hdirection habs), hst⟩
  case add.add a b =>
    obtain ⟨hdirection, habs, hst⟩ := amountText_append_inj h
    exact ⟨congrArg _ (eq_of_direction (by decide) hdirection habs), hst⟩
  case clear.clear => simpa [debugText] using h
  case print.print => simpa [debugText] using h
  case read.read => simpa [debugText] using h
  -- Otherwise the first characters differ.
  all_goals
    have hhead := congrArg List.head? h
    simp only [debugText, amountText, List.cons_append, List.head?_cons, Option.some.injEq] at hhead
    grind

/-- The text of a command is not read as an end of a loop. -/
theorem debugText_append_ne (c : Command) (s : List Char) {t : List Char}
    (ht : t.head? ≠ some 'Z') :
    c.debugText ++ s ≠ '[' :: t ∧ c.debugText ++ s ≠ ']' :: t := by
  cases c with
  | clear =>
      refine ⟨fun h => ?_, fun h => ?_⟩
      · obtain rfl := (List.cons_eq_cons.mp h).2
        exact ht rfl
      · cases (List.cons_eq_cons.mp h).1
  | _ => simp only [debugText, amountText, List.cons_append, ne_eq, List.cons.injEq]; grind

end Command

namespace Part

def debugText : Part Command → List Char
  | command c => c.debugText
  | opening => ['[']
  | closing => [']']

theorem exists_debugText_eq_cons (x : Part Command) :
    ∃ c rest, x.debugText = c :: rest ∧ c ≠ 'Z' := by
  rcases x with (_ | _ | _ | _ | _) | _ | _
  case command.move amount => exact ⟨_, _, rfl, by split <;> decide⟩
  case command.add amount => exact ⟨_, _, rfl, by split <;> decide⟩
  all_goals exact ⟨_, _, rfl, by decide⟩

/-- No text of parts starts with the character that tells a clear from a loop. -/
theorem head?_flatMap_debugText_ne (xs : List (Part Command)) :
    (xs.flatMap debugText).head? ≠ some 'Z' := by
  cases xs with
  | nil => simp
  | cons x xs =>
      obtain ⟨c, rest, hx, hc⟩ := x.exists_debugText_eq_cons
      simpa [hx] using hc

theorem debugText_append_ne_nil (x : Part Command) (s : List Char) : x.debugText ++ s ≠ [] := by
  obtain ⟨c, rest, hx, -⟩ := x.exists_debugText_eq_cons
  simp [hx]

/-- The text of a part tells the part, and where it ends, if no `Z` is behind it. -/
theorem debugText_append_inj {x y : Part Command} {s t : List Char} (hs : s.head? ≠ some 'Z')
    (ht : t.head? ≠ some 'Z') (h : x.debugText ++ s = y.debugText ++ t) : x = y ∧ s = t := by
  cases x <;> cases y
  case command.command c d =>
    obtain ⟨rfl, hst⟩ := Command.debugText_append_inj h
    exact ⟨rfl, hst⟩
  case command.opening c => exact absurd h (c.debugText_append_ne s ht).1
  case command.closing c => exact absurd h (c.debugText_append_ne s ht).2
  case opening.command d => exact absurd h.symm (d.debugText_append_ne t hs).1
  case closing.command d => exact absurd h.symm (d.debugText_append_ne t hs).2
  case opening.opening => exact ⟨rfl, (List.cons_eq_cons.mp h).2⟩
  case closing.closing => exact ⟨rfl, (List.cons_eq_cons.mp h).2⟩
  all_goals cases (List.cons_eq_cons.mp h).1

theorem flatMap_debugText_injective {xs ys : List (Part Command)}
    (h : xs.flatMap debugText = ys.flatMap debugText) : xs = ys := by
  induction xs generalizing ys with
  | nil =>
      rcases ys with _ | ⟨y, ys⟩
      · rfl
      · exact absurd h.symm (y.debugText_append_ne_nil _)
  | cons x xs ih =>
      rcases ys with _ | ⟨y, ys⟩
      · exact absurd h (x.debugText_append_ne_nil _)
      · obtain ⟨rfl, hrest⟩ := debugText_append_inj (head?_flatMap_debugText_ne xs)
          (head?_flatMap_debugText_ne ys) h
        rw [ih hrest]

end Part

namespace Program

theorem debugChars_eq (p : Program) : p.debugChars = (p.outline id).flatMap Part.debugText :=
  (Template.write_hom (List.flatMap Part.debugText) rfl (fun _ _ => List.flatMap_append) ⟨rfl, rfl⟩
    (fun _ _ => List.flatMap_singleton _ _) (fun _ _ => rfl) (fun _ _ => rfl) {} p).symm

/-- Two programs have the same short form exactly if they are the same tree up to the ids of
loops. -/
theorem debugText_eq_iff (p q : Program) : p.debugText = q.debugText ↔ p.SameTree (· = ·) q := by
  have houtline : p.outline id = q.outline id ↔ p.SameTree (· = ·) q := outline_eq_iff
  rw [debugText, debugText, String.ofList_inj, debugChars_eq, debugChars_eq, ← houtline]
  exact ⟨Part.flatMap_debugText_injective, congrArg _⟩

end Program

end TapeCompiler
