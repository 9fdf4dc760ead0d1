import TapeCompiler.Program

/-!
# Programs on a line

An engine that runs a program from a line of words keeps a place on the line, an engine
that walks along the tree keeps the nodes that are still to run. `Leads` relates the
two: from a place on, the line holds what is still to run, and behind the body of a loop
it goes on with the loop itself. The words are those of any `write` that puts one word
before the body of a loop and one behind it.

`Leads.body` is the step that enters a loop, from either of its ends.
-/

namespace TapeCompiler

section Prefixes

variable {α : Type} {words part rest : List α} {word : α} {place : Nat}

theorem getElem?_of_isPrefix_drop (h : word :: part <+: words.drop place) :
    words[place]? = some word := by
  obtain ⟨after, hafter⟩ := h
  have hhead : (words.drop place)[0]? = some word := by simp [← hafter]
  simpa using hhead

theorem isPrefix_drop_of_append (h : part ++ rest <+: words.drop place) :
    rest <+: words.drop (place + part.length) := by
  obtain ⟨after, hafter⟩ := h
  rw [← List.drop_drop, ← hafter, List.append_assoc, List.drop_left]
  exact List.prefix_append rest after

end Prefixes

namespace Program

variable {α : Type} {write : Node → List α} {words : List α} {last : Nat}

/-- What is still to run stands on the line from `place` on, and then `last` is reached. -/
inductive Leads (write : Node → List α) (words : List α) (last : Nat) :
    Nat → List Node → Prop
  | stop : Leads write words last last []
  /-- The first node stands at the place itself. -/
  | node {place : Nat} {n : Node} {rest : List Node}
      (hat : write n <+: words.drop place)
      (hrest : Leads write words last (place + (write n).length) rest) :
      Leads write words last place (n :: rest)
  /-- The place is that of the word behind the body of a loop. -/
  | again {place : Nat} {id : Nat} {body rest : List Node}
      (hat : write (.loop id body) <+: words.drop place)
      (hrest : Leads write words last (place + (write (.loop id body)).length) rest) :
      Leads write words last (place + (body.flatMap write).length + 1) (.loop id body :: rest)

theorem Leads.append {p rest : Program} {place : Nat}
    (hat : p.flatMap write <+: words.drop place)
    (hrest : Leads write words last (place + (p.flatMap write).length) rest) :
    Leads write words last place (p ++ rest) := by
  induction p generalizing place with
  | nil => simpa using hrest
  | cons n p ih =>
      rw [List.flatMap_cons] at hat hrest
      rw [List.length_append, ← Nat.add_assoc] at hrest
      exact .node ((List.prefix_append _ _).trans hat)
        (ih (isPrefix_drop_of_append hat) hrest)

theorem leads_of_isPrefix {p : Program} (h : p.flatMap write <+: words) :
    Leads write words (p.flatMap write).length 0 p := by
  have hrest : Leads write words (p.flatMap write).length (0 + (p.flatMap write).length) [] := by
    rw [Nat.zero_add]
    exact .stop
  simpa using Leads.append (by simpa using h) hrest

theorem Leads.body {place id : Nat} {body rest : Program} {first final : α}
    (hwrite : write (.loop id body) = first :: body.flatMap write ++ [final])
    (hat : write (.loop id body) <+: words.drop place)
    (hrest : Leads write words last (place + (write (.loop id body)).length) rest) :
    Leads write words last (place + 1) (body ++ .loop id body :: rest) := by
  have hbody : body.flatMap write ++ [final] <+: words.drop (place + 1) := by
    rw [hwrite, List.cons_append, ← List.singleton_append] at hat
    exact isPrefix_drop_of_append hat
  refine Leads.append ((List.prefix_append _ _).trans hbody) ?_
  rw [Nat.add_right_comm]
  exact .again hat hrest

theorem Leads.le_last {place : Nat} {todo : Program}
    (hwrite : ∀ id body, (write (.loop id body)).length = (body.flatMap write).length + 2)
    (h : Leads write words last place todo) : place ≤ last := by
  induction h with
  | stop => exact Nat.le_refl _
  | node _ _ ih => omega
  | again _ _ ih =>
      rw [hwrite] at ih
      omega

end Program

end TapeCompiler
