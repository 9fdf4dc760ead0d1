import TapeCompiler.Layout.Line

/-!
# Where a text breaks into lines

`BreaksInto` says what the lines of a text are: no line holds a line feed, and a carriage
return ends a line only together with the line feed behind it. Every text breaks into lines
in one way, and these are the lines that `linesOf` finds (`breaksInto_iff`).
-/

namespace TapeCompiler

/-- The lines of a text. -/
inductive BreaksInto : List Char → List String → Prop where
  | nothing : BreaksInto [] []
  /-- The last line need not be ended, and may then end in a carriage return. -/
  | unfinished {line : List Char} (hline : '\n' ∉ line) (hnonempty : line ≠ []) :
      BreaksInto line [String.ofList line]
  | feed {line rest : List Char} {lines : List String} (hline : '\n' ∉ line)
      (hlast : line.getLast? ≠ some '\r') (hrest : BreaksInto rest lines) :
      BreaksInto (line ++ '\n' :: rest) (String.ofList line :: lines)
  | returnFeed {line rest : List Char} {lines : List String} (hline : '\n' ∉ line)
      (hrest : BreaksInto rest lines) :
      BreaksInto (line ++ '\r' :: '\n' :: rest) (String.ofList line :: lines)

theorem dropReturn_of_head? {line : List Char} (h : line.head? ≠ some '\r') :
    dropReturn line = line := by
  unfold dropReturn
  split
  next => exact absurd rfl h
  next => rfl

/-- Up to the next line feed all characters are of one line. -/
theorem linesFrom_append {line : List Char} (h : '\n' ∉ line) (before rest : List Char) :
    linesFrom before (line ++ rest) = linesFrom (line.reverse ++ before) rest := by
  induction line generalizing before with
  | nil => rfl
  | cons c line ih =>
      have hc := List.ne_of_not_mem_cons h
      rw [List.cons_append, linesFrom.eq_3 _ _ _ (Ne.symm hc),
        ih (List.not_mem_of_not_mem_cons h), List.reverse_cons, List.append_assoc,
        List.singleton_append]

theorem linesFrom_feed {line : List Char} (h : '\n' ∉ line) (before rest : List Char) :
    linesFrom before (line ++ '\n' :: rest) =
      String.ofList (dropReturn (line.reverse ++ before)).reverse :: linesFrom [] rest := by
  rw [linesFrom_append h, linesFrom]

theorem linesFrom_of_breaksInto {text : List Char} {lines : List String}
    (h : BreaksInto text lines) : linesFrom [] text = lines := by
  induction h with
  | nothing => rfl
  | @unfinished line hline hnonempty =>
      have happend := linesFrom_append hline [] []
      rw [List.append_nil, List.append_nil] at happend
      simp [happend, linesFrom, hnonempty]
  | feed hline hlast hrest ih =>
      rw [linesFrom_feed hline, ih, List.append_nil, dropReturn_of_head?, List.reverse_reverse]
      rwa [List.head?_reverse]
  | @returnFeed line rest lines hline hrest ih =>
      have hreturn : '\n' ∉ line ++ ['\r'] := by simpa using hline
      have hfeed := linesFrom_feed hreturn [] rest
      rw [List.append_assoc, List.singleton_append] at hfeed
      rw [hfeed, ih, List.reverse_append, List.append_nil, List.reverse_singleton,
        List.singleton_append, dropReturn, List.reverse_reverse]

theorem exists_breaksInto (text : List Char) : ∃ lines, BreaksInto text lines := by
  -- Each line feed leaves a shorter text behind it.
  induction hlength : text.length using Nat.strongRecOn generalizing text with
  | _ length ih =>
      by_cases hfeed : '\n' ∈ text
      · obtain ⟨line, rest, rfl, hline⟩ := List.eq_append_cons_of_mem hfeed
        have hshorter : rest.length < length := by
          rw [← hlength, List.length_append, List.length_cons]
          omega
        obtain ⟨lines, hrest⟩ := ih rest.length hshorter rest rfl
        by_cases hlast : line.getLast? = some '\r'
        · obtain ⟨start, rfl⟩ := List.getLast?_eq_some_iff.mp hlast
          rw [List.append_assoc, List.singleton_append]
          exact ⟨_, .returnFeed (fun hmem => hline (List.mem_append_left _ hmem)) hrest⟩
        · exact ⟨_, .feed hline hlast hrest⟩
      · by_cases hnonempty : text = []
        · subst hnonempty
          exact ⟨[], .nothing⟩
        · exact ⟨_, .unfinished hfeed hnonempty⟩

/-- A text breaks into the lines that are found in it, and into no others. -/
theorem breaksInto_iff {text : String} {lines : List String} :
    BreaksInto text.toList lines ↔ linesOf text = lines := by
  refine ⟨linesFrom_of_breaksInto, ?_⟩
  rintro rfl
  obtain ⟨lines, hbreaks⟩ := exists_breaksInto text.toList
  rw [linesOf, linesFrom_of_breaksInto hbreaks]
  exact hbreaks

end TapeCompiler
