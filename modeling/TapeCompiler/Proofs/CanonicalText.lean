import TapeCompiler.Proofs.BracketFaults
import TapeCompiler.Proofs.Printing

/-!
# The canonical form of a source text

Reading a text and printing what was read loses the comments and turns `[-]` into `[+]`, and
that is all: `source_of_ofSource` says so in terms of the text alone. Printing puts the
clears of a plain program into its text one by one (`rewriteClears_sourceChars`). A loop
that is not a single step down is no occurrence of `[-]` in the text, because the text of its
body cannot be a `-` then (`eq_stepDown_of_isPrefix`).
-/

namespace TapeCompiler

def instructionChars : List Char :=
  ['[', ']', '+', '-', '<', '>', '.', ',']

/-- A text with `[+]` in the place of every `[-]`. -/
def rewriteClears : List Char → List Char
  | '[' :: '-' :: ']' :: rest => '[' :: '+' :: ']' :: rewriteClears rest
  | c :: rest => c :: rewriteClears rest
  | [] => []

/-- A source text without its comments, and with `[+]` in the place of every `[-]`. -/
def canonical (source : String) : String :=
  String.ofList (rewriteClears (source.toList.filter (· ∈ instructionChars)))

theorem rewriteClears_of_ne {c : Char} (h : c ≠ '[') (rest : List Char) :
    rewriteClears (c :: rest) = c :: rewriteClears rest := by
  rw [rewriteClears.eq_2]
  rintro rest' heq -
  exact h heq

theorem rewriteClears_of_not_isPrefix {rest : List Char} (h : ¬['-', ']'] <+: rest) :
    rewriteClears ('[' :: rest) = '[' :: rewriteClears rest := by
  rw [rewriteClears.eq_2]
  rintro rest' - rfl
  exact h ⟨rest', rfl⟩

/-- Rewriting keeps the first character. -/
theorem head?_rewriteClears (text : List Char) :
    (rewriteClears text).head? = text.head? := by
  fun_cases rewriteClears text <;> rfl

theorem head?_of_rewriteClears_eq {text rest : List Char} {c : Char}
    (h : rewriteClears text = c :: rest) : ∃ rest', text = c :: rest' := by
  rw [← List.head?_eq_some_iff, ← head?_rewriteClears, h]
  rfl

/-- Rewriting brings no step down before a bracket. -/
theorem isPrefix_of_isPrefix_rewriteClears {text : List Char}
    (h : ['-', ']'] <+: rewriteClears text) : ['-', ']'] <+: text := by
  obtain ⟨tail, htail⟩ := h
  obtain ⟨rest, rfl⟩ := head?_of_rewriteClears_eq htail.symm
  rw [rewriteClears_of_ne (by decide)] at htail
  obtain ⟨rest', rfl⟩ := head?_of_rewriteClears_eq (List.cons_eq_cons.mp htail).2.symm
  exact ⟨rest', rfl⟩

/-- Rewriting a text again changes nothing. -/
theorem rewriteClears_rewriteClears (text : List Char) :
    rewriteClears (rewriteClears text) = rewriteClears text := by
  induction text using rewriteClears.induct with
  | case1 rest ih =>
      rw [rewriteClears, rewriteClears_of_not_isPrefix (by simp), rewriteClears_of_ne (by decide),
        rewriteClears_of_ne (by decide), ih]
  | case2 c rest h ih =>
      rw [rewriteClears.eq_2 c rest h]
      by_cases hc : c = '['
      · subst hc
        have hrest : ¬['-', ']'] <+: rewriteClears rest := fun hfront => by
          obtain ⟨rest', rfl⟩ := isPrefix_of_isPrefix_rewriteClears hfront
          exact h rest' rfl rfl
        rw [rewriteClears_of_not_isPrefix hrest, ih]
      · rw [rewriteClears_of_ne hc, ih]
  | case3 => rfl

section Comments

/-- The characters that count are those of symbols. -/
theorem filter_instructionChars (text : List Char) :
    text.filter (· ∈ instructionChars) = (text.filterMap Symbol.ofChar?).map Symbol.toChar := by
  have hmem (s : Symbol) : s.toChar ∈ instructionChars := by cases s <;> decide
  have hread := List.all_eq_true.mp
    (by decide : instructionChars.all (fun c => (Symbol.ofChar? c).isSome) = true)
  induction text with
  | nil => rfl
  | cons c text ih =>
      cases hc : Symbol.ofChar? c with
      | none =>
          have hcomment : c ∉ instructionChars := fun h => by simpa [hc] using hread c h
          rw [List.filter_cons_of_neg (by simpa using hcomment), List.filterMap_cons_none hc, ih]
      | some s =>
          obtain rfl := Symbol.ofChar?_eq_some_iff.mp hc
          rw [List.filter_cons_of_pos (by simpa using hmem s), List.filterMap_cons_some hc, ih,
            List.map_cons]

theorem canonical_eq (source : String) :
    canonical source = String.ofList (rewriteClears ((sourceSymbols source).map Symbol.toChar)) := by
  rw [canonical, filter_instructionChars]
  rfl

theorem mem_of_mem_rewriteClears {c : Char} {text : List Char} (h : c ∈ rewriteClears text) :
    c = '+' ∨ c ∈ text := by
  induction text using rewriteClears.induct with
  | case1 rest ih =>
      rw [rewriteClears] at h
      simp only [List.mem_cons] at h ⊢
      grind
  | case2 c' rest hne ih =>
      rw [rewriteClears.eq_2 c' rest hne] at h
      simp only [List.mem_cons] at h ⊢
      grind
  | case3 => cases h

/-- The canonical form of a text is its own canonical form. -/
theorem canonical_canonical (source : String) :
    canonical (canonical source) = canonical source := by
  have hinstructions : (rewriteClears (source.toList.filter (· ∈ instructionChars))).filter
      (· ∈ instructionChars) = rewriteClears (source.toList.filter (· ∈ instructionChars)) := by
    refine List.filter_eq_self.mpr fun c hc => ?_
    rcases mem_of_mem_rewriteClears hc with rfl | hmem
    · decide
    · exact (List.mem_filter.mp hmem).2
  rw [canonical, canonical, String.toList_ofList, hinstructions, rewriteClears_rewriteClears]

end Comments

namespace Program

section Clears

variable {c : Command} {rest body : Program}

/-- A command of a plain program has the text of its symbol, which is no bracket. -/
theorem sourceChars_of_isPlain (hplain : IsPlain (.command c :: rest)) :
    ∃ s : Symbol, s.command? = some c ∧ s.toChar ≠ '[' ∧ s.toChar ≠ ']' ∧
      sourceChars (.command c :: rest) = s.toChar :: sourceChars rest := by
  obtain ⟨s, hs⟩ := (Node.isPlain_command c).mp (hplain _ List.mem_cons_self)
  refine ⟨s, hs, ?_, ?_, ?_⟩
  · intro heq
    cases s <;> simp_all [Symbol.command?, Symbol.toChar]
  · intro heq
    cases s <;> simp_all [Symbol.command?, Symbol.toChar]
  · rw [sourceChars_command, source_command, Command.symbols_of_command? hs]
    rfl

/-- The text of a plain program that is not empty starts with no closing bracket. -/
theorem not_isPrefix_sourceChars {n : Node} (hplain : IsPlain (n :: rest)) (text : List Char) :
    ¬[']'] <+: sourceChars (n :: rest) ++ text := by
  cases n with
  | command c =>
      obtain ⟨s, -, -, hclose, hchars⟩ := sourceChars_of_isPlain hplain
      rw [hchars]
      simpa using hclose.symm
  | loop id body => simp [sourceChars_loop]

/-- Only a single step down has a text that goes on as that of `[-]` does. -/
theorem eq_stepDown_of_isPrefix (hplain : body.IsPlain) {text : List Char}
    (h : ['-', ']'] <+: body.sourceChars ++ ']' :: text) : body = [.command (.add (-1))] := by
  match body, hplain with
  | [], _ => simp at h
  | .loop id inner :: rest, _ => simp [sourceChars_loop] at h
  | .command c :: rest, hplain =>
      obtain ⟨s, hs, -, -, hchars⟩ := sourceChars_of_isPlain hplain
      rw [hchars, List.cons_append, List.cons_prefix_cons] at h
      obtain ⟨hminus, hclose⟩ := h
      have hcommand : c = .add (-1) := by
        cases s <;> simp_all [Symbol.command?, Symbol.toChar]
      cases rest with
      | nil => rw [hcommand]
      | cons n rest =>
          exact absurd hclose (not_isPrefix_sourceChars (List.forall_mem_cons.mp hplain).2 _)

/-- A loop that takes single steps is printed as `[+]`, whichever way it steps. -/
theorem rewriteClears_stepLoop {amount : Int} (h : amount = 1 ∨ amount = -1)
    (text : List Char) :
    rewriteClears ('[' :: (sourceChars [.command (.add amount)] ++ ']' :: text)) =
      '[' :: '+' :: ']' :: rewriteClears text := by
  rw [sourceChars_command, sourceChars_nil, List.append_nil]
  rcases h with rfl | rfl
  · have hup : (Command.add 1).source = ['+'] := rfl
    rw [hup, List.singleton_append, rewriteClears_of_not_isPrefix (by simp),
      rewriteClears_of_ne (by decide), rewriteClears_of_ne (by decide)]
  · have hdown : (Command.add (-1)).source = ['-'] := rfl
    rw [hdown, List.singleton_append, rewriteClears]

/-- Rewriting the text of a plain program puts in its clears. -/
theorem rewriteClears_sourceChars {p : Program} (hplain : p.IsPlain) (text : List Char) :
    rewriteClears (p.sourceChars ++ text) = p.withClears.sourceChars ++ rewriteClears text := by
  induction p using Program.induction generalizing text with
  | nil => rfl
  | command c rest ih =>
      obtain ⟨s, hs, hopen, -, hchars⟩ := sourceChars_of_isPlain hplain
      rw [hchars, List.cons_append, rewriteClears_of_ne hopen,
        ih (List.forall_mem_cons.mp hplain).2, withClears_cons, Node.withClears_command,
        sourceChars_command, source_command, Command.symbols_of_command? hs]
      rfl
  | loop id body rest ihBody ih =>
      obtain ⟨hloop, hrest⟩ := List.forall_mem_cons.mp hplain
      have hbody := (Node.isPlain_loop id body).mp hloop
      have hchars : sourceChars (.loop id body :: rest) ++ text =
          '[' :: (body.sourceChars ++ ']' :: (rest.sourceChars ++ text)) := by
        simp [sourceChars_loop]
      rw [withClears_cons, Node.withClears_loop, hchars]
      rcases ofBody_cases id body.withClears with ⟨amount, hamount, hclear⟩ | hsame
      · obtain rfl := eq_of_withClears_eq hamount
        rw [rewriteClears_stepLoop (eq_one_of_withClears_eq hbody hamount), ih hrest, hclear,
          sourceChars_command]
        rfl
      · have hdown : ¬['-', ']'] <+: body.sourceChars ++ ']' :: (rest.sourceChars ++ text) := by
          intro hfront
          obtain rfl := eq_stepDown_of_isPrefix hbody hfront
          rw [withClears_cons, Node.withClears_command] at hsame
          cases hsame
        rw [rewriteClears_of_not_isPrefix hdown, ihBody hbody, rewriteClears_of_ne (by decide),
          ih hrest, hsame, sourceChars_loop]
        simp

end Clears

/-- What is printed for a text that was read is the canonical form of the text. -/
theorem source_eq_canonical {source : String} {p : Program} (h : ofSource source = .ok p) :
    p.source = canonical source := by
  obtain ⟨q, hplain, hspelled, hread⟩ := ofTokens_of_bracketsMatch (bracketsMatch_of_ofTokens h)
  obtain rfl : q.withClears = p := Except.ok.inj (hread.symm.trans h)
  have hrewritten := rewriteClears_sourceChars hplain []
  rw [List.append_nil, sourceChars_eq, hspelled, symbols_scan, rewriteClears,
    List.append_nil] at hrewritten
  rw [canonical_eq, hrewritten, Program.source]

/-- Reading a text and printing what was read gives the canonical form of the text, and
from there on it gives the same text. -/
theorem source_of_ofSource {source : String} {p : Program} (h : ofSource source = .ok p) :
    p.source = canonical source ∧
      ∃ q, ofSource (canonical source) = .ok q ∧ q.source = canonical source := by
  have hsource := source_eq_canonical h
  obtain ⟨q, -, -, hread⟩ := exists_ofSource_source p
  rw [hsource] at hread
  exact ⟨hsource, q.withClears, hread,
    (source_eq_canonical hread).trans (canonical_canonical source)⟩

/-- Comments inside brackets, and clears next to each other and inside a loop. -/
theorem source_of_ofSource_clears :
    let source := "a[ - ]b[-][+-[c-]-d]!"
    (∃ p, ofSource source = .ok p ∧ p.source = "[+][+][+-[+]-]") ∧
      ∃ q, ofSource "[+][+][+-[+]-]" = .ok q ∧ q.source = "[+][+][+-[+]-]" := by
  intro source
  have hread : ofSource source = .ok
      [.command .clear, .command .clear,
        .loop 2 [.command (.add 1), .command (.add (-1)), .command .clear,
          .command (.add (-1))]] := by
    decide +kernel
  have hcanonical : canonical source = "[+][+][+-[+]-]" := by decide +kernel
  obtain ⟨hsource, hagain⟩ := source_of_ofSource hread
  rw [hcanonical] at hsource hagain
  exact ⟨⟨_, hread, hsource⟩, hagain⟩

end Program

end TapeCompiler
