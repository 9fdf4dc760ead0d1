import TapeCompiler.Proofs.BracketFaults

/-!
# Lines of a source text

The tokens of a part of a text are found without the text around it, except that the
lines before it count (`Cursor.toList_collect_append`). So a token is on the line that the
characters before it lead to, and the fault of a text can be told from its characters:
`Blames` says which bracket, or whether the end, is to blame, and on which line, and
`Program.ofSource_eq_error_iff` says that this is the error that is reported.
-/

namespace TapeCompiler

namespace Cursor

/-- The tokens of a part of a text that starts on line `line`. -/
def tokensOf (line : Nat) : List Char → List Token
  | [] => []
  | c :: rest =>
      match Symbol.ofChar? c with
      | some s => ⟨.symbol s, line⟩ :: tokensOf line rest
      | none => tokensOf (lineAfter line c) rest

theorem tokensOf_of_some {c : Char} {s : Symbol} (h : Symbol.ofChar? c = some s) (line : Nat)
    (rest : List Char) : tokensOf line (c :: rest) = ⟨.symbol s, line⟩ :: tokensOf line rest := by
  simp only [tokensOf, h]

theorem tokensOf_of_none {c : Char} (h : Symbol.ofChar? c = none) (line : Nat)
    (rest : List Char) : tokensOf line (c :: rest) = tokensOf (lineAfter line c) rest := by
  simp only [tokensOf, h]

theorem lineAfter_add_count (line : Nat) (c : Char) (rest : List Char) :
    lineAfter line c + rest.count '\n' = line + (c :: rest).count '\n' := by
  rw [List.count_cons, lineAfter]
  by_cases h : c = '\n'
  · simp [h, Nat.add_assoc, Nat.add_comm 1]
  · simp [h]

theorem lineAfter_of_some {c : Char} {s : Symbol} (h : Symbol.ofChar? c = some s)
    (line : Nat) : lineAfter line c = line := by
  refine if_neg ?_
  rintro rfl
  cases h

/-- The tokens of a text are those of its parts. The second part starts on the line that
the first one ends on. -/
theorem toList_collect_append (line : Nat) (u v : List Char) :
    (collect line #[] (u ++ v)).toList =
      tokensOf line u ++ (collect (line + u.count '\n') #[] v).toList := by
  induction u generalizing line with
  | nil => rfl
  | cons c u ih =>
      rw [List.cons_append, collect_cons]
      cases h : Symbol.ofChar? c with
      | none =>
          rw [tokensOf_of_none h, ← lineAfter_add_count]
          exact ih _
      | some s =>
          rw [tokensOf_of_some h, ← lineAfter_add_count, lineAfter_of_some h,
            List.cons_append, ← ih, toList_collect]
          rfl

/-- Behind the tokens of the symbols of a text comes its end. -/
theorem toList_collect_eq_append (line : Nat) (text : List Char) :
    (collect line #[] text).toList =
      tokensOf line text ++ [⟨.endOfText, line + text.count '\n'⟩] := by
  have h := toList_collect_append line text []
  rwa [List.append_nil] at h

theorem symbols_tokensOf (line : Nat) (text : List Char) :
    Token.symbols (tokensOf line text) = text.filterMap Symbol.ofChar? := by
  induction text generalizing line with
  | nil => rfl
  | cons c text ih =>
      cases h : Symbol.ofChar? c with
      | none => rw [tokensOf_of_none h, List.filterMap_cons_none h, ih]
      | some s => rw [tokensOf_of_some h, List.filterMap_cons_some h, Token.symbols, ih]

theorem kind_ne_of_mem_tokensOf {line : Nat} {text : List Char} {t : Token}
    (h : t ∈ tokensOf line text) : t.kind ≠ .endOfText := by
  induction text generalizing line with
  | nil => cases h
  | cons c text ih =>
      cases hc : Symbol.ofChar? c with
      | none => exact ih (tokensOf_of_none hc line text ▸ h)
      | some s =>
          rw [tokensOf_of_some hc, List.mem_cons] at h
          rcases h with rfl | h
          · exact TokenKind.noConfusion
          · exact ih h

end Cursor

theorem scan_eq_tokensOf_append (source : String) :
    scan source =
      Cursor.tokensOf 1 source.toList ++ [⟨.endOfText, 1 + source.toList.count '\n'⟩] :=
  Cursor.toList_collect_eq_append 1 source.toList

/-- What is wrong with the brackets of a text. The first bracket that closes nothing is to
blame, where all brackets before it match. If there is none, the end of the text is. -/
inductive Blames : List Char → ParseError → Prop where
  | excess (before after : List Char)
      (hmatch : Symbol.BracketsMatch (before.filterMap Symbol.ofChar?)) :
      Blames (before ++ ']' :: after) ⟨.unexpectedClose, 1 + before.count '\n'⟩
  | missing (text : List Char)
      (hopen : Symbol.StaysOpen 0 (text.filterMap Symbol.ofChar?))
      (hcount : (text.filterMap Symbol.ofChar?).count .closeLoop ≠
        (text.filterMap Symbol.ofChar?).count .openLoop) :
      Blames text ⟨.missingClose, 1 + text.count '\n'⟩

theorem exists_blames_of_not_bracketsMatch {text : List Char}
    (h : ¬Symbol.BracketsMatch (text.filterMap Symbol.ofChar?)) : ∃ e, Blames text e := by
  by_cases hopen : Symbol.StaysOpen 0 (text.filterMap Symbol.ofChar?)
  · exact ⟨_, .missing text hopen fun hcount => h ⟨hopen, hcount⟩⟩
  · obtain ⟨u, v, hw, hu⟩ := Symbol.exists_closes_of_not_staysOpen hopen
    obtain ⟨before, rest, rfl, rfl, hrest⟩ := List.filterMap_eq_append_iff.mp hw
    -- Between the brackets before and the one too many there may be comments.
    obtain ⟨comments, c, after, rfl, hcomments, hc, rfl⟩ :=
      List.filterMap_eq_cons_iff.mp hrest
    obtain rfl := Symbol.ofChar?_eq_some_iff.mp hc
    have hmatch : Symbol.BracketsMatch ((before ++ comments).filterMap Symbol.ofChar?) := by
      rw [List.filterMap_append, List.filterMap_eq_nil_iff.mpr hcomments, List.append_nil]
      exact hu
    rw [← List.append_assoc]
    exact ⟨_, .excess _ after hmatch⟩

namespace Program

theorem ofSource_of_blames {source : String} {e : ParseError} (h : Blames source.toList e) :
    ofSource source = .error e := by
  rw [ofSource]
  generalize htext : source.toList = text at h
  cases h with
  | excess before after hmatch =>
      have hscan : scan source = Cursor.tokensOf 1 before ++
          ⟨.symbol .closeLoop, 1 + before.count '\n'⟩ ::
            (Cursor.collect (1 + before.count '\n') #[] after).toList := by
        have happend := Cursor.toList_collect_append 1 before (']' :: after)
        rw [← htext, Cursor.collect_cons] at happend
        exact happend.trans (congrArg _ (Cursor.toList_collect ..))
      rw [← Cursor.symbols_tokensOf 1] at hmatch
      rw [hscan]
      exact Parser.readBlock_of_excess (fun _ => Cursor.kind_ne_of_mem_tokensOf) hmatch ..
  | missing text hopen hcount =>
      have hsymbols : Token.symbols (scan source) = text.filterMap Symbol.ofChar? := by
        rw [symbols_scan, sourceSymbols, htext]
      rw [← hsymbols] at hopen hcount
      obtain ⟨t, hlast, he⟩ := ofTokens_of_missing hopen hcount
      rw [he]
      suffices ht : t = ⟨.endOfText, 1 + text.count '\n'⟩ by rw [ht]
      have hnone : (Cursor.tokensOf 1 text).find? (·.kind = .endOfText) = none := by
        simpa using fun _ => Cursor.kind_ne_of_mem_tokensOf
      rw [Token.last?, scan_eq_tokensOf_append, htext, List.find?_append, hnone] at hlast
      exact (Option.some.inj hlast).symm

theorem ofSource_of_bracketsMatch {source : String}
    (h : Symbol.BracketsMatch (sourceSymbols source)) : ∃ p, ofSource source = .ok p := by
  rw [← symbols_scan] at h
  obtain ⟨p, -, -, hp⟩ := ofTokens_of_bracketsMatch h
  exact ⟨p.withClears, hp⟩

/-- The error that is reported says what is wrong with the text. -/
theorem ofSource_eq_error_iff {source : String} {e : ParseError} :
    ofSource source = .error e ↔ Blames source.toList e := by
  refine ⟨fun h => ?_, ofSource_of_blames⟩
  have hmatch : ¬Symbol.BracketsMatch (sourceSymbols source) := fun hmatch => by
    obtain ⟨p, hp⟩ := ofSource_of_bracketsMatch hmatch
    cases h.symm.trans hp
  obtain ⟨e', he'⟩ := exists_blames_of_not_bracketsMatch hmatch
  obtain rfl := Except.error.inj (h.symm.trans (ofSource_of_blames he'))
  exact he'

end Program

end TapeCompiler
