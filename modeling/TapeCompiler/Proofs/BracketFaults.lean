import TapeCompiler.Proofs.Reading

/-!
# Which tokens are a program, and what is wrong with others

`Token.symbols` is the word of a list of tokens. The parser accepts the tokens exactly if
the brackets of the word match. Otherwise it blames the first bracket that closes
nothing, and if there is none, the token that the reading stopped at.

The bridge is `Parser.readBlock_append`: along a word that closes only what is open, the
parser goes on, and the loops that are open then are those that counting leaves.
-/

namespace TapeCompiler

namespace Token

theorem symbols_append {before : List Token} (h : ∀ t ∈ before, t.kind ≠ .endOfText)
    (rest : List Token) : symbols (before ++ rest) = symbols before ++ symbols rest := by
  induction before with
  | nil => rfl
  | cons t before ih =>
      obtain ⟨ht, hbefore⟩ := List.forall_mem_cons.mp h
      obtain ⟨_ | _, line⟩ := t
      · rw [List.cons_append, symbols, symbols, ih hbefore, List.cons_append]
      · exact absurd rfl ht

/-- Each symbol of the word comes from a token before the end of the text. -/
theorem exists_append_of_symbols {tokens : List Token} {u v : List Symbol} {s : Symbol}
    (h : symbols tokens = u ++ s :: v) :
    ∃ before line after, tokens = before ++ ⟨.symbol s, line⟩ :: after ∧
      (∀ t ∈ before, t.kind ≠ .endOfText) ∧ symbols before = u := by
  induction u generalizing tokens with
  | nil =>
      obtain _ | ⟨⟨_ | _, line⟩, rest⟩ := tokens
      · cases h
      · obtain ⟨rfl, -⟩ := List.cons_eq_cons.mp h
        exact ⟨[], line, rest, rfl, by simp, rfl⟩
      · cases h
  | cons s' u ih =>
      obtain _ | ⟨⟨_ | _, line⟩, rest⟩ := tokens
      · cases h
      · obtain ⟨rfl, hrest⟩ := List.cons_eq_cons.mp h
        obtain ⟨before, line', after, rfl, hend, rfl⟩ := ih hrest
        exact ⟨_ :: before, line', after, rfl, by simpa using hend, rfl⟩
      · cases h

/-- The token at which a reading of whole tokens stops: the first end of text, or the
last token if there is no end of text. -/
def last? (tokens : List Token) : Option Token :=
  (tokens.find? (·.kind = .endOfText)).or tokens.getLast?

end Token

namespace Parser

/-- Along tokens that close only loops that are open, the reading goes on. -/
theorem readBlock_append {before : List Token} (hend : ∀ t ∈ before, t.kind ≠ .endOfText)
    (block : List Node) (loops : List OpenLoop)
    (hopen : Symbol.StaysOpen loops.length (Token.symbols before)) (line nextId : Nat)
    (rest : List Token) :
    ∃ block' loops' nextId',
      readBlock block loops line nextId (before ++ rest) =
        readBlock block' loops' ((before.map Token.line).getLastD line) nextId' rest ∧
      loops'.length + (Token.symbols before).count .closeLoop =
        loops.length + (Token.symbols before).count .openLoop := by
  induction before generalizing block loops line nextId with
  | nil => exact ⟨block, loops, nextId, rfl, rfl⟩
  | cons t before ih =>
      obtain ⟨ht, hbefore⟩ := List.forall_mem_cons.mp hend
      obtain ⟨s | _, line'⟩ := t
      case endOfText => exact absurd rfl ht
      rw [Token.symbols] at hopen ⊢
      rw [List.map_cons, List.getLastD_cons, List.cons_append]
      cases hs : s.command? with
      | some c =>
          have hne (b : Symbol) (hb : b.command? = none) : s ≠ b := by
            rintro rfl
            cases hb.symm.trans hs
          have hrest := (Symbol.staysOpen_other _ (hne _ rfl) (hne _ rfl)).mp hopen
          obtain ⟨block', loops', nextId', hread, hcount⟩ := ih hbefore _ _ hrest ..
          refine ⟨block', loops', nextId', (readBlock_command hs ..).trans hread, ?_⟩
          rwa [List.count_cons_of_ne (hne _ rfl), List.count_cons_of_ne (hne _ rfl)]
      | none =>
          rcases (Symbol.command?_eq_none_iff s).mp hs with rfl | rfl
          · have hrest : Symbol.StaysOpen (⟨nextId, block⟩ :: loops).length
                (Token.symbols before) := (Symbol.staysOpen_openLoop _ _).mp hopen
            obtain ⟨block', loops', nextId', hread, hcount⟩ :=
              ih hbefore [] _ hrest line' (nextId + 1)
            refine ⟨block', loops', nextId', hread, ?_⟩
            rw [List.count_cons_of_ne (by decide), List.count_cons_self, hcount,
              List.length_cons]
            omega
          · obtain ⟨outer, hdepth, hrest⟩ := (Symbol.staysOpen_closeLoop _ _).mp hopen
            cases loops with
            | nil => cases hdepth
            | cons loop loops =>
                obtain rfl := Nat.succ.inj hdepth
                obtain ⟨block', loops', nextId', hread, hcount⟩ := ih hbefore _ _ hrest ..
                refine ⟨block', loops', nextId', hread, ?_⟩
                rw [List.count_cons_self, List.count_cons_of_ne (by decide), ← Nat.add_assoc,
                  hcount, List.length_cons]
                omega

/-- A bracket behind a word that closes everything closes nothing. -/
theorem readBlock_of_excess {before : List Token}
    (hend : ∀ t ∈ before, t.kind ≠ .endOfText)
    (hmatch : Symbol.BracketsMatch (Token.symbols before)) (line nextId line' : Nat)
    (after : List Token) :
    (readBlock [] [] line nextId (before ++ ⟨.symbol .closeLoop, line'⟩ :: after)).1 =
      .error ⟨.unexpectedClose, line'⟩ := by
  obtain ⟨block', loops', nextId', hread, hcount⟩ :=
    readBlock_append hend [] [] hmatch.1 line nextId
      (⟨.symbol .closeLoop, line'⟩ :: after)
  obtain rfl : loops' = [] := by
    have hclosed := hmatch.2
    rw [List.length_nil] at hcount
    exact List.eq_nil_of_length_eq_zero (by omega)
  rw [hread, readBlock]

/-- Behind a word that closes only what is open, but not all of it, a loop is open. -/
theorem readBlock_of_missing {before : List Token}
    (hend : ∀ t ∈ before, t.kind ≠ .endOfText)
    (hopen : Symbol.StaysOpen 0 (Token.symbols before))
    (hcount : (Token.symbols before).count .closeLoop ≠ (Token.symbols before).count .openLoop)
    (line nextId : Nat) (rest : List Token) :
    ∃ block' loop loops' nextId',
      readBlock [] [] line nextId (before ++ rest) =
        readBlock block' (loop :: loops') ((before.map Token.line).getLastD line) nextId'
          rest := by
  obtain ⟨block', loops', nextId', hread, hleft⟩ :=
    readBlock_append hend [] [] hopen line nextId rest
  cases loops' with
  | nil => exact absurd (by simpa using hleft) hcount
  | cons loop loops' => exact ⟨block', loop, loops', nextId', hread⟩

end Parser

namespace Token

/-- Tokens are cut where the reading stops. -/
theorem cut_at_last (tokens : List Token) :
    (∃ before line after, tokens = before ++ ⟨.endOfText, line⟩ :: after ∧
      (∀ t ∈ before, t.kind ≠ .endOfText) ∧ last? tokens = some ⟨.endOfText, line⟩) ∨
    (∀ t ∈ tokens, t.kind ≠ .endOfText) ∧ last? tokens = tokens.getLast? := by
  cases hfind : tokens.find? (·.kind = .endOfText) with
  | none => exact .inr ⟨by simpa using hfind, by rw [last?, hfind, Option.none_or]⟩
  | some t =>
      obtain ⟨ht, before, after, rfl, hend⟩ := List.find?_eq_some_iff_append.mp hfind
      obtain ⟨kind, line⟩ := t
      obtain rfl : kind = .endOfText := by simpa using ht
      refine .inl ⟨before, line, after, rfl, ?_, by rw [last?, hfind, Option.some_or]⟩
      exact fun t ht' => by simpa using hend t ht'

end Token

namespace Program

theorem ofTokens_of_excess {tokens : List Token}
    (h : ¬Symbol.StaysOpen 0 (Token.symbols tokens)) :
    ∃ before line after, tokens = before ++ ⟨.symbol .closeLoop, line⟩ :: after ∧
      (∀ t ∈ before, t.kind ≠ .endOfText) ∧ Symbol.BracketsMatch (Token.symbols before) ∧
      ofTokens tokens = .error ⟨.unexpectedClose, line⟩ := by
  obtain ⟨u, v, hw, hu⟩ := Symbol.exists_closes_of_not_staysOpen h
  obtain ⟨before, line, after, rfl, hend, rfl⟩ := Token.exists_append_of_symbols hw
  exact ⟨before, line, after, rfl, hend, hu, Parser.readBlock_of_excess hend hu 1 0 line after⟩

theorem ofTokens_of_missing {tokens : List Token}
    (hopen : Symbol.StaysOpen 0 (Token.symbols tokens))
    (hcount : (Token.symbols tokens).count .closeLoop ≠ (Token.symbols tokens).count .openLoop) :
    ∃ t, Token.last? tokens = some t ∧ ofTokens tokens = .error ⟨.missingClose, t.line⟩ := by
  rcases Token.cut_at_last tokens with ⟨before, line, after, rfl, hend, hlast⟩ | ⟨hend, hlast⟩
  · have hword : Token.symbols (before ++ ⟨.endOfText, line⟩ :: after) = Token.symbols before := by
      rw [Token.symbols_append hend, Token.symbols, List.append_nil]
    rw [hword] at hopen hcount
    obtain ⟨_, _, _, _, hread⟩ :=
      Parser.readBlock_of_missing hend hopen hcount 1 0 (⟨.endOfText, line⟩ :: after)
    refine ⟨_, hlast, ?_⟩
    rw [ofTokens, Parser.program, hread, Parser.readBlock]
    rfl
  · cases hback : tokens.getLast? with
    | none =>
        obtain rfl := List.getLast?_eq_none_iff.mp hback
        exact absurd rfl hcount
    | some t =>
        obtain ⟨_, _, _, _, hread⟩ :=
          Parser.readBlock_of_missing hend hopen hcount 1 0 []
        refine ⟨t, hlast.trans hback, ?_⟩
        rw [List.append_nil] at hread
        rw [ofTokens, Parser.program, hread, Parser.readBlock, List.getLastD_eq_getLast?,
          List.getLast?_map, hback]
        rfl

/-- Only tokens whose brackets match are accepted. -/
theorem bracketsMatch_of_ofTokens {tokens : List Token} {p : Program}
    (h : ofTokens tokens = .ok p) : Symbol.BracketsMatch (Token.symbols tokens) := by
  refine Classical.byContradiction fun hmatch => ?_
  by_cases hopen : Symbol.StaysOpen 0 (Token.symbols tokens)
  · obtain ⟨t, -, he⟩ := ofTokens_of_missing hopen fun hcount => hmatch ⟨hopen, hcount⟩
    cases h.symm.trans he
  · obtain ⟨before, line, after, -, -, -, he⟩ := ofTokens_of_excess hopen
    cases h.symm.trans he

/-- Tokens are accepted exactly if their brackets match. If some prefix closes more than
it opens, the first bracket that is one too many is blamed: all brackets before it
match. If no prefix does, and the brackets do not match, the end is blamed. -/
theorem ofTokens_blames_first_unmatched (tokens : List Token) :
    ((∃ p, ofTokens tokens = .ok p) ↔ Symbol.BracketsMatch (Token.symbols tokens)) ∧
    ((∃ u, u <+: Token.symbols tokens ∧ u.count .openLoop < u.count .closeLoop) →
      ∃ before line after e, tokens = before ++ ⟨.symbol .closeLoop, line⟩ :: after ∧
        (∀ t ∈ before, t.kind ≠ .endOfText) ∧
        (∀ u, u <+: Token.symbols before → u.count .closeLoop ≤ u.count .openLoop) ∧
        (Token.symbols before).count .openLoop <
          (Token.symbols before ++ [Symbol.closeLoop]).count .closeLoop ∧
        ofTokens tokens = .error e ∧ e.fault.text = "Unexpected ']'." ∧ e.line = line) ∧
    ((∀ u, u <+: Token.symbols tokens → u.count .closeLoop ≤ u.count .openLoop) →
      ¬Symbol.BracketsMatch (Token.symbols tokens) →
      ∃ t e, Token.last? tokens = some t ∧ ofTokens tokens = .error e ∧
        e.fault.text = "Expected matching ']'." ∧ e.line = t.line) := by
  have hexcess (h : ¬Symbol.StaysOpen 0 (Token.symbols tokens)) := ofTokens_of_excess h
  have hmissing (hopen : Symbol.StaysOpen 0 (Token.symbols tokens))
      (hmatch : ¬Symbol.BracketsMatch (Token.symbols tokens)) :=
    ofTokens_of_missing hopen fun hcount => hmatch ⟨hopen, hcount⟩
  refine ⟨⟨?_, ?_⟩, ?_, ?_⟩
  · rintro ⟨p, hp⟩
    by_cases hmatch : Symbol.BracketsMatch (Token.symbols tokens)
    · exact hmatch
    by_cases hopen : Symbol.StaysOpen 0 (Token.symbols tokens)
    · obtain ⟨t, -, he⟩ := hmissing hopen hmatch
      cases hp.symm.trans he
    · obtain ⟨before, line, after, -, -, -, he⟩ := hexcess hopen
      cases hp.symm.trans he
  · intro hmatch
    obtain ⟨p, -, -, hp⟩ := ofTokens_of_bracketsMatch hmatch
    exact ⟨p.withClears, hp⟩
  · rintro ⟨u, hu, hcount⟩
    obtain ⟨before, line, after, htokens, hend, hmatch, he⟩ :=
      hexcess fun hopen => Nat.not_le.mpr hcount (hopen u hu)
    refine ⟨before, line, after, _, htokens, hend, hmatch.1, ?_, he, rfl, rfl⟩
    rw [List.count_append, hmatch.2]
    exact Nat.lt_succ_self _
  · intro hopen hmatch
    obtain ⟨t, hlast, he⟩ := hmissing hopen hmatch
    exact ⟨t, _, hlast, he, rfl, rfl⟩

/-- The second bracket on line 2 is one too many, whatever stands behind it. -/
theorem ofTokens_blames_first_unmatched_twice :
    let tokens : List Token :=
      [⟨.symbol .openLoop, 1⟩, ⟨.symbol .closeLoop, 2⟩, ⟨.symbol .closeLoop, 2⟩,
        ⟨.symbol .openLoop, 3⟩, ⟨.endOfText, 3⟩, ⟨.symbol .closeLoop, 4⟩]
    (∃ u, u <+: Token.symbols tokens ∧ u.count .openLoop < u.count .closeLoop) ∧
      ∃ e, ofTokens tokens = .error e ∧ e.fault.text = "Unexpected ']'." := by
  intro tokens
  have hexcess : ∃ u, u <+: Token.symbols tokens ∧ u.count .openLoop < u.count .closeLoop :=
    ⟨[.openLoop, .closeLoop, .closeLoop], ⟨[.openLoop], rfl⟩, by decide⟩
  obtain ⟨-, -, -, e, -, -, -, -, he, htext, -⟩ :=
    (ofTokens_blames_first_unmatched tokens).2.1 hexcess
  exact ⟨hexcess, e, he, htext⟩

end Program

end TapeCompiler
